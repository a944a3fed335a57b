import Mathlib.GroupTheory.OrderOfElement
import Mathlib.Data.ZMod.Basic
import Mathlib.Tactic.NormNum.Prime
import BSDLibC.Randomid.Generator

/-! The arithmetic behind a cycle of ids: `pmod` is the power it stands for, the two loops of
`initid` end with a coprime increment and a generator, and different states of the linear
congruential generator give different ids.
-/

namespace BSDLibC.Randomid

/-- Reducing a product of two words to 64 bits loses nothing. -/
theorem word_mul_mod {x y : Nat} (hx : x < 2 ^ 32) (hy : y < 2 ^ 32) (mod : Nat)
    : x * y % 2 ^ 64 % mod = x * y % mod := by
  have : x * y < 2 ^ 32 * 2 ^ 32 := Nat.mul_lt_mul'' hx hy
  rw [Nat.mod_eq_of_lt (by omega : x * y < 2 ^ 64)]

/-- The loop of `pmod` multiplies the accumulator by the power that is left. -/
theorem pmod_loop_eq {mod : Nat} (small : mod ≤ 2 ^ 32) (rounds : Nat)
    : ∀ {s t u : Nat}, s < mod → t < 2 ^ 32 → u < 2 ^ rounds →
      pmod.loop mod rounds s t u = s * t ^ u % mod := by
  induction rounds with
  | zero =>
      intro s t u hs _ bound
      obtain rfl : u = 0 := by simpa using bound
      simp [pmod.loop, Nat.mod_eq_of_lt hs]
  | succ rounds ih =>
      intro s t u hs ht bound
      rw [pmod.loop]
      split
      · next zero => simp [zero, Nat.mod_eq_of_lt hs]
      next nonzero =>
      have positive : 0 < mod := by omega
      rw [Nat.and_one_is_mod, Nat.shiftRight_eq_div_pow, pow_one, word_mul_mod ht ht,
        word_mul_mod (lt_of_lt_of_le hs small) ht]
      have half : u / 2 < 2 ^ rounds := by
        rw [Nat.pow_succ] at bound
        omega
      have square : t * t % mod < 2 ^ 32 := lt_of_lt_of_le (Nat.mod_lt _ positive) small
      have power : t ^ u = (t * t) ^ (u / 2) * t ^ (u % 2) := by
        rw [← pow_two, ← pow_mul, ← pow_add, Nat.div_add_mod]
      have rest (x : Nat) : x * (t * t % mod) ^ (u / 2) % mod = x * (t * t) ^ (u / 2) % mod :=
        ((Nat.mod_modEq (t * t) mod).pow (u / 2)).mul_left x
      split
      · next odd =>
        rw [ih (Nat.mod_lt _ positive) square half, rest, power, odd, pow_one]
        calc s * t % mod * (t * t) ^ (u / 2) % mod
            = s * t * (t * t) ^ (u / 2) % mod := (Nat.mod_modEq (s * t) mod).mul_right _
          _ = s * ((t * t) ^ (u / 2) * t) % mod := by ring_nf
      · next even =>
        have zero : u % 2 = 0 := by omega
        rw [ih hs square half, rest, power, zero, pow_zero, Nat.mul_one]

/-- `pmod` is the power modulo `mod`. -/
theorem pmod_eq {gen expo mod : Nat} (hg : gen < 2 ^ 32) (he : expo < 2 ^ 32)
    (atLeast : 1 < mod) (small : mod ≤ 2 ^ 32)
    : pmod gen expo mod = gen ^ expo % mod := by
  have loop := pmod_loop_eq small 32 atLeast hg he
  rw [Nat.one_mul] at loop
  rw [pmod, loop, Nat.mod_eq_of_lt (lt_of_lt_of_le (Nat.mod_lt _ (by omega)) small)]

/-- What the three lines of `randomconf[]` have in common. -/
structure Conf.Sound (conf : Conf) : Prop where
  bits : 1 ≤ conf.bits ∧ conf.bits ≤ 32
  max : 8 ≤ conf.max ∧ conf.max < conf.m
  agen : conf.agen = 7
  m : 12 ∣ conf.m ∧ conf.m < conf.n
  primes : ∀ p, p.Prime → p ∣ conf.m → p = 2 ∨ p = 3
  gen : conf.gen < 2 ^ 32 ∧ orderOf (conf.gen : ZMod conf.n) = conf.n - 1
  n : conf.n < 2 ^ (conf.bits - 1)
  pfacts : ∀ j, (∀ factor ∈ conf.pfacts, j % factor ≠ 0) → Nat.Coprime (conf.n - 1) j
  one : ∀ factor ∈ conf.pfacts, 1 % factor ≠ 0
  skip : conf.skip ≤ 3

/-- A power computed by `pmod`, as a residue. -/
theorem pow_eq_pmod {gen expo n : Nat} (hg : gen < 2 ^ 32) (he : expo < 2 ^ 32)
    (atLeast : 1 < n) (small : n ≤ 2 ^ 32)
    : (gen : ZMod n) ^ expo = (pmod gen expo n : Nat) := by
  rw [pmod_eq hg he atLeast small, ZMod.natCast_mod, Nat.cast_pow]

/-- The order of a generator, from `pmod` at the exponents that divide out one factor. -/
theorem orderOf_eq_of_pmod {gen n : Nat} (factors : List Nat) (hg : gen < 2 ^ 32)
    (atLeast : 1 < n) (small : n ≤ 2 ^ 32) (full : pmod gen (n - 1) n = 1)
    (listed : ∀ p, p.Prime → p ∣ n - 1 → p ∈ factors)
    (proper : ∀ p ∈ factors, pmod gen ((n - 1) / p) n % n ≠ 1)
    : orderOf (gen : ZMod n) = n - 1 := by
  refine orderOf_eq_of_pow_and_pow_div_prime (by omega) ?_ ?_
  · rw [pow_eq_pmod hg (by omega) atLeast small, full, Nat.cast_one]
  · intro p prime divides one
    have below : (n - 1) / p < 2 ^ 32 := lt_of_le_of_lt (Nat.div_le_self _ _) (by omega)
    have same : ((pmod gen ((n - 1) / p) n : Nat) : ZMod n) = ((1 : Nat) : ZMod n) := by
      rw [← pow_eq_pmod hg below atLeast small, one, Nat.cast_one]
    rw [ZMod.natCast_eq_natCast_iff', Nat.mod_eq_of_lt atLeast] at same
    exact proper p (listed p prime divides) same

/-- The primes of a product of prime powers. -/
theorem mem_of_dvd_product {p q i j : Nat} (prime : p.Prime) (large : q.Prime)
    (divides : p ∣ 2 ^ i * 3 ^ j * q)
    : p ∈ [2, 3, q] := by
  rcases (Nat.Prime.dvd_mul prime).mp divides with low | high
  · rcases (Nat.Prime.dvd_mul prime).mp low with two | three
    · simp [(Nat.prime_dvd_prime_iff_eq prime Nat.prime_two).mp (prime.dvd_of_dvd_pow two)]
    · simp [(Nat.prime_dvd_prime_iff_eq prime Nat.prime_three).mp (prime.dvd_of_dvd_pow three)]
  · simp [(Nat.prime_dvd_prime_iff_eq prime large).mp high]

/-- The numbers of a line that can be compared as they stand. -/
structure Conf.Bounds (conf : Conf) : Prop where
  bits : 1 ≤ conf.bits ∧ conf.bits ≤ 32
  max : 8 ≤ conf.max ∧ conf.max < conf.m
  agen : conf.agen = 7
  m : 12 ∣ conf.m ∧ conf.m < conf.n
  gen : conf.gen < 2 ^ 32
  n : conf.n < 2 ^ (conf.bits - 1)
  skip : conf.skip ≤ 3
  full : pmod conf.gen (conf.n - 1) conf.n = 1
  proper : ∀ p ∈ conf.pfacts, pmod conf.gen ((conf.n - 1) / p) conf.n % conf.n ≠ 1

theorem Conf.Bounds.n_le {conf : Conf} (bounds : conf.Bounds) : conf.n < 2 ^ 31 := by
  have := Nat.pow_le_pow_right (n := 2) (by omega) (by have := bounds.bits; omega : conf.bits - 1 ≤ 31)
  exact lt_of_lt_of_le bounds.n this

/-- A line is sound once the factors of its two moduli are known. -/
theorem Conf.Bounds.sound {conf : Conf} (bounds : conf.Bounds) {i j k l q : Nat}
    (modulus : conf.m = 2 ^ i * 3 ^ j) (group : conf.n - 1 = 2 ^ k * 3 ^ l * q)
    (large : q.Prime) (pfacts : conf.pfacts = [2, 3, q])
    : conf.Sound where
  bits := bounds.bits
  max := bounds.max
  agen := bounds.agen
  m := bounds.m
  n := bounds.n
  skip := bounds.skip
  primes p prime divides := by
    rw [modulus, Nat.Prime.dvd_mul prime] at divides
    rcases divides with two | three
    · exact .inl ((Nat.prime_dvd_prime_iff_eq prime Nat.prime_two).mp (prime.dvd_of_dvd_pow two))
    · exact .inr
        ((Nat.prime_dvd_prime_iff_eq prime Nat.prime_three).mp (prime.dvd_of_dvd_pow three))
  gen := by
    have atLeast : 1 < conf.n := by
      have := bounds.m.2
      have := bounds.max
      omega
    refine ⟨bounds.gen, orderOf_eq_of_pmod conf.pfacts bounds.gen atLeast ?_ bounds.full ?_
      bounds.proper⟩
    · have := bounds.n_le
      omega
    · intro p prime divides
      rw [group] at divides
      rw [pfacts]
      exact mem_of_dvd_product prime large divides
  pfacts e free := by
    refine Nat.coprime_of_dvd fun p prime order divides => ?_
    rw [group] at order
    refine free p ?_ (Nat.mod_eq_zero_of_dvd divides)
    rw [pfacts]
    exact mem_of_dvd_product prime large order
  one := by
    intro factor listed
    rw [pfacts] at listed
    have := large.one_lt
    have above : 1 < factor := by
      simp only [List.mem_cons, List.not_mem_nil, or_false] at listed
      omega
    rw [Nat.mod_eq_of_lt above]
    decide

/-- Every line of `randomconf[]` is sound. -/
theorem randomconf_sound {conf : Conf} (line : conf ∈ randomconf) : conf.Sound := by
  simp only [randomconf, List.mem_cons, List.not_mem_nil, or_false] at line
  rcases line with rfl | rfl | rfl
  · have bounds : Conf.Bounds
        ⟨32, 1000000000, 2, 2147483629, 7, 1836660096, [2, 3, 59652323], 3⟩ := by
      constructor <;> decide +kernel
    exact bounds.sound (i := 7) (j := 15) (k := 2) (l := 2) (q := 59652323) (by norm_num)
      (by norm_num) (by norm_num) rfl
  · have bounds : Conf.Bounds ⟨20, 200000, 2, 524269, 7, 279936, [2, 3, 14563], 3⟩ := by
      constructor <;> decide +kernel
    exact bounds.sound (i := 7) (j := 7) (k := 2) (l := 2) (q := 14563) (by norm_num)
      (by norm_num) (by norm_num) rfl
  · have bounds : Conf.Bounds ⟨16, 30000, 2, 32749, 7, 31104, [2, 3, 2729], 0⟩ := by
      constructor <;> decide +kernel
    exact bounds.sound (i := 7) (j := 5) (k := 2) (l := 1) (q := 2729) (by norm_num)
      (by norm_num) (by norm_num) rfl

section

variable {conf : Conf}

theorem Conf.Sound.n_lt (sound : conf.Sound) : conf.n < 2 ^ 31 :=
  lt_of_lt_of_le sound.n
    (Nat.pow_le_pow_right (by omega) (by have := sound.bits; omega : conf.bits - 1 ≤ 31))

/-- The first loop of `initid` moves at most once. -/
theorem increment_spec (rounds b : Nat) (enough : 2 ≤ rounds) (odd : b % 2 = 1)
    (word : b < 2 ^ 32)
    : ∃ result, initid.increment rounds b = some result
      ∧ result % 2 = 1 ∧ result % 3 ≠ 0 ∧ result < 2 ^ 32 := by
  obtain ⟨rounds, rfl⟩ : ∃ more, rounds = more + 2 := ⟨rounds - 2, by omega⟩
  by_cases multiple : b % 3 = 0
  · obtain ⟨next, stepped⟩ : ∃ next, next = (b + 2) % 2 ^ 32 := ⟨_, rfl⟩
    have good : next % 2 = 1 ∧ next % 3 ≠ 0 ∧ next < 2 ^ 32 := by
      by_cases top : b = 2 ^ 32 - 1
      · subst top
        subst stepped
        decide
      · rw [Nat.mod_eq_of_lt (by omega)] at stepped
        omega
    refine ⟨next, ?_, good⟩
    rw [initid.increment, if_pos multiple, ← stepped, initid.increment, if_neg good.2.1]
  · exact ⟨b, by rw [initid.increment, if_neg multiple], odd, multiple, word⟩

/-- The second loop of `initid` comes past 1 at the latest. -/
theorem exponent_spec (sound : conf.Sound) (rounds : Nat)
    : ∀ {j : Nat}, j < conf.n → (if j ≤ 1 then 1 - j else conf.n + 1 - j) < rounds →
      ∃ result, initid.exponent conf rounds j = some result
        ∧ Nat.Coprime (conf.n - 1) result ∧ result < conf.n := by
  have two : 2 ≤ conf.n := by
    have := sound.max
    have := sound.m
    omega
  induction rounds with
  | zero => intro j _ bound; omega
  | succ rounds ih =>
      intro j small bound
      rw [initid.exponent]
      split
      · next divides =>
        have notOne : j ≠ 1 := by
          rintro rfl
          obtain ⟨factor, listed, zero⟩ := List.any_eq_true.mp divides
          exact sound.one factor listed (by simpa using zero)
        refine ih (Nat.mod_lt _ (by omega)) ?_
        rcases Nat.lt_or_ge (j + 1) conf.n with inside | wraps
        · rw [Nat.mod_eq_of_lt inside]
          split at bound <;> split <;> omega
        · have last : j + 1 = conf.n := by omega
          rw [last, Nat.mod_self, if_pos (by omega)]
          split at bound <;> omega
      · next free =>
        refine ⟨j, rfl, sound.pfacts j fun factor listed zero => free ?_, small⟩
        exact List.any_eq_true.mpr ⟨factor, listed, by simpa using zero⟩

theorem or_one_mod_two (x : Nat) : (x ||| 1) % 2 = 1 := by
  have low := Nat.testBit_or x 1 0
  simpa only [Nat.testBit_zero, Nat.one_mod, decide_true, Bool.or_true, decide_eq_true_eq]
    using low

theorem and_even_mod_two (x : Nat) : (x &&& (2 ^ 32 - 2)) % 2 = 0 := by
  have low := Nat.and_mod_two_pow (a := x) (b := 2 ^ 32 - 2) (n := 1)
  rwa [show (2 ^ 32 - 2) % 2 ^ 1 = 0 by decide, Nat.and_zero] at low

/-- An even power of seven leaves 1 modulo twelve. -/
theorem pow_seven_mod (e : Nat) (even : e % 2 = 0) : 7 ^ e % 12 = 1 := by
  obtain ⟨half, rfl⟩ : ∃ half, e = 2 * half := ⟨e / 2, by omega⟩
  rw [pow_mul, Nat.pow_mod]
  norm_num

/-- The parameters `initid` chooses give the generator its full period. -/
theorem fullPeriod_of_choice (sound : conf.Sound) {e b : Nat} (even : e % 2 = 0)
    (word : e < 2 ^ 32) (odd : b % 2 = 1) (three : b % 3 ≠ 0)
    : Lcg.FullPeriod (pmod conf.agen e conf.m) b conf.m := by
  have bound := sound.max
  have small := sound.m
  have n := sound.n_lt
  have twelve : pmod conf.agen e conf.m % 12 = 1 := by
    rw [sound.agen, pmod_eq (by decide) word (by omega) (by omega), Nat.mod_mod_of_dvd _ small.1,
      pow_seven_mod e even]
  refine ⟨by omega, ?_, fun _ => by omega, ?_⟩
  · intro p prime divides
    rcases sound.primes p prime divides with rfl | rfl <;> omega
  · refine Nat.coprime_of_dvd fun p prime inB divides => ?_
    rcases sound.primes p prime divides with rfl | rfl <;> omega

end

/-- A context between two runs of `initid`: its generator was started at `start` and has
made `counter` steps.
-/
structure Ready (p : Ctx) (start : Nat) : Prop where
  full : Lcg.FullPeriod p.a p.b p.conf.m
  words : p.a < 2 ^ 32 ∧ p.b < 2 ^ 32
  started : start < p.conf.m
  x : p.x = (Lcg.next p.a p.b p.conf.m)^[p.counter] start
  counter : p.counter ≤ p.conf.max
  seeds : p.seed < 2 ^ (p.conf.bits - 1) ∧ p.seed2 < 2 ^ (p.conf.bits - 1)
  g : p.g < p.conf.n ∧ orderOf (p.g : ZMod p.conf.n) = p.conf.n - 1

/-- The id a context returns after `steps` steps of its generator, without the top bit. -/
def cycleId (p : Ctx) (start steps : Nat) : Nat :=
  p.seed ^^^ pmod p.g (p.seed2 + (Lcg.next p.a p.b p.conf.m)^[steps] start) p.conf.n

section

variable {p : Ctx} {start : Nat}

theorem iterate_lt (ready : Ready p start) (steps : Nat)
    : (Lcg.next p.a p.b p.conf.m)^[steps] start < p.conf.m := by
  have := ready.started
  cases steps with
  | zero => exact this
  | succ steps =>
      rw [Function.iterate_succ_apply']
      exact Lcg.next_lt (by omega) _

/-- The exponent of an id is a word. -/
theorem exponent_lt (sound : p.conf.Sound) (ready : Ready p start) (steps : Nat)
    : p.seed2 + (Lcg.next p.a p.b p.conf.m)^[steps] start < 2 ^ 32 := by
  have x := iterate_lt ready steps
  have m := sound.m.2
  have n := sound.n_lt
  have seed := lt_of_lt_of_le ready.seeds.2
    (Nat.pow_le_pow_right (by omega) (by have := sound.bits; omega : p.conf.bits - 1 ≤ 31))
  omega

theorem cycle_pmod (sound : p.conf.Sound) (ready : Ready p start) (steps : Nat)
    : pmod p.g (p.seed2 + (Lcg.next p.a p.b p.conf.m)^[steps] start) p.conf.n
      = p.g ^ (p.seed2 + (Lcg.next p.a p.b p.conf.m)^[steps] start) % p.conf.n := by
  have n := sound.n_lt
  have g := ready.g.1
  have := sound.m
  have := sound.max
  exact pmod_eq (by omega) (exponent_lt sound ready steps) (by omega) (by omega)

theorem cycleId_lt (sound : p.conf.Sound) (ready : Ready p start) (steps : Nat)
    : cycleId p start steps < 2 ^ (p.conf.bits - 1) := by
  rw [cycleId, cycle_pmod sound ready]
  have := ready.g.1
  exact Nat.xor_lt_two_pow ready.seeds.1 (lt_trans (Nat.mod_lt _ (by omega)) sound.n)

/-- Different numbers of steps within a cycle give different ids. -/
theorem cycleId_ne (sound : p.conf.Sound) (ready : Ready p start) {i j : Nat} (before : i < j)
    (within : j ≤ p.conf.max)
    : cycleId p start i ≠ cycleId p start j := by
  intro same
  have bound := sound.max.2
  have m := sound.m.2
  rw [cycleId, cycleId, cycle_pmod sound ready, cycle_pmod sound ready] at same
  have powers := Nat.xor_right_injective same
  have residues : (p.g : ZMod p.conf.n) ^ (p.seed2 + (Lcg.next p.a p.b p.conf.m)^[i] start)
      = (p.g : ZMod p.conf.n) ^ (p.seed2 + (Lcg.next p.a p.b p.conf.m)^[j] start) := by
    exact_mod_cast (ZMod.natCast_eq_natCast_iff' _ _ _).mpr powers
  have finite : IsOfFinOrder (p.g : ZMod p.conf.n) := by
    rw [← orderOf_pos_iff, ready.g.2]
    omega
  rw [finite.pow_eq_pow_iff_modEq, ready.g.2] at residues
  have exponents := Nat.ModEq.add_left_cancel' _ residues
  have hi := iterate_lt ready i
  have hj := iterate_lt ready j
  exact Lcg.iterate_ne ready.full before (by omega) start
    (exponents.eq_of_lt_of_lt (by omega) (by omega))

end

end BSDLibC.Randomid
