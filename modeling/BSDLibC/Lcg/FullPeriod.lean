import Mathlib.Algebra.Order.Ring.Nat
import Mathlib.NumberTheory.Multiplicity
import Mathlib.Data.Nat.Factorization.Basic

/-! Linear congruential generators. When every prime of the modulus divides `a - 1`, also 4
if it divides the modulus, and the increment is coprime to the modulus, the generator visits
as many values as the modulus has before it repeats one.
-/

namespace BSDLibC.Lcg

/-- One step of the generator. -/
def next (a b m x : Nat) : Nat := (a * x + b) % m

/-- The parameters of a generator of maximal period. -/
structure FullPeriod (a b m : Nat) : Prop where
  multiplier : 1 ≤ a
  primes : ∀ p, p.Prime → p ∣ m → p ∣ a - 1
  four : 4 ∣ m → 4 ∣ a - 1
  increment : Nat.Coprime b m

section

variable {a b m : Nat}

theorem next_lt (positive : 0 < m) (x : Nat) : next a b m x < m := Nat.mod_lt _ positive

/-- The sum of the first `d` powers of the multiplier. -/
def powers (a d : Nat) : Nat := ∑ i ∈ Finset.range d, a ^ i

theorem powers_succ (a d : Nat) : powers a (d + 1) = a * powers a d + 1 := by
  simp only [powers, Finset.sum_range_succ', Finset.mul_sum, pow_succ', pow_zero]

theorem powers_mul_sub_one (a d : Nat)
    : ((powers a d : Nat) : Int) * ((a : Int) - 1) = (a : Int) ^ d - 1 := by
  simp only [powers, Nat.cast_sum, Nat.cast_pow]
  exact geom_sum_mul (a : Int) d

/-- The generator in closed form. -/
theorem iterate_modEq (d x : Nat)
    : (next a b m)^[d] x ≡ a ^ d * x + b * powers a d [MOD m] := by
  induction d with
  | zero => simp [powers, Nat.ModEq.refl]
  | succ d ih =>
      rw [Function.iterate_succ_apply', powers_succ]
      calc next a b m ((next a b m)^[d] x)
          ≡ a * (next a b m)^[d] x + b [MOD m] := Nat.mod_modEq _ _
        _ ≡ a * (a ^ d * x + b * powers a d) + b [MOD m] := (ih.mul_left a).add_right b
        _ = a ^ (d + 1) * x + b * (a * powers a d + 1) := by ring

/-- A prime whose square or fourth part allows lifting divides the sum of powers exactly as
often as it divides their number.
-/
theorem emultiplicity_powers (full : FullPeriod a b m) {p : Nat} (prime : p.Prime)
    (divides : p ∣ m) (lifts : p = 2 → 4 ∣ a - 1) (d : Nat)
    : emultiplicity (p : Int) (powers a d : Int) = emultiplicity (p : Int) (d : Int) := by
  rcases eq_or_ne a 1 with rfl | notOne
  · simp [powers]
  have cast : (((a - 1 : Nat)) : Int) = (a : Int) - 1 := by
    rw [Nat.cast_sub full.multiplier, Nat.cast_one]
  have primeInt : Prime (p : Int) := Nat.prime_iff_prime_int.mp prime
  have below : (p : Int) ∣ (a : Int) - 1 := by
    rw [← cast]
    exact_mod_cast full.primes p prime divides
  have notDvd : ¬ (p : Int) ∣ (a : Int) := by
    intro h
    have := dvd_sub h below
    rw [sub_sub_cancel] at this
    exact primeInt.not_dvd_one this
  have finite : emultiplicity (p : Int) ((a : Int) - 1) ≠ ⊤ := by
    rw [ne_eq, emultiplicity_eq_top, not_not, Int.finiteMultiplicity_iff]
    constructor
    · simpa using prime.ne_one
    · have := full.multiplier
      omega
  have product : emultiplicity (p : Int) ((powers a d : Int) * ((a : Int) - 1))
      = emultiplicity (p : Int) (powers a d : Int) + emultiplicity (p : Int) ((a : Int) - 1) :=
    emultiplicity_mul primeInt
  have lifted : emultiplicity (p : Int) ((a : Int) ^ d - 1)
      = emultiplicity (p : Int) ((a : Int) - 1) + emultiplicity (p : Int) (d : Int) := by
    rcases prime.eq_two_or_odd' with two | odd
    · subst two
      have four : (4 : Int) ∣ (a : Int) - 1 := by
        rw [← cast]
        exact_mod_cast lifts rfl
      simpa using Int.two_pow_sub_pow' (y := 1) d four (by simpa using notDvd)
    · have := Int.emultiplicity_pow_sub_pow prime odd (y := 1) (by simpa using below) notDvd d
      rw [one_pow] at this
      rw [this, Int.natCast_emultiplicity]
  rw [powers_mul_sub_one, lifted, add_comm] at product
  exact ((ENat.add_left_injective_of_ne_top finite) product).symm

/-- Modulo a divisor of `a - 1` every power counts for one. -/
theorem powers_modEq {p : Nat} (atLeast : 1 ≤ a) (divides : p ∣ a - 1) (d : Nat)
    : powers a d ≡ d [MOD p] := by
  have one : a ≡ 1 [MOD p] := ((Nat.modEq_iff_dvd' atLeast).mpr divides).symm
  induction d with
  | zero => rfl
  | succ d ih =>
      rw [powers_succ]
      simpa using (one.mul ih).add_right 1

/-- A prime power dividing the modulus divides the sum only when it divides the number of
its terms.
-/
theorem pow_dvd_of_dvd_powers (full : FullPeriod a b m) {p k d : Nat} (prime : p.Prime)
    (power : p ^ k ∣ m) (divides : p ^ k ∣ powers a d)
    : p ^ k ∣ d := by
  rcases Nat.eq_zero_or_pos k with rfl | positive
  · simp
  have factor : p ∣ m := (dvd_pow_self p positive.ne').trans power
  have lift (lifts : p = 2 → 4 ∣ a - 1) : p ^ k ∣ d := by
    have same := emultiplicity_powers full prime factor lifts d
    rw [Int.natCast_emultiplicity, Int.natCast_emultiplicity] at same
    rw [pow_dvd_iff_le_emultiplicity] at divides ⊢
    rwa [← same]
  rcases eq_or_ne p 2 with rfl | notTwo
  · rcases Nat.lt_or_ge k 2 with one | more
    · -- a single factor 2: the sum has the parity of the number of its terms
      obtain rfl : k = 1 := by omega
      rw [pow_one] at divides ⊢
      exact ((powers_modEq full.multiplier (full.primes 2 prime factor) d).dvd_iff
        dvd_rfl).mp divides
    · exact lift (fun _ => full.four ((pow_dvd_pow 2 more).trans power))
  · exact lift (fun two => absurd two notTwo)

/-- The modulus divides the sum of powers only when it divides their number. -/
theorem dvd_of_dvd_powers (full : FullPeriod a b m) {d : Nat} (divides : m ∣ powers a d)
    : m ∣ d := by
  rw [Nat.dvd_iff_prime_pow_dvd_dvd]
  intro p k prime power
  exact pow_dvd_of_dvd_powers full prime power (power.trans divides)

/-- No prime of the modulus divides the amount by which the generator moves a value. -/
theorem coprime_move (full : FullPeriod a b m) (x : Nat)
    : Nat.Coprime m ((a - 1) * x + b) := by
  refine Nat.Coprime.symm (Nat.coprime_of_dvd fun p prime moves divides => ?_)
  have incremented : p ∣ b :=
    (Nat.dvd_add_right ((full.primes p prime divides).mul_right x)).mp moves
  exact Nat.Prime.not_coprime_iff_dvd.mpr ⟨p, prime, incremented, divides⟩ full.increment

/-- A value comes back only after a multiple of the modulus. -/
theorem dvd_of_iterate_modEq (full : FullPeriod a b m) {d x : Nat}
    (back : (next a b m)^[d] x ≡ x [MOD m])
    : m ∣ d := by
  refine dvd_of_dvd_powers full ((coprime_move full x).dvd_of_dvd_mul_right ?_)
  have closed : a ^ d * x + b * powers a d = powers a d * ((a - 1) * x + b) + x := by
    have sum : powers a d * (a - 1) + 1 = a ^ d := by
      have := powers_mul_sub_one a d
      rw [← Nat.cast_one, ← Nat.cast_sub full.multiplier] at this
      have : ((powers a d * (a - 1) + 1 : Nat) : Int) = ((a ^ d : Nat) : Int) := by
        push_cast at this ⊢
        omega
      exact_mod_cast this
    rw [← sum]
    ring
  have moved := (iterate_modEq d x).symm.trans back
  rw [closed] at moved
  have := Nat.ModEq.add_right_cancel' x (moved.trans (by rw [Nat.zero_add] : 0 + x ≡ x [MOD m]).symm)
  exact (Nat.modEq_zero_iff_dvd).mp this

/-- Fewer steps than the modulus never bring the generator back. -/
theorem iterate_ne (full : FullPeriod a b m) {i j : Nat} (before : i < j) (within : j - i < m)
    (x : Nat)
    : (next a b m)^[i] x ≠ (next a b m)^[j] x := by
  intro same
  have split : j = (j - i) + i := by omega
  rw [split, Function.iterate_add_apply] at same
  have := Nat.le_of_dvd (by omega)
    (dvd_of_iterate_modEq full (Nat.ModEq.symm (congrArg (· % m) same)))
  omega

/-- From any value on, as many values as the modulus has are all values there are. -/
theorem perm_range (full : FullPeriod a b m) {x : Nat} (below : x < m)
    : ((List.range m).map fun i => (next a b m)^[i] x).Perm (List.range m) := by
  refine (List.subperm_of_subset ?_ ?_).perm_of_length_le (by simp)
  · refine List.Nodup.map_on (fun i hi j hj same => ?_) List.nodup_range
    rw [List.mem_range] at hi hj
    rcases lt_trichotomy i j with before | equal | after
    · exact absurd same (iterate_ne full before (by omega) x)
    · exact equal
    · exact absurd same.symm (iterate_ne full after (by omega) x)
  · intro y member
    obtain ⟨i, -, rfl⟩ := List.mem_map.mp member
    rw [List.mem_range]
    cases i with
    | zero => exact below
    | succ i =>
        rw [Function.iterate_succ_apply']
        exact next_lt (by omega) _

/-- Every block of the values below a multiple of its length has that length. -/
theorem countP_range_div (k : Nat) {n v : Nat} (below : v < n)
    : (List.range (k * n)).countP (fun y => y / k == v) = k := by
  rcases Nat.eq_zero_or_pos k with rfl | positive
  · simp
  induction n with
  | zero => omega
  | succ n ih =>
      rw [Nat.mul_succ, List.range_add, List.countP_append, List.countP_map]
      have block {y : Nat} (inside : y < k) : (k * n + y) / k = n := by
        rw [Nat.mul_add_div positive, Nat.div_eq_of_lt inside, Nat.add_zero]
      rcases Nat.lt_or_ge v n with less | last
      · rw [ih less, List.countP_eq_zero.mpr, Nat.add_zero]
        intro y member
        rw [Function.comp_apply, block (List.mem_range.mp member), beq_iff_eq]
        omega
      · rw [List.countP_eq_zero.mpr, Nat.zero_add, List.countP_eq_length.mpr, List.length_range]
        · intro y member
          rw [Function.comp_apply, block (List.mem_range.mp member), beq_iff_eq]
          omega
        · intro y member
          have := Nat.div_lt_of_lt_mul (List.mem_range.mp member)
          rw [beq_iff_eq]
          omega

end

end BSDLibC.Lcg
