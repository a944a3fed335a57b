import BSDLibC.Lcg.FullPeriod

/-! The generators of `rand48.3`: 48-bit numbers in three words of 16 bits, the lowest first. The width
of `unsigned long` is a parameter, since the accumulator may lose its carries above 32 bits.
-/

namespace BSDLibC.Rand48

/-- `unsigned short [3]` -/
structure Words where
  w0 : BitVec 16
  w1 : BitVec 16
  w2 : BitVec 16
deriving DecidableEq, Repr

def Words.value (x : Words) : Nat := x.w0.toNat + 65536 * x.w1.toNat + 4294967296 * x.w2.toNat

def RAND48_SEED_0 : BitVec 16 := 0x330e

/-- `RAND48_SEED_0`, `RAND48_SEED_1`, `RAND48_SEED_2` -/
def RAND48_SEED : Words := ⟨RAND48_SEED_0, 0xabcd, 0x1234⟩

def RAND48_MULT : Words := ⟨0xe66d, 0xdeec, 0x0005⟩

def RAND48_ADD : BitVec 16 := 0x000b

/-- `__dorand48`, where `unsigned long` has `w` bits. -/
def dorand48 (w : Nat) (mult : Words) (add : BitVec 16) (xseed : Words) : Words :=
  let long (x : BitVec 16) : BitVec w := x.setWidth w
  let accu := long mult.w0 * long xseed.w0
  let accu := accu + long add
  let temp0 := accu.setWidth 16
  let accu := accu >>> 16
  let accu := accu + long mult.w0 * long xseed.w1
  let accu := accu + long mult.w1 * long xseed.w0
  let temp1 := accu.setWidth 16
  let accu := accu >>> 16
  let accu := accu + long mult.w0 * long xseed.w2
  let accu := accu + long mult.w1 * long xseed.w1
  let accu := accu + long mult.w2 * long xseed.w0
  ⟨temp0, temp1, accu.setWidth 16⟩

/-- An array of the caller, or the static one that `seed48` returns. -/
inductive Pointer
  | own (i : Nat)
  | sseed
deriving DecidableEq, Repr

/-- The variables of the generators, and the arrays of the caller. -/
structure State where
  seed : Words := RAND48_SEED
  mult : Words := RAND48_MULT
  add : BitVec 16 := RAND48_ADD
  sseed : Words := ⟨0, 0, 0⟩
  own : Nat → Words := fun _ => ⟨0, 0, 0⟩

def State.read (s : State) : Pointer → Words
  | .own i => s.own i
  | .sseed => s.sseed

def State.write (s : State) (x : Words) : Pointer → State
  | .own i => { s with own := Function.update s.own i x }
  | .sseed => { s with sseed := x }

inductive Call
  /-- The caller stores into an array. -/
  | fill (xseed : Pointer) (x : Words)
  | srand48 (seed : Int)
  | seed48 (xseed : Pointer)
  | lcong48 (x mult : Words) (add : BitVec 16)
  | lrand48
  | nrand48 (xseed : Pointer)
  | mrand48
  | jrand48 (xseed : Pointer)
deriving DecidableEq, Repr

def srand48 (s : State) (seed : Int) : State :=
  { s with
    seed := ⟨RAND48_SEED_0, BitVec.ofInt 16 seed, BitVec.ofInt 16 (seed / 65536)⟩
    mult := RAND48_MULT
    add := RAND48_ADD }

/-- The old seed is stored before the new one is read, also where both are the same array. -/
def seed48 (s : State) (xseed : Pointer) : State :=
  let s := { s with sseed := s.seed }
  { s with seed := s.read xseed, mult := RAND48_MULT, add := RAND48_ADD }

/-- `xseed[2] * 32768 + (xseed[1] >> 1)` -/
def high31 (xseed : Words) : Int := (xseed.w2.toNat * 32768 + xseed.w1.toNat >>> 1 : Nat)

/-- `(int16_t)xseed[2] * 65536 + xseed[1]` -/
def high32 (xseed : Words) : Int := xseed.w2.toInt * 65536 + xseed.w1.toNat

/-- What a call does, and its number if it returns one -/
def State.step (w : Nat) (s : State) : Call → State × Option Int
  | .fill xseed x => (s.write x xseed, none)
  | .srand48 seed => (Rand48.srand48 s seed, none)
  | .seed48 xseed => (Rand48.seed48 s xseed, none)
  | .lcong48 x mult add => ({ s with seed := x, mult := mult, add := add }, none)
  | .lrand48 =>
      let seed := dorand48 w s.mult s.add s.seed
      ({ s with seed := seed }, some (high31 seed))
  | .nrand48 xseed =>
      let x := dorand48 w s.mult s.add (s.read xseed)
      (s.write x xseed, some (high31 x))
  | .mrand48 =>
      let seed := dorand48 w s.mult s.add s.seed
      ({ s with seed := seed }, some (high32 seed))
  | .jrand48 xseed =>
      let x := dorand48 w s.mult s.add (s.read xseed)
      (s.write x xseed, some (high32 x))

def State.run (w : Nat) (s : State) : List Call → State × List (Option Int)
  | [] => (s, [])
  | call :: calls =>
      let (s, result) := s.step w call
      let (s, results) := s.run w calls
      (s, result :: results)

-----------------------------------------------------------------------------------------
-- One step of the generator
-----------------------------------------------------------------------------------------

theorem Words.value_lt (x : Words) : x.value < 2 ^ 48 := by
  have := x.w0.isLt
  have := x.w1.isLt
  have := x.w2.isLt
  rw [Words.value]
  omega

section

variable {w : Nat} (wide : 32 ≤ w)

include wide

theorem toNat_long (x : BitVec 16) : (x.setWidth w).toNat = x.toNat := by
  rw [BitVec.toNat_setWidth]
  exact Nat.mod_eq_of_lt (x.isLt.trans_le (Nat.pow_le_pow_right (by decide) (by omega)))

/-- A carry out of 32 bits does not come back. -/
theorem mod_width (n : Nat) : n % 2 ^ w % 4294967296 = n % 4294967296 :=
  Nat.mod_mod_of_dvd n (pow_dvd_pow 2 wide)

theorem dorand48_value (mult : Words) (add : BitVec 16) (xseed : Words)
    : (dorand48 w mult add xseed).value = Lcg.next mult.value add.toNat (2 ^ 48) xseed.value := by
  obtain ⟨m0, m1, m2⟩ := mult
  obtain ⟨x0, x1, x2⟩ := xseed
  have power : 4294967296 ≤ 2 ^ w := Nat.pow_le_pow_right (n := 2) (by decide) wide
  have low : m0.toNat * x0.toNat ≤ 65535 * 65535 :=
    Nat.mul_le_mul (Nat.le_pred_of_lt m0.isLt) (Nat.le_pred_of_lt x0.isLt)
  have increment := add.isLt
  have products
      : (m0.toNat + 65536 * m1.toNat + 4294967296 * m2.toNat)
          * (x0.toNat + 65536 * x1.toNat + 4294967296 * x2.toNat)
        = m0.toNat * x0.toNat + 65536 * (m0.toNat * x1.toNat + m1.toNat * x0.toNat)
          + 4294967296 * (m0.toNat * x2.toNat + m1.toNat * x1.toNat + m2.toNat * x0.toNat)
          + 281474976710656
            * (m1.toNat * x2.toNat + m2.toNat * x1.toNat + 65536 * (m2.toNat * x2.toNat)) := by
    ring
  simp only [dorand48, Words.value, Lcg.next, BitVec.toNat_setWidth, BitVec.toNat_add, BitVec.toNat_mul,
    BitVec.toNat_ushiftRight, toNat_long wide, Nat.shiftRight_eq_div_pow, Nat.reducePow, products,
    Nat.mod_add_mod, Nat.add_mod_mod]
  -- the first sum has no carry out of 32 bits
  rw [Nat.mod_eq_of_lt (by omega : m0.toNat * x0.toNat + add.toNat < 2 ^ w)]
  have second := mod_width wide ((m0.toNat * x0.toNat + add.toNat) / 65536 + m0.toNat * x1.toNat
    + m1.toNat * x0.toNat)
  generalize ((m0.toNat * x0.toNat + add.toNat) / 65536 + m0.toNat * x1.toNat
    + m1.toNat * x0.toNat) % 2 ^ w = middle at *
  have third := mod_width wide (middle / 65536 + m0.toNat * x2.toNat + m1.toNat * x1.toNat
    + m2.toNat * x0.toNat)
  omega

end

-----------------------------------------------------------------------------------------
-- Runs
-----------------------------------------------------------------------------------------

/-- A linear congruential generator modulo 2^48, and the numbers that it is kept apart from. -/
structure Machine where
  x : Nat
  a : Nat
  c : Nat
  sseed : Nat
  own : Nat → Nat

def Machine.read (m : Machine) : Pointer → Nat
  | .own i => m.own i
  | .sseed => m.sseed

def Machine.write (m : Machine) (x : Nat) : Pointer → Machine
  | .own i => { m with own := Function.update m.own i x }
  | .sseed => { m with sseed := x }

def Machine.next (m : Machine) (x : Nat) : Nat := Lcg.next m.a m.c (2 ^ 48) x

/-- A number of 48 bits, read with a sign -/
def signed (x : Nat) : Int := if x < 2 ^ 47 then x else x - 2 ^ 48

/-- The calls on numbers: the results are the high bits of the next number. -/
def Machine.step (m : Machine) : Call → Machine × Option Int
  | .fill xseed x => (m.write x.value xseed, none)
  | .srand48 seed =>
      ({ m with
          x := (seed % 2 ^ 32).toNat * 65536 + 0x330e
          a := 0x5deece66d
          c := 11 },
        none)
  | .seed48 xseed =>
      let m := { m with sseed := m.x }
      ({ m with x := m.read xseed, a := 0x5deece66d, c := 11 }, none)
  | .lcong48 x mult add => ({ m with x := x.value, a := mult.value, c := add.toNat }, none)
  | .lrand48 => ({ m with x := m.next m.x }, some (m.next m.x / 2 ^ 17 : Nat))
  | .nrand48 xseed =>
      (m.write (m.next (m.read xseed)) xseed, some (m.next (m.read xseed) / 2 ^ 17 : Nat))
  | .mrand48 => ({ m with x := m.next m.x }, some (signed (m.next m.x) / 2 ^ 16))
  | .jrand48 xseed =>
      (m.write (m.next (m.read xseed)) xseed, some (signed (m.next (m.read xseed)) / 2 ^ 16))

def Machine.run (m : Machine) : List Call → Machine × List (Option Int)
  | [] => (m, [])
  | call :: calls =>
      let (m, result) := m.step call
      let (m, results) := m.run calls
      (m, result :: results)

/-- The numbers that the words of a state stand for -/
def State.machine (s : State) : Machine where
  x := s.seed.value
  a := s.mult.value
  c := s.add.toNat
  sseed := s.sseed.value
  own i := (s.own i).value

section

variable (s : State)

theorem machine_read (xseed : Pointer) : s.machine.read xseed = (s.read xseed).value := by
  cases xseed <;> rfl

theorem machine_write (x : Words) (xseed : Pointer)
    : (s.write x xseed).machine = s.machine.write x.value xseed := by
  cases xseed with
  | sseed => rfl
  | own i =>
      rw [State.write, State.machine, Machine.write, State.machine, Machine.mk.injEq]
      refine ⟨rfl, rfl, rfl, rfl, funext fun j => ?_⟩
      simp only [Function.update_apply]
      split <;> rfl

theorem high31_eq (x : Words) : high31 x = (x.value / 2 ^ 17 : Nat) := by
  have := x.w0.isLt
  have := x.w1.isLt
  rw [high31, Words.value, Nat.shiftRight_eq_div_pow]
  omega

theorem high32_eq (x : Words) : high32 x = signed x.value / 2 ^ 16 := by
  have := x.w0.isLt
  have := x.w1.isLt
  have := x.w2.isLt
  rw [high32, signed, Words.value, BitVec.toInt_eq_toNat_cond]
  split_ifs <;> omega

theorem mult_value : RAND48_MULT.value = 0x5deece66d := by decide

theorem add_value : RAND48_ADD.toNat = 11 := by decide

theorem srand48_value (seed : Int)
    : (⟨RAND48_SEED_0, BitVec.ofInt 16 seed, BitVec.ofInt 16 (seed / 65536)⟩ : Words).value
      = (seed % 2 ^ 32).toNat * 65536 + 0x330e := by
  rw [Words.value, BitVec.toNat_ofInt, BitVec.toNat_ofInt, show RAND48_SEED_0.toNat = 0x330e from rfl]
  omega

variable {w : Nat} (wide : 32 ≤ w)

include wide

/-- One call does with the words what it does with the numbers. -/
theorem step_refines (call : Call)
    : ((s.step w call).1.machine, (s.step w call).2) = s.machine.step call := by
  have next (x : Words) : (dorand48 w s.mult s.add x).value = s.machine.next x.value :=
    dorand48_value wide s.mult s.add x
  cases call with
  | fill xseed x => exact Prod.ext (machine_write s x xseed) rfl
  | srand48 seed =>
      refine Prod.ext ?_ rfl
      simp only [State.step, srand48, State.machine, Machine.step, srand48_value, mult_value, add_value]
  | seed48 xseed =>
      refine Prod.ext ?_ rfl
      simp only [State.step, seed48, State.machine, Machine.step, mult_value, add_value]
      cases xseed <;> rfl
  | lcong48 x mult add => rfl
  | lrand48 =>
      rw [State.step, Machine.step, high31_eq, next]
      refine Prod.ext ?_ rfl
      simp only [State.machine, next]
  | nrand48 xseed => rw [State.step, Machine.step, high31_eq, machine_write, next, machine_read]
  | mrand48 =>
      rw [State.step, Machine.step, high32_eq, next]
      refine Prod.ext ?_ rfl
      simp only [State.machine, next]
  | jrand48 xseed => rw [State.step, Machine.step, high32_eq, machine_write, next, machine_read]

/-- A run on words is a run of the linear congruential generator, with the same results. -/
theorem run_refines (calls : List Call)
    : ((s.run w calls).1.machine, (s.run w calls).2) = s.machine.run calls := by
  induction calls generalizing s with
  | nil => rfl
  | cons call calls ih =>
      simp only [State.run, Machine.run, ← step_refines s wide call, ← ih]

end

/-- A call of `seed48` with the array that it returned leaves the seed. -/
theorem run_refines_seed48
    : (((({} : State).run 32 [.srand48 1, .seed48 (.own 0), .lrand48, .seed48 .sseed, .mrand48]).1.machine,
        (({} : State).run 32 [.srand48 1, .seed48 (.own 0), .lrand48, .seed48 .sseed, .mrand48]).2))
      = ({} : State).machine.run [.srand48 1, .seed48 (.own 0), .lrand48, .seed48 .sseed, .mrand48] :=
  run_refines {} (by decide) _

-----------------------------------------------------------------------------------------
-- Whole periods
-----------------------------------------------------------------------------------------

/-- The results of one call, made again and again, are the same part of the numbers one after the
other.
-/
theorem results_replicate {call : Call} {part : Nat → Option Int}
    (generates : ∀ m : Machine, m.step call = ({ m with x := m.next m.x }, part (m.next m.x))) (n : Nat)
    (m : Machine)
    : (m.run (List.replicate n call)).2 = (List.range n).map fun i => part (m.next^[i] (m.next m.x)) := by
  induction n generalizing m with
  | zero => rfl
  | succ n ih =>
      rw [List.replicate_succ, Machine.run, generates, List.range_succ_eq_map, List.map_cons, List.map_map]
      exact congrArg (_ :: ·) (ih { m with x := m.next m.x })

section

variable (s : State) {w : Nat} (wide : 32 ≤ w) (multiplier : s.mult.w0.toNat % 4 = 1)
  (increment : s.add.toNat % 2 = 1)

include multiplier increment

theorem fullPeriod : Lcg.FullPeriod s.mult.value s.add.toNat (2 ^ 48) := by
  have four : 4 ∣ s.mult.value - 1 := by
    rw [Words.value]
    omega
  refine ⟨?_, fun p prime divides => ?_, fun _ => four, ?_⟩
  · rw [Words.value]
    omega
  · rw [(Nat.prime_dvd_prime_iff_eq prime Nat.prime_two).mp (prime.dvd_of_dvd_pow divides)]
    exact Nat.dvd_trans (by decide) four
  · exact Nat.Coprime.pow_right 48 (Nat.coprime_two_right.mpr (Nat.odd_iff.mpr increment))

include wide

/-- In a whole period a part of the numbers takes each value as often as it has numbers. -/
theorem count_period {call : Call} (part : Nat → Option Int)
    (generates : ∀ m : Machine, m.step call = ({ m with x := m.next m.x }, part (m.next m.x)))
    {period k n v : Nat} {y : Option Int} (whole : period = 2 ^ 48) (size : k * n = period) (below : v < n)
    (value : ∀ x < 2 ^ 48, part x = y ↔ x / k = v)
    : (s.run w (List.replicate period call)).2.count y = k := by
  have results := (Prod.ext_iff.mp (run_refines s wide (List.replicate period call))).2
  rw [results_replicate generates] at results
  have full := fullPeriod s multiplier increment
  have next (x : Nat) : s.machine.next x = Lcg.next s.mult.value s.add.toNat (2 ^ 48) x := rfl
  rw [← whole] at full value
  simp only [funext next, ← whole] at results
  have numbers := Lcg.perm_range full
    (Lcg.next_lt (a := s.mult.value) (b := s.add.toNat) (by omega : 0 < period) s.machine.x)
  rw [results, ← Lcg.countP_range_div k below, size, ← numbers.countP_eq, List.count, List.countP_map,
    List.countP_map]
  refine List.countP_congr fun i member => ?_
  have number := List.mem_range.mp (numbers.subset (List.mem_map_of_mem member))
  rw [Function.comp_apply, Function.comp_apply, beq_iff_eq, beq_iff_eq]
  exact value _ number

/-- With a multiplier that is 1 modulo 4 and an odd increment, as the ones of `srand48`, a whole period
of `lrand48` has each result 2^17 times and one of `mrand48` each result 2^16 times.
-/
theorem uniform_results
    : (∀ v : Nat, v < 2 ^ 31 → (s.run w (List.replicate (2 ^ 48) .lrand48)).2.count (some (v : Int)) = 2 ^ 17)
      ∧ ∀ v : Int, -2 ^ 31 ≤ v → v < 2 ^ 31
        → (s.run w (List.replicate (2 ^ 48) .mrand48)).2.count (some v) = 2 ^ 16 := by
  refine ⟨fun v below => ?_, fun v low high => ?_⟩
  · refine count_period s wide multiplier increment (fun x => some (x / 2 ^ 17 : Nat)) (fun _ => rfl) rfl
      (by decide) below fun x _ => ?_
    rw [Option.some_inj, Nat.cast_inj]
  · refine count_period s wide multiplier increment (fun x => some (signed x / 2 ^ 16)) (fun _ => rfl) rfl
      (by decide) (by omega : (v % 2 ^ 32).toNat < 2 ^ 32) fun x inside => ?_
    rw [Option.some_inj, signed]
    split <;> omega

end

theorem uniform_results_srand48
    : (∀ v : Nat, v < 2 ^ 31 →
        ((srand48 {} 42).run 64 (List.replicate (2 ^ 48) .lrand48)).2.count (some (v : Int)) = 2 ^ 17)
      ∧ ∀ v : Int, -2 ^ 31 ≤ v → v < 2 ^ 31
        → ((srand48 {} 42).run 64 (List.replicate (2 ^ 48) .mrand48)).2.count (some v) = 2 ^ 16 :=
  uniform_results _ (by decide) (by decide) (by decide)

end BSDLibC.Rand48
