import Mathlib.Data.Nat.Bitwise
import Mathlib.Tactic.Ring
import Mathlib.Tactic.Linarith

/-! Division by an invariant divisor as in `sys/bitops.h`: the divisor is prepared once, then
every quotient is a multiplication and two shifts. All values are machine words, so each
operation is reduced to its width.
-/

namespace BSDLibC.Bitops

/-- One test of `fls32`: when the bits under `mask` are clear, shift them out. -/
def fls32.step (mask width : Nat) (state : Nat × Nat) : Nat × Nat :=
  if state.1 &&& mask = 0 then
    ((state.1 <<< width) % 2 ^ 32, state.2 - width)
  else
    state

/-- `fls32`: the number of the highest set bit, counted from one. -/
def fls32 (n : Nat) : Nat :=
  if n = 0 then
    0
  else
    let state := fls32.step 0xFFFF0000 16 (n, 32)
    let state := fls32.step 0xFF000000 8 state
    let state := fls32.step 0xF0000000 4 state
    let state := fls32.step 0xC0000000 2 state
    let state := fls32.step 0x80000000 1 state
    state.2

/-- What `fast_divide32_prepare` stores for a divisor. -/
structure Magic where
  m : Nat
  s1 : Nat
  s2 : Nat

/-- The local `l` of `fast_divide32_prepare`, the binary logarithm rounded up. -/
def exponent (div : Nat) : Nat := fls32 ((div + 2 ^ 32 - 1) % 2 ^ 32)

/-- `fast_divide32_prepare` -/
def fastDivide32Prepare (div : Nat) : Magic :=
  let l := exponent div
  let mt := (0x100000000 * (((1 <<< l) % 2 ^ 64 + 2 ^ 64 - div) % 2 ^ 64)) % 2 ^ 64
  { m := (mt / div + 1) % 2 ^ 32
    s1 := if l > 1 then 1 else l
    s2 := if l = 0 then 0 else l - 1 }

/-- `fast_divide32`, which does not use the divisor itself. -/
def fastDivide32 (v : Nat) (magic : Magic) : Nat :=
  let t := ((v * magic.m) >>> 32) % 2 ^ 32
  ((t + (((v + 2 ^ 32 - t) % 2 ^ 32) >>> magic.s1)) % 2 ^ 32) >>> magic.s2

/-- `fast_remainder32` -/
def fastRemainder32 (v div : Nat) (magic : Magic) : Nat :=
  (v + 2 ^ 32 - (div * fastDivide32 v magic) % 2 ^ 32) % 2 ^ 32

/-- The bits from `k` on are clear exactly in the numbers below `2 ^ k`. -/
theorem and_high_mask_eq_zero {n k : Nat} (small : n < 2 ^ 32) (fits : k ≤ 32)
    : n &&& (2 ^ 32 - 2 ^ k) = 0 ↔ n < 2 ^ k := by
  have mask : 2 ^ 32 - 2 ^ k = 2 ^ k * (2 ^ (32 - k) - 1) := by
    rw [Nat.mul_sub, ← pow_add, Nat.add_sub_cancel' fits, Nat.mul_one]
  have bit (i : Nat) : (n &&& (2 ^ 32 - 2 ^ k)).testBit i
      = (n.testBit i && (decide (k ≤ i) && decide (i - k < 32 - k))) := by
    rw [Nat.testBit_and, mask, Nat.testBit_two_pow_mul, Nat.testBit_two_pow_sub_one]
  constructor
  · intro clear
    refine Nat.lt_pow_two_of_testBit n (fun i high => ?_)
    by_cases inside : i < 32
    · have := bit i
      rw [clear, Nat.zero_testBit] at this
      simpa [high, show i - k < 32 - k by omega] using this.symm
    · exact Nat.testBit_lt_two_pow (lt_of_lt_of_le small (Nat.pow_le_pow_right (by decide) (by omega)))
  · intro low
    refine Nat.eq_of_testBit_eq (fun i => ?_)
    rw [bit, Nat.zero_testBit]
    by_cases high : k ≤ i
    · have clear := Nat.testBit_lt_two_pow
        (lt_of_lt_of_le low (Nat.pow_le_pow_right (by decide : 0 < 2) high))
      simp [clear]
    · simp [high]

/-- Between the tests, the word is the input shifted left by what `v` has lost. -/
structure fls32.Shifted (n low : Nat) (state : Nat × Nat) : Prop where
  word : state.1 = n * 2 ^ (32 - state.2)
  bound : state.2 ≤ 32
  small : state.1 < 2 ^ 32
  large : 2 ^ low ≤ state.1

theorem fls32.Shifted.step {n : Nat} {state : Nat × Nat} (width : Nat) (positive : 0 < n)
    (fits : 2 * width ≤ 32) (h : fls32.Shifted n (32 - 2 * width) state)
    : fls32.Shifted n (32 - width) (fls32.step (2 ^ 32 - 2 ^ (32 - width)) width state) := by
  obtain ⟨word, bound, small, large⟩ := h
  unfold fls32.step
  split
  case isFalse busy =>
    refine ⟨word, bound, small, ?_⟩
    rwa [and_high_mask_eq_zero small (by omega), not_lt] at busy
  case isTrue clear =>
    rw [and_high_mask_eq_zero small (by omega)] at clear
    -- The input is at least one, so the count is still above `width`.
    have room : width < state.2 := by
      have below : 2 ^ (32 - state.2) < 2 ^ (32 - width) :=
        lt_of_le_of_lt (by rw [word]; exact Nat.le_mul_of_pos_left _ positive) clear
      have := (Nat.pow_lt_pow_iff_right (by decide : 1 < 2)).mp below
      omega
    have shifted : state.1 * 2 ^ width < 2 ^ 32 := by
      calc state.1 * 2 ^ width < 2 ^ (32 - width) * 2 ^ width :=
            Nat.mul_lt_mul_of_pos_right clear (by positivity)
        _ = 2 ^ 32 := by rw [← pow_add]; congr 1; omega
    have kept : (state.1 <<< width) % 2 ^ 32 = state.1 * 2 ^ width := by
      rw [Nat.shiftLeft_eq, Nat.mod_eq_of_lt shifted]
    simp only [kept]
    refine ⟨?_, by simp only; omega, shifted, ?_⟩
    · have exponent : 32 - (state.2 - width) = 32 - state.2 + width := by omega
      rw [exponent, pow_add, ← mul_assoc, ← word]
    · calc 2 ^ (32 - width) = 2 ^ (32 - 2 * width) * 2 ^ width := by
            rw [← pow_add]; congr 1; omega
        _ ≤ state.1 * 2 ^ width := Nat.mul_le_mul_right _ large

/-- The count of `fls32` brackets its argument between powers of two. -/
theorem fls32_spec {n : Nat} (positive : 0 < n) (small : n < 2 ^ 32)
    : 0 < fls32 n ∧ fls32 n ≤ 32 ∧ 2 ^ (fls32 n - 1) ≤ n ∧ n < 2 ^ fls32 n := by
  have start : fls32.Shifted n (32 - 2 * 16) (n, 32) := ⟨by simp, by simp, small, positive⟩
  obtain ⟨word, bound, small', large⟩ := start
    |>.step 16 positive (by decide) |>.step 8 positive (by decide)
    |>.step 4 positive (by decide) |>.step 2 positive (by decide)
    |>.step 1 positive (by decide)
  have count : fls32 n = (fls32.step (2 ^ 32 - 2 ^ (32 - 1)) 1
      (fls32.step (2 ^ 32 - 2 ^ (32 - 2)) 2 (fls32.step (2 ^ 32 - 2 ^ (32 - 4)) 4
        (fls32.step (2 ^ 32 - 2 ^ (32 - 8)) 8
          (fls32.step (2 ^ 32 - 2 ^ (32 - 16)) 16 (n, 32)))))).2 := by
    rw [fls32, if_neg (by omega)]
    norm_num
  rw [← count] at word bound
  rw [word] at small' large
  generalize fls32 n = v at *
  have upper : n < 2 ^ v := by
    have split : 2 ^ 32 = 2 ^ v * 2 ^ (32 - v) := by rw [← pow_add]; congr 1; omega
    rw [split] at small'
    exact Nat.lt_of_mul_lt_mul_right small'
  have nonzero : 0 < v := by
    rcases Nat.eq_zero_or_pos v with rfl | h
    · simp at upper
      omega
    · exact h
  refine ⟨nonzero, bound, ?_, upper⟩
  have split : 2 ^ 31 = 2 ^ (v - 1) * 2 ^ (32 - v) := by rw [← pow_add]; congr 1; omega
  have large' : 2 ^ (v - 1) * 2 ^ (32 - v) ≤ n * 2 ^ (32 - v) := split ▸ large
  exact Nat.le_of_mul_le_mul_right large' (by positivity)

theorem exponent_spec {div : Nat} (positive : 0 < div) (small : div < 2 ^ 32)
    : exponent div ≤ 32
      ∧ div ≤ 2 ^ exponent div
      ∧ 2 ^ exponent div < 2 * div
      ∧ (exponent div = 0 ↔ div = 1) := by
  have pred : (div + 2 ^ 32 - 1) % 2 ^ 32 = div - 1 := by omega
  rw [exponent, pred]
  rcases Nat.eq_or_lt_of_le positive with one | more
  · obtain rfl : div = 1 := one.symm
    simp [fls32]
  · obtain ⟨nonzero, bound, lower, upper⟩ := fls32_spec (show 0 < div - 1 by omega) (by omega)
    generalize fls32 (div - 1) = l at *
    have double : 2 ^ l = 2 * 2 ^ (l - 1) := by
      rw [← pow_succ', Nat.sub_add_cancel nonzero]
    exact ⟨bound, by omega, by omega, by omega⟩

/-- What `fast_divide32_prepare` computes, step by step, without anything lost: the shift count is
one of a 64-bit word, the subtraction does not go below zero, and neither the product nor the
multiplier is cut off.
-/
structure PreparesExactly (div : Nat) : Prop where
  shift : exponent div ≤ 32
  least : 2 ^ exponent div < 2 * div
  difference : div ≤ 2 ^ exponent div
  product : 2 ^ 32 * (2 ^ exponent div - div) < 2 ^ 64
  multiplier : 2 ^ 32 * (2 ^ exponent div - div) / div + 1 < 2 ^ 32
  m : (fastDivide32Prepare div).m = 2 ^ 32 * (2 ^ exponent div - div) / div + 1
  s1 : (fastDivide32Prepare div).s1 = min (exponent div) 1
  s2 : (fastDivide32Prepare div).s2 = exponent div - 1

theorem preparesExactly {div : Nat} (positive : 0 < div) (small : div < 2 ^ 32)
    : PreparesExactly div := by
  obtain ⟨bound, above, below, -⟩ := exponent_spec positive small
  have large : 2 ^ exponent div ≤ 2 ^ 32 := Nat.pow_le_pow_right (by decide) bound
  have excess : ((1 <<< exponent div) % 2 ^ 64 + 2 ^ 64 - div) % 2 ^ 64
      = 2 ^ exponent div - div := by
    rw [Nat.shiftLeft_eq, one_mul]
    omega
  have product : 2 ^ 32 * (2 ^ exponent div - div) < 2 ^ 64 := by omega
  have quotient : 2 ^ 32 * (2 ^ exponent div - div) / div + 1 < 2 ^ 32 := by
    have : 2 ^ 32 * (2 ^ exponent div - div) / div < 2 ^ 32 - 1 := by
      rw [Nat.div_lt_iff_lt_mul positive]
      omega
    omega
  refine ⟨bound, below, above, product, quotient, ?_, ?_, ?_⟩
  · simp only [fastDivide32Prepare, excess]
    rw [show 0x100000000 = 2 ^ 32 from rfl, Nat.mod_eq_of_lt product]
    exact Nat.mod_eq_of_lt quotient
  · simp only [fastDivide32Prepare]
    split <;> omega
  · simp only [fastDivide32Prepare]
    split <;> omega

/-- The multiplier is the rounded reciprocal without its leading bit, and fits a word. -/
theorem fastDivide32Prepare_m {div : Nat} (positive : 0 < div) (small : div < 2 ^ 32)
    : (fastDivide32Prepare div).m + 2 ^ 32 = 2 ^ 32 * 2 ^ exponent div / div + 1
      ∧ (fastDivide32Prepare div).m < 2 ^ 32 := by
  have prepared := preparesExactly positive small
  rw [prepared.m]
  refine ⟨?_, prepared.multiplier⟩
  have whole : 2 ^ 32 * 2 ^ exponent div
      = 2 ^ 32 * (2 ^ exponent div - div) + 2 ^ 32 * div := by
    rw [← Nat.mul_add, Nat.sub_add_cancel prepared.difference]
  rw [whole, Nat.add_mul_div_right _ _ positive]
  omega

/-- Multiplying by the rounded reciprocal loses too little to change the quotient. -/
theorem mul_reciprocal_div {v div N : Nat} (positive : 0 < div) (room : div * v < N)
    : v * (N / div + 1) / N = v / div := by
  have some : 0 < N := by omega
  have lower : div * (N / div) ≤ N := Nat.mul_div_le N div
  have upper : N < div * (N / div + 1) := Nat.lt_mul_div_succ N positive
  have quotient : v / div * div ≤ v := Nat.div_mul_le_self v div
  have next : v + 1 ≤ div * (v / div + 1) := Nat.lt_mul_div_succ v positive
  refine Nat.div_eq_of_lt_le ?_ ?_
  · calc v / div * N ≤ v / div * (div * (N / div + 1)) := Nat.mul_le_mul_left _ upper.le
      _ = v / div * div * (N / div + 1) := by ring
      _ ≤ v * (N / div + 1) := Nat.mul_le_mul_right _ quotient
  · refine Nat.lt_of_mul_lt_mul_left (a := div) ?_
    calc div * (v * (N / div + 1)) = v * (div * (N / div)) + div * v := by ring
      _ ≤ v * N + div * v := Nat.add_le_add_right (Nat.mul_le_mul_left v lower) _
      _ < v * N + N := Nat.add_lt_add_left room _
      _ = (v + 1) * N := by ring
      _ ≤ div * (v / div + 1) * N := Nat.mul_le_mul_right N next
      _ = div * ((v / div + 1) * N) := by ring

/-- `fast_divide32` after `fast_divide32_prepare` is division. -/
theorem fastDivide32_eq {v div : Nat} (positive : 0 < div) (small : div < 2 ^ 32)
    (fits : v < 2 ^ 32)
    : fastDivide32 v (fastDivide32Prepare div) = v / div := by
  obtain ⟨bound, above, below, unit⟩ := exponent_spec positive small
  obtain ⟨reciprocal, word⟩ := fastDivide32Prepare_m positive small
  have s1 : (fastDivide32Prepare div).s1 = if exponent div > 1 then 1 else exponent div := by
    simp only [fastDivide32Prepare]
  have s2 : (fastDivide32Prepare div).s2 = if exponent div = 0 then 0 else exponent div - 1 := by
    simp only [fastDivide32Prepare]
  set m := (fastDivide32Prepare div).m
  set t := v * m / 2 ^ 32 with ht
  have high : ((v * m) >>> 32) % 2 ^ 32 = t ∧ t ≤ v := by
    have le : t ≤ v := Nat.div_le_of_le_mul (by
      rw [Nat.mul_comm (2 ^ 32)]
      exact Nat.mul_le_mul_left v word.le)
    rw [Nat.shiftRight_eq_div_pow, ← ht]
    exact ⟨Nat.mod_eq_of_lt (by omega), le⟩
  have sum : t + v = v * (m + 2 ^ 32) / 2 ^ 32 := by
    rw [Nat.mul_add, Nat.add_mul_div_right _ _ (by decide)]
  have quotient : (t + v) / 2 ^ exponent div = v / div := by
    rw [sum, Nat.div_div_eq_div_mul, reciprocal]
    refine mul_reciprocal_div positive ?_
    calc div * v ≤ 2 ^ exponent div * v := Nat.mul_le_mul_right v above
      _ < 2 ^ exponent div * 2 ^ 32 := Nat.mul_lt_mul_of_pos_left fits (by positivity)
      _ = 2 ^ 32 * 2 ^ exponent div := Nat.mul_comm _ _
  have unfolded : fastDivide32 v (fastDivide32Prepare div)
      = ((t + (((v + 2 ^ 32 - t) % 2 ^ 32) >>> (fastDivide32Prepare div).s1)) % 2 ^ 32)
        >>> (fastDivide32Prepare div).s2 := by
    rw [← high.1]
    rfl
  rw [← quotient, unfolded]
  rcases Nat.eq_zero_or_pos (exponent div) with zero | more
  · -- The divisor one: the multiplier is one and nothing is shifted.
    have one := unit.mp zero
    have tiny : t = 0 := by
      rw [zero, one, pow_zero, mul_one, Nat.div_one] at reciprocal
      rw [ht, show m = 1 by omega, mul_one]
      exact Nat.div_eq_of_lt fits
    rw [s1, s2, zero, tiny]
    simp
    omega
  · have shift : (fastDivide32Prepare div).s1 = 1 := by
      rw [s1]
      split <;> omega
    have half : (t + (v + 2 ^ 32 - t) % 2 ^ 32 / 2 ^ 1) % 2 ^ 32 = (t + v) / 2 := by omega
    rw [shift, s2, if_neg (by omega), Nat.shiftRight_eq_div_pow, Nat.shiftRight_eq_div_pow, half,
      Nat.div_div_eq_div_mul, ← pow_succ', Nat.sub_add_cancel more]

/-- `fast_remainder32` after `fast_divide32_prepare` is the remainder. -/
theorem fastRemainder32_eq {v div : Nat} (positive : 0 < div) (small : div < 2 ^ 32)
    (fits : v < 2 ^ 32)
    : fastRemainder32 v div (fastDivide32Prepare div) = v % div := by
  have split := Nat.div_add_mod v div
  have bound := Nat.mod_lt v positive
  rw [fastRemainder32, fastDivide32_eq positive small fits]
  generalize div * (v / div) = q at *
  omega

/-- Division by multiplication is exact for every divisor and every dividend of 32 bits, and
nothing is lost while the divisor is prepared.
-/
theorem fastDivide32_exact {div : Nat} (positive : 0 < div) (small : div < 2 ^ 32)
    : PreparesExactly div
      ∧ ∀ v < 2 ^ 32,
          fastDivide32 v (fastDivide32Prepare div) = v / div
          ∧ fastRemainder32 v div (fastDivide32Prepare div) = v % div :=
  ⟨preparesExactly positive small, fun _ fits =>
    ⟨fastDivide32_eq positive small fits, fastRemainder32_eq positive small fits⟩⟩

/-- The largest divisor, for which the shift is by a whole word. -/
theorem fastDivide32_exact_largest
    : PreparesExactly 0xffffffff
      ∧ ∀ v < 2 ^ 32,
          fastDivide32 v (fastDivide32Prepare 0xffffffff) = v / 0xffffffff
          ∧ fastRemainder32 v 0xffffffff (fastDivide32Prepare 0xffffffff) = v % 0xffffffff :=
  fastDivide32_exact (by decide) (by decide)

end BSDLibC.Bitops
