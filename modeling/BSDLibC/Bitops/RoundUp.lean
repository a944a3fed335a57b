import Mathlib.Algebra.Order.Ring.Nat
import Mathlib.Data.Nat.Bitwise
import Mathlib.Tactic.Common

/-! Rounding to powers of two as in `sys/param.h`, over 64-bit words. -/

namespace BSDLibC.Bitops

/-- `roundup2`, on words. -/
def roundup2 (x m : Nat) : Nat :=
  ((((x + 2 ^ 64 - 1) % 2 ^ 64) ||| ((m + 2 ^ 64 - 1) % 2 ^ 64)) + 1) % 2 ^ 64

/-- Setting the low bits of a number goes to the end of its block. -/
theorem or_two_pow_sub_one (x k : Nat) : x ||| (2 ^ k - 1) = x / 2 ^ k * 2 ^ k + (2 ^ k - 1) := by
  have low : 2 ^ k - 1 < 2 ^ k := Nat.sub_lt (Nat.two_pow_pos k) Nat.one_pos
  rw [← Nat.shiftLeft_eq, Nat.shiftLeft_add_eq_or_of_lt low]
  refine Nat.eq_of_testBit_eq (fun i => ?_)
  simp only [Nat.testBit_or, Nat.testBit_two_pow_sub_one, Nat.testBit_shiftLeft,
    Nat.testBit_div_two_pow]
  by_cases inside : i < k
  · simp [inside]
  · have above : k ≤ i := by omega
    simp [inside, above]

/-- As long as nothing wraps, `roundup2` is the next multiple. -/
theorem roundup2_eq {x k : Nat} (positive : 1 ≤ x) (fits : x + (2 ^ k - 1) < 2 ^ 64)
    : roundup2 x (2 ^ k) = ((x - 1) / 2 ^ k + 1) * 2 ^ k := by
  have power := Nat.two_pow_pos k
  have step : (x - 1) / 2 ^ k * 2 ^ k ≤ x - 1 := Nat.div_mul_le_self _ _
  have first : (x + 2 ^ 64 - 1) % 2 ^ 64 = x - 1 := by omega
  have second : (2 ^ k + 2 ^ 64 - 1) % 2 ^ 64 = 2 ^ k - 1 := by omega
  rw [roundup2, first, second, or_two_pow_sub_one, Nat.mod_eq_of_lt (by omega), Nat.add_mul]
  omega

/-- What rounding up gives: a multiple, at most one block further. -/
theorem roundup2_spec {x k : Nat} (positive : 1 ≤ x) (fits : x + (2 ^ k - 1) < 2 ^ 64)
    : 2 ^ k ∣ roundup2 x (2 ^ k) ∧ x ≤ roundup2 x (2 ^ k)
      ∧ roundup2 x (2 ^ k) ≤ x + (2 ^ k - 1) := by
  have power := Nat.two_pow_pos k
  have lower := Nat.div_mul_le_self (x - 1) (2 ^ k)
  have upper := Nat.lt_div_mul_add (a := x - 1) power
  rw [roundup2_eq positive fits]
  refine ⟨Nat.dvd_mul_left _ _, ?_, ?_⟩
  · rw [Nat.add_mul]
    omega
  · rw [Nat.add_mul]
    omega

end BSDLibC.Bitops
