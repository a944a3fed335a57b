import Mathlib.Algebra.Order.Ring.Nat
import Mathlib.Tactic.Common
import Mathlib.Tactic.Ring

/-! Numbers as windows of an array of digits, the first digit the highest, and the estimate of one
digit of a quotient from the first digits of both numbers.
-/

namespace BSDLibC.Digits

/-- The number whose `len` digits start at `lo`. -/
def windowValue (B : Nat) (a : Nat → Nat) (lo : Nat) : Nat → Nat
  | 0 => 0
  | len + 1 => windowValue B a lo len * B + a (lo + len)

variable {B lo len : Nat} {a b : Nat → Nat}

theorem windowValue_congr (same : ∀ i < len, a (lo + i) = b (lo + i))
    : windowValue B a lo len = windowValue B b lo len := by
  induction len with
  | zero => rfl
  | succ len ih =>
      rw [windowValue, windowValue, ih (fun i inside => same i (by omega)), same len (by omega)]

theorem windowValue_lt (small : ∀ i < len, a (lo + i) < B) : windowValue B a lo len < B ^ len := by
  induction len with
  | zero => exact Nat.one_pos
  | succ len ih =>
      have high := ih (fun i inside => small i (by omega))
      have low := small len (by omega)
      calc
        windowValue B a lo len * B + a (lo + len) < windowValue B a lo len * B + B := by omega
        _ = (windowValue B a lo len + 1) * B := by ring
        _ ≤ B ^ len * B := Nat.mul_le_mul_right B high
        _ = B ^ (len + 1) := (Nat.pow_succ ..).symm

theorem windowValue_append (B : Nat) (a : Nat → Nat) (lo x y : Nat)
    : windowValue B a lo (x + y) = windowValue B a lo x * B ^ y + windowValue B a (lo + x) y := by
  induction y with
  | zero => simp [windowValue]
  | succ y ih =>
      rw [← Nat.add_assoc, windowValue, ih, windowValue, Nat.pow_succ, Nat.add_assoc lo]
      ring

/-- The first digit apart. -/
theorem windowValue_cons (B : Nat) (a : Nat → Nat) (lo len : Nat)
    : windowValue B a lo (len + 1) = a lo * B ^ len + windowValue B a (lo + 1) len := by
  rw [Nat.add_comm len 1, windowValue_append]
  simp [windowValue]

theorem windowValue_zero (none : ∀ i < len, a (lo + i) = 0) : windowValue B a lo len = 0 := by
  induction len with
  | zero => rfl
  | succ len ih =>
      rw [windowValue, ih (fun i inside => none i (by omega)), none len (by omega)]
      omega

/-- A digit estimated from the first digits of both numbers, the same number of which follow in
`P`, is the digit of the quotient or one more.
-/
theorem estimate_near {B P top vtop W V r s q : Nat} (dividend : W = top * P + r) (hr : r < P)
    (divisor : V = vtop * P + s) (hs : s < P) (leading : B ≤ vtop) (small : q < B)
    (enough : q * vtop ≤ top) (most : q + 1 = B ∨ top < (q + 1) * vtop) (bound : W < V * B)
    : q * V < W + V ∧ W < (q + 1) * V := by
  constructor
  · have rest : q * s < V := by
      calc
        q * s ≤ B * s := Nat.mul_le_mul_right s small.le
        _ < B * P := Nat.mul_lt_mul_of_pos_left hs (by omega)
        _ ≤ vtop * P := Nat.mul_le_mul_right P leading
        _ ≤ V := by omega
    calc
      q * V = q * vtop * P + q * s := by rw [divisor]; ring
      _ ≤ top * P + q * s := Nat.add_le_add_right (Nat.mul_le_mul_right P enough) _
      _ < W + V := by omega
  · rcases most with full | above
    · rwa [full, Nat.mul_comm]
    · calc
        W < (top + 1) * P := by rw [dividend, Nat.add_mul]; omega
        _ ≤ (q + 1) * vtop * P := Nat.mul_le_mul_right P above
        _ ≤ (q + 1) * vtop * P + (q + 1) * s := Nat.le_add_right _ _
        _ = (q + 1) * V := by rw [divisor]; ring

end BSDLibC.Digits
