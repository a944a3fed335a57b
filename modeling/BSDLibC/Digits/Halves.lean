import Mathlib.Algebra.Order.Ring.Nat
import Mathlib.Data.BitVec
import Mathlib.Tactic.Ring

/-! Double words by their halves, as elements of the ring of double words. -/

namespace BSDLibC.Digits

variable {w : Nat}

/-- The double word with a word as its upper half and zeros below. -/
def upper (x : BitVec w) : BitVec (w + w) := x ++ 0#w

/-- The double word with the value of a word -/
def lower (x : BitVec w) : BitVec (w + w) := x.setWidth (w + w)

def highHalf (a : BitVec (w + w)) : BitVec w := a.extractLsb' w w

def lowHalf (a : BitVec (w + w)) : BitVec w := a.setWidth w

theorem toNat_lower (x : BitVec w) : (lower x).toNat = x.toNat := by
  rw [lower, BitVec.toNat_setWidth, Nat.mod_eq_of_lt]
  exact x.isLt.trans_le (Nat.pow_le_pow_right (by decide) (Nat.le_add_left w w))

theorem toNat_upper (x : BitVec w) : (upper x).toNat = x.toNat * 2 ^ w := by
  rw [upper, BitVec.toNat_append, BitVec.toNat_ofNat, Nat.zero_mod, Nat.or_zero, Nat.shiftLeft_eq]

theorem append_eq (x y : BitVec w) : x ++ y = upper x + lower y := by
  refine BitVec.eq_of_toNat_eq ?_
  have := (x ++ y).isLt
  have whole : (x ++ y).toNat = x.toNat * 2 ^ w + y.toNat := by
    rw [BitVec.toNat_append, ← Nat.shiftLeft_add_eq_or_of_lt y.isLt, Nat.shiftLeft_eq]
  rw [BitVec.toNat_add, toNat_upper, toNat_lower, ← whole, Nat.mod_eq_of_lt this]

theorem highHalf_append_lowHalf (a : BitVec (w + w)) : highHalf a ++ lowHalf a = a := by
  refine BitVec.eq_of_getLsbD_eq fun i inside => ?_
  rw [BitVec.getLsbD_append, highHalf, lowHalf]
  split
  case isTrue low => rw [BitVec.getLsbD_setWidth, decide_eq_true low, Bool.true_and]
  case isFalse high =>
    rw [BitVec.getLsbD_extractLsb', decide_eq_true (by omega), Bool.true_and]
    congr 1
    omega

/-- A double word in the ring -/
theorem halves_eq (a : BitVec (w + w)) : a = upper (highHalf a) + lower (lowHalf a) := by
  rw [← append_eq, highHalf_append_lowHalf]

theorem highHalf_append (x y : BitVec w) : highHalf (x ++ y) = x := by
  refine BitVec.eq_of_getLsbD_eq fun i inside => ?_
  rw [highHalf, BitVec.getLsbD_extractLsb', decide_eq_true inside, Bool.true_and,
    BitVec.getLsbD_append, if_neg (by omega), Nat.add_sub_cancel_left]

theorem lowHalf_append (x y : BitVec w) : lowHalf (x ++ y) = y := by
  refine BitVec.eq_of_getLsbD_eq fun i inside => ?_
  rw [lowHalf, BitVec.getLsbD_setWidth, decide_eq_true inside, Bool.true_and,
    BitVec.getLsbD_append, if_pos inside]

/-- What overflows a word overflows the double word when it stands in the upper half. -/
theorem upper_of_toNat {x : BitVec w} {n : Nat} (value : x.toNat = n % 2 ^ w)
    : upper x = BitVec.ofNat (w + w) (n * 2 ^ w) := by
  refine BitVec.eq_of_toNat_eq ?_
  rw [toNat_upper, value, BitVec.toNat_ofNat, Nat.pow_add, Nat.mul_mod_mul_right]

theorem upper_add (x y : BitVec w) : upper (x + y) = upper x + upper y := by
  rw [upper_of_toNat (BitVec.toNat_add x y), Nat.add_mul, BitVec.ofNat_add,
    ← upper_of_toNat (Nat.mod_eq_of_lt x.isLt).symm, ← upper_of_toNat (Nat.mod_eq_of_lt y.isLt).symm]

theorem upper_zero : upper (0 : BitVec w) = 0 := by
  refine BitVec.eq_of_toNat_eq ?_
  simp [toNat_upper]

theorem upper_neg (x : BitVec w) : upper (-x) = -upper x := by
  refine eq_neg_of_add_eq_zero_left ?_
  rw [← upper_add, neg_add_cancel, upper_zero]

theorem upper_sub (x y : BitVec w) : upper (x - y) = upper x - upper y := by
  rw [sub_eq_add_neg, upper_add, upper_neg, ← sub_eq_add_neg]

theorem upper_mul (x y : BitVec w) : upper (x * y) = upper x * lower y := by
  have product : x.toNat * y.toNat * 2 ^ w = (upper x).toNat * (lower y).toNat := by
    rw [toNat_upper, toNat_lower, Nat.mul_right_comm]
  rw [upper_of_toNat (BitVec.toNat_mul x y), product, BitVec.ofNat_mul, BitVec.ofNat_toNat,
    BitVec.ofNat_toNat, BitVec.setWidth_eq, BitVec.setWidth_eq]

theorem upper_eq (x : BitVec w) : upper x = lower x * upper 1 := by
  rw [mul_comm, ← upper_mul, one_mul]

theorem lower_mul {x y : BitVec w} (fits : x.toNat * y.toNat < 2 ^ w)
    : lower (x * y) = lower x * lower y := by
  refine BitVec.eq_of_toNat_eq ?_
  rw [BitVec.toNat_mul, toNat_lower, toNat_lower, toNat_lower, BitVec.toNat_mul,
    Nat.mod_eq_of_lt fits, Nat.mod_eq_of_lt]
  exact fits.trans_le (Nat.pow_le_pow_right (by decide) (Nat.le_add_left w w))

theorem lower_add {x y : BitVec w} (fits : x.toNat + y.toNat < 2 ^ w)
    : lower (x + y) = lower x + lower y := by
  refine BitVec.eq_of_toNat_eq ?_
  rw [BitVec.toNat_add, toNat_lower, toNat_lower, toNat_lower, BitVec.toNat_add,
    Nat.mod_eq_of_lt fits, Nat.mod_eq_of_lt]
  exact fits.trans_le (Nat.pow_le_pow_right (by decide) (Nat.le_add_left w w))

theorem lower_sub {x y : BitVec w} (le : y ≤ x) : lower (x - y) = lower x - lower y := by
  have fits : (x - y).toNat + y.toNat < 2 ^ w := by
    rw [BitVec.toNat_sub_of_le le, Nat.sub_add_cancel (BitVec.le_def.mp le)]
    exact x.isLt
  rw [eq_sub_iff_add_eq, ← lower_add fits, sub_add_cancel]

theorem upper_one : upper (1 : BitVec w) = BitVec.ofNat (w + w) (2 ^ w) := by
  rw [upper_of_toNat (show (1 : BitVec w).toNat = 1 % 2 ^ w from BitVec.toNat_ofNat 1 w),
    Nat.one_mul]

theorem lower_eq (x : BitVec w) : lower x = BitVec.ofNat (w + w) x.toNat :=
  (BitVec.ofNat_toNat _ x).symm

theorem wrapped_lt_iff {a b P : Nat} (ha : a < P) (hb : b < P) : (a + b) % P < b ↔ P ≤ a + b := by
  by_cases small : a + b < P
  · rw [Nat.mod_eq_of_lt small]
    omega
  · rw [Nat.mod_eq_sub_mod (Nat.le_of_not_lt small), Nat.mod_eq_of_lt (by omega)]
    omega

/-- A carry is seen by the sum being less than a summand. -/
theorem lower_add_lower (x y : BitVec w)
    : lower x + lower y = upper (if x + y < y then 1 else 0) + lower (x + y) := by
  have carry : x + y < y ↔ 2 ^ w ≤ x.toNat + y.toNat := by
    rw [BitVec.lt_def, BitVec.toNat_add, wrapped_lt_iff x.isLt y.isLt]
  by_cases wraps : 2 ^ w ≤ x.toNat + y.toNat
  · have hx := x.isLt
    have hy := y.isLt
    rw [if_pos (carry.mpr wraps), upper_one, lower_eq, lower_eq, lower_eq, ← BitVec.ofNat_add,
      ← BitVec.ofNat_add, BitVec.toNat_add, Nat.mod_eq_sub_mod wraps, Nat.mod_eq_of_lt (by omega),
      Nat.add_sub_cancel' wraps]
  · rw [if_neg (mt carry.mp wraps), upper_zero, zero_add, lower_add (Nat.lt_of_not_le wraps)]

/-- A borrow is seen by the difference being greater than what was diminished. -/
theorem lower_sub_lower (x y : BitVec w)
    : lower x - lower y = lower (x - y) - upper (if x < x - y then 1 else 0) := by
  have sum := lower_add_lower (x - y) y
  have borrow : x < y ↔ x < x - y := by
    have hx := x.isLt
    have hy := y.isLt
    rw [BitVec.lt_def, BitVec.lt_def, BitVec.toNat_sub]
    by_cases small : 2 ^ w - y.toNat + x.toNat < 2 ^ w
    · rw [Nat.mod_eq_of_lt small]
      omega
    · rw [Nat.mod_eq_sub_mod (Nat.le_of_not_lt small), Nat.mod_eq_of_lt (by omega)]
      omega
  simp only [sub_add_cancel, borrow] at sum
  rw [sub_eq_iff_eq_add, sub_add_eq_add_sub, sum, add_sub_cancel_left]

theorem append_add_append (x₁ y₁ x₂ y₂ : BitVec w)
    : (x₁ ++ y₁) + (x₂ ++ y₂) = (x₁ + x₂ + if y₁ + y₂ < y₂ then 1 else 0) ++ (y₁ + y₂) := by
  rw [append_eq, append_eq, append_eq, upper_add, upper_add]
  have carry := lower_add_lower y₁ y₂
  calc
    _ = upper x₁ + upper x₂ + (lower y₁ + lower y₂) := by ring
    _ = _ := by
      rw [carry]
      ring

theorem append_sub_append (x₁ y₁ x₂ y₂ : BitVec w)
    : (x₁ ++ y₁) - (x₂ ++ y₂) = (x₁ - x₂ - if y₁ < y₁ - y₂ then 1 else 0) ++ (y₁ - y₂) := by
  rw [append_eq, append_eq, append_eq, upper_sub, upper_sub]
  have borrow := lower_sub_lower y₁ y₂
  calc
    _ = upper x₁ - upper x₂ + (lower y₁ - lower y₂) := by ring
    _ = _ := by
      rw [borrow]
      ring

variable {s : Nat}

theorem append_shiftLeft (x y : BitVec w) (inside : s < w)
    : (x ++ y) <<< s = (x <<< s ||| y >>> (w - s)) ++ (y <<< s) := by
  refine BitVec.eq_of_getLsbD_eq fun i bit => ?_
  simp only [BitVec.getLsbD_shiftLeft, BitVec.getLsbD_append, BitVec.getLsbD_or,
    BitVec.getLsbD_ushiftRight]
  rcases Nat.lt_or_ge i w with low | high
  · simp [low, bit, show i - s < w by omega]
  · rcases Nat.lt_or_ge i (w + s) with carried | high'
    · simp [bit, show ¬ i < w by omega, show ¬ i < s by omega, show i - w < s by omega,
        show i - s < w by omega, show w - s + (i - w) = i - s by omega]
    · have none : y.getLsbD (w - s + (i - w)) = false := BitVec.getLsbD_of_ge _ _ (by omega)
      simp [bit, none, show ¬ i < w by omega, show ¬ i < s by omega, show ¬ i - s < w by omega,
        show ¬ i - w < s by omega, show i - w < w by omega, show i - s - w = i - w - s by omega]

theorem append_shiftLeft_far (x y : BitVec w) (far : w ≤ s)
    : (x ++ y) <<< s = (y <<< (s - w)) ++ 0#w := by
  refine BitVec.eq_of_getLsbD_eq fun i bit => ?_
  simp only [BitVec.getLsbD_shiftLeft, BitVec.getLsbD_append, BitVec.getLsbD_zero]
  rcases Nat.lt_or_ge i s with low | high
  · simp [low]
    omega
  · simp [bit, show ¬ i < s by omega, show ¬ i < w by omega, show i - s < w by omega,
      show i - w < w by omega, show ¬ i - w < s - w by omega, show i - w - (s - w) = i - s by omega]

theorem append_ushiftRight (x y : BitVec w) (inside : s < w)
    : (x ++ y) >>> s = (x >>> s) ++ (y >>> s ||| x <<< (w - s)) := by
  refine BitVec.eq_of_getLsbD_eq fun i bit => ?_
  simp only [BitVec.getLsbD_shiftLeft, BitVec.getLsbD_append, BitVec.getLsbD_or,
    BitVec.getLsbD_ushiftRight]
  rcases Nat.lt_or_ge i w with low | high
  · rcases Nat.lt_or_ge (s + i) w with low' | carried
    · simp [low, low', show i < w - s by omega]
    · have none : y.getLsbD (s + i) = false := BitVec.getLsbD_of_ge _ _ carried
      simp [low, none, show ¬ s + i < w by omega, show ¬ i < w - s by omega,
        show i - (w - s) = s + i - w by omega]
  · simp [show ¬ i < w by omega, show ¬ s + i < w by omega, show s + i - w = s + (i - w) by omega]

theorem append_ushiftRight_far (x y : BitVec w) (far : w ≤ s)
    : (x ++ y) >>> s = 0#w ++ (x >>> (s - w)) := by
  refine BitVec.eq_of_getLsbD_eq fun i bit => ?_
  simp only [BitVec.getLsbD_append, BitVec.getLsbD_zero, BitVec.getLsbD_ushiftRight]
  rw [if_neg (by omega), show s + i - w = s - w + i by omega]
  split
  case isTrue => rfl
  case isFalse high => exact BitVec.getLsbD_of_ge _ _ (by omega)
/-- A double word shifted to the right with its sign -/
theorem append_sshiftRight (x y : BitVec w) (inside : s < w)
    : (x ++ y).sshiftRight s = x.sshiftRight s ++ (y >>> s ||| x <<< (w - s)) := by
  refine BitVec.eq_of_getLsbD_eq fun i bit => ?_
  have logical := congrArg (fun b => b.getLsbD i) (append_ushiftRight x y inside)
  have sign : (x ++ y).msb = x.msb := by
    rw [BitVec.msb_append, if_neg (by omega)]
  simp only [BitVec.getLsbD_append, BitVec.getLsbD_ushiftRight, BitVec.getLsbD_sshiftRight, sign]
    at logical ⊢
  rcases Nat.lt_or_ge i w with low | high
  · rw [if_pos low] at logical ⊢
    rw [if_pos (by omega), logical]
    simp [show ¬ w + w ≤ i by omega]
  · rw [if_neg (show ¬ s + i < w by omega), if_neg (show ¬ i < w by omega),
      show s + i - w = s + (i - w) by omega]
    simp [show ¬ w + w ≤ i by omega, show ¬ w ≤ i - w by omega,
      show s + i < w + w ↔ s + (i - w) < w by omega]

theorem append_sshiftRight_far (x y : BitVec w) (far : w ≤ s)
    : (x ++ y).sshiftRight s = x.sshiftRight w ++ x.sshiftRight (s - w) := by
  refine BitVec.eq_of_getLsbD_eq fun i bit => ?_
  have sign : (x ++ y).msb = x.msb := by
    rw [BitVec.msb_append, if_neg (by omega)]
  simp only [BitVec.getLsbD_append, BitVec.getLsbD_sshiftRight, sign]
  rcases Nat.lt_or_ge i w with low | high
  · simp [low, show ¬ w + w ≤ i by omega, show ¬ w ≤ i by omega, show ¬ s + i < w by omega,
      show s + i < w + w ↔ s - w + i < w by omega, show s + i - w = s - w + i by omega]
  · simp [show ¬ i < w by omega, show ¬ w + w ≤ i by omega, show ¬ w ≤ i - w by omega,
      show ¬ s + i < w + w by omega, show ¬ w + (i - w) < w by omega]

end BSDLibC.Digits
