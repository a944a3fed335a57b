import BSDLibC.Digits.Halves
import BSDLibC.Quad.Qdivrem
import Mathlib.Tactic.LinearCombination

/-! The other functions of the library that gives a machine with 32-bit words its 64-bit numbers:
each takes its operands apart into two words. A negation of the least number wraps around.
-/

namespace BSDLibC.Quad
open BSDLibC.Digits

/-- `quad_t` and `u_quad_t` -/
abbrev QuadT := BitVec 64

/-- A value of type `u_int`, as the machine computes with it -/
abbrev Word := BitVec 32

/-- `a.ul[H]` -/
def ulH (a : QuadT) : Word := highHalf (w := 32) a

/-- `a.ul[L]` -/
def ulL (a : QuadT) : Word := lowHalf (w := 32) a

/-- The member `q` of a union with these words. -/
def quad (h l : Word) : QuadT := h ++ l

def adddi3 (a b : QuadT) : QuadT :=
  let l := ulL a + ulL b
  quad (ulH a + ulH b + if l < ulL b then 1 else 0) l

def subdi3 (a b : QuadT) : QuadT :=
  let l := ulL a - ulL b
  quad (ulH a - ulH b - if l > ulL a then 1 else 0) l

def negdi2 (a : QuadT) : QuadT :=
  let l := -ulL a
  quad (-ulH a - if l > 0 then 1 else 0) l

def anddi3 (a b : QuadT) : QuadT := quad (ulH a &&& ulH b) (ulL a &&& ulL b)

def iordi3 (a b : QuadT) : QuadT := quad (ulH a ||| ulH b) (ulL a ||| ulL b)

def xordi3 (a b : QuadT) : QuadT := quad (ulH a ^^^ ulH b) (ulL a ^^^ ulL b)

def oneCmpldi2 (a : QuadT) : QuadT := quad (~~~ulH a) (~~~ulL a)

/-- A shift of a word, which has no result when the count is not less than the bits of the word. -/
def shiftable (count : Nat) (x : Word) : Option Word := if count < 32 then some x else none

def ashldi3 (a : QuadT) (shift : Nat) : Option QuadT :=
  if shift = 0 then
    some a
  else if shift ≥ 32 then do
    let h ← shiftable (shift - 32) (ulL a <<< (shift - 32))
    return quad h 0
  else do
    let h ← shiftable shift (ulH a <<< shift)
    let carried ← shiftable (32 - shift) (ulL a >>> (32 - shift))
    return quad (h ||| carried) (← shiftable shift (ulL a <<< shift))

/-- The logical shift to the left has the same body. -/
def lshldi3 (a : QuadT) (shift : Nat) : Option QuadT := ashldi3 a shift

def lshrdi3 (a : QuadT) (shift : Nat) : Option QuadT :=
  if shift = 0 then
    some a
  else if shift ≥ 32 then do
    let l ← shiftable (shift - 32) (ulH a >>> (shift - 32))
    return quad 0 l
  else do
    let l ← shiftable shift (ulL a >>> shift)
    let carried ← shiftable (32 - shift) (ulH a <<< (32 - shift))
    return quad (← shiftable shift (ulH a >>> shift)) (l ||| carried)

def ashrdi3 (a : QuadT) (shift : Nat) : Option QuadT :=
  if shift = 0 then
    some a
  else if shift ≥ 32 then do
    let s := ((ulH a).sshiftRight 31).sshiftRight 1
    let l ← shiftable (shift - 32) ((ulH a).sshiftRight (shift - 32))
    return quad s l
  else do
    let l ← shiftable shift (ulL a >>> shift)
    let carried ← shiftable (32 - shift) (ulH a <<< (32 - shift))
    return quad (← shiftable shift ((ulH a).sshiftRight shift)) (l ||| carried)

/-- 0, 1 or 2 as the first is less, equal or greater. -/
def cmpdi2 (a b : QuadT) : Nat :=
  if (ulH a).slt (ulH b) then 0
  else if (ulH b).slt (ulH a) then 2
  else if ulL a < ulL b then 0
  else if ulL a > ulL b then 2
  else 1

def ucmpdi2 (a b : QuadT) : Nat :=
  if ulH a < ulH b then 0
  else if ulH a > ulH b then 2
  else if ulL a < ulL b then 0
  else if ulL a > ulL b then 2
  else 1

/-- `HHALF`, of a word of the machine -/
def HHALF (x : Word) : Word := x >>> 16

def LHALF (x : Word) : Word := x &&& (1 <<< 16 - 1)

def LHUP (x : Word) : Word := x <<< 16

/-- The distance of two words, and whether the first is the less. -/
def distance (x y : Word) : Word × Bool := if x ≥ y then (x - y, false) else (y - x, true)

/-- The product of two words. -/
def lmulq (u v : Word) : QuadT :=
  let u1 := HHALF u
  let u0 := LHALF u
  let v1 := HHALF v
  let v0 := LHALF v
  let low := u0 * v0
  if u1 = 0 ∧ v1 = 0 then
    quad 0 low
  else
    let udiff := distance u1 u0
    let vdiff := distance v0 v1
    let neg := udiff.2 ^^ vdiff.2
    let mid := udiff.1 * vdiff.1
    let high := u1 * v1
    let prodh := high + HHALF high
    let prodl := LHUP high
    let was := prodl
    let prodl := if neg then prodl - LHUP mid else prodl + LHUP mid
    let prodh :=
      if neg then prodh - (HHALF mid + if prodl > was then 1 else 0)
      else prodh + (HHALF mid + if prodl < was then 1 else 0)
    let was := prodl
    let prodl := prodl + LHUP low
    let prodh := prodh + (HHALF low + if prodl < was then 1 else 0)
    let prodl := prodl + low
    let prodh := if prodl < low then prodh + 1 else prodh
    quad prodh prodl

/-- The product of two numbers that are not negative, without what overflows. -/
def mulWords (u v : QuadT) : QuadT :=
  let u1 := ulH u
  let u0 := ulL u
  let v1 := ulH v
  let v0 := ulL v
  if u1 = 0 ∧ v1 = 0 then
    lmulq u0 v0
  else
    let low := lmulq u0 v0
    let udiff := distance u1 u0
    let vdiff := distance v0 v1
    let negmid := udiff.2 ^^ vdiff.2
    let mid := udiff.1 * vdiff.1
    let high := u1 * v1
    quad (high + (if negmid then -mid else mid) + ulL low + ulH low) (ulL low)

def muldi3 (a b : QuadT) : QuadT :=
  let u := if a.slt 0 then -a else a
  let v := if b.slt 0 then -b else b
  let negall := a.slt 0 ^^ b.slt 0
  let prod := mulWords u v
  if negall then -prod else prod

def udivdi3 (junk : Space) (a b : QuadT) : Option QuadT := do
  let (uq, _) ← qdivrem junk a.toNat b.toNat false
  return BitVec.ofNat 64 uq

def umoddi3 (junk : Space) (a b : QuadT) : Option QuadT := do
  let (_, r) ← qdivrem junk a.toNat b.toNat true
  return BitVec.ofNat 64 (← r)

def divdi3 (junk : Space) (a b : QuadT) : Option QuadT := do
  let ua := if a.slt 0 then -a else a
  let ub := if b.slt 0 then -b else b
  let neg := a.slt 0 ^^ b.slt 0
  let (uq, _) ← qdivrem junk ua.toNat ub.toNat false
  return if neg then -BitVec.ofNat 64 uq else BitVec.ofNat 64 uq

def moddi3 (junk : Space) (a b : QuadT) : Option QuadT := do
  let ua := if a.slt 0 then -a else a
  let ub := if b.slt 0 then -b else b
  let neg := a.slt 0
  let (_, ur) ← qdivrem junk ua.toNat ub.toNat true
  let ur := BitVec.ofNat 64 (← ur)
  return if neg then -ur else ur

-----------------------------------------------------------------------------------------
-- Sums, bits and comparisons
-----------------------------------------------------------------------------------------

theorem quad_ul (a : QuadT) : quad (ulH a) (ulL a) = a := highHalf_append_lowHalf (w := 32) a

theorem ulH_quad (h l : Word) : ulH (quad h l) = h := highHalf_append h l

theorem ulL_quad (h l : Word) : ulL (quad h l) = l := lowHalf_append h l

theorem adddi3_eq (a b : QuadT) : adddi3 a b = a + b := by
  conv_rhs => rw [← quad_ul a, ← quad_ul b]
  exact (append_add_append _ _ _ _).symm

theorem subdi3_eq (a b : QuadT) : subdi3 a b = a - b := by
  conv_rhs => rw [← quad_ul a, ← quad_ul b]
  exact (append_sub_append _ _ _ _).symm

theorem negdi2_eq (a : QuadT) : negdi2 a = -a := by
  conv_rhs => rw [← quad_ul a, ← zero_sub, show (0 : QuadT) = quad 0 0 from rfl]
  have difference := append_sub_append (w := 32) 0 0 (ulH a) (ulL a)
  rw [zero_sub, zero_sub] at difference
  exact difference.symm

theorem anddi3_eq (a b : QuadT) : anddi3 a b = a &&& b := by
  conv_rhs => rw [← quad_ul a, ← quad_ul b]
  exact BitVec.and_append.symm

theorem iordi3_eq (a b : QuadT) : iordi3 a b = a ||| b := by
  conv_rhs => rw [← quad_ul a, ← quad_ul b]
  exact BitVec.or_append.symm

theorem xordi3_eq (a b : QuadT) : xordi3 a b = a ^^^ b := by
  conv_rhs => rw [← quad_ul a, ← quad_ul b]
  exact BitVec.xor_append.symm

theorem oneCmpldi2_eq (a : QuadT) : oneCmpldi2 a = ~~~a := by
  conv_rhs => rw [← quad_ul a]
  exact BitVec.not_append.symm

theorem shiftable_eq {count : Nat} (x : Word) (less : count < 32)
    : shiftable count x = some x := if_pos less

section

variable (a : QuadT) {shift : Nat} (inside : shift < 64)

include inside

theorem ashldi3_eq : ashldi3 a shift = some (a <<< shift) := by
  conv_rhs => rw [← quad_ul a]
  rw [ashldi3]
  split_ifs with none far
  · rw [none, BitVec.shiftLeft_zero, quad_ul]
  · rw [shiftable_eq _ (by omega)]
    exact congrArg some (append_shiftLeft_far _ _ far).symm
  · rw [shiftable_eq _ (by omega), shiftable_eq _ (by omega), shiftable_eq _ (by omega)]
    exact congrArg some (append_shiftLeft (w := 32) _ _ (by omega)).symm

theorem lshrdi3_eq : lshrdi3 a shift = some (a >>> shift) := by
  conv_rhs => rw [← quad_ul a]
  rw [lshrdi3]
  split_ifs with none far
  · rw [none, BitVec.ushiftRight_zero, quad_ul]
  · rw [shiftable_eq _ (by omega)]
    exact congrArg some (append_ushiftRight_far _ _ far).symm
  · rw [shiftable_eq _ (by omega), shiftable_eq _ (by omega), shiftable_eq _ (by omega)]
    exact congrArg some (append_ushiftRight (w := 32) _ _ (by omega)).symm

theorem ashrdi3_eq : ashrdi3 a shift = some (a.sshiftRight shift) := by
  conv_rhs => rw [← quad_ul a]
  rw [ashrdi3]
  split_ifs with none far
  · rw [none, BitVec.sshiftRight_zero, quad_ul]
  · rw [shiftable_eq _ (by omega)]
    refine congrArg some (Eq.trans ?_ (append_sshiftRight_far _ _ far).symm)
    rw [← BitVec.sshiftRight_add]
    rfl
  · rw [shiftable_eq _ (by omega), shiftable_eq _ (by omega), shiftable_eq _ (by omega)]
    exact congrArg some (append_sshiftRight (w := 32) _ _ (by omega)).symm

end

theorem toInt_ul (a : QuadT) : a.toInt = 2 ^ 32 * (ulH a).toInt + (ulL a).toNat := by
  conv_lhs => rw [← quad_ul a]
  exact BitVec.toInt_append

theorem toNat_ul (a : QuadT) : a.toNat = 2 ^ 32 * (ulH a).toNat + (ulL a).toNat := by
  conv_lhs => rw [← quad_ul a, quad, append_eq, BitVec.toNat_add, toNat_upper, toNat_lower]
  have := (ulH a).isLt
  have := (ulL a).isLt
  omega

theorem cmpdi2_eq (a b : QuadT) : cmpdi2 a b = if a.slt b then 0 else if b.slt a then 2 else 1 := by
  have ha := toInt_ul a
  have hb := toInt_ul b
  have la := (ulL a).isLt
  have lb := (ulL b).isLt
  simp only [cmpdi2, BitVec.slt_iff_toInt_lt, BitVec.lt_def, gt_iff_lt]
  split_ifs <;> omega

theorem ucmpdi2_eq (a b : QuadT) : ucmpdi2 a b = if a < b then 0 else if b < a then 2 else 1 := by
  have ha := toNat_ul a
  have hb := toNat_ul b
  have la := (ulL a).isLt
  have lb := (ulL b).isLt
  simp only [ucmpdi2, BitVec.lt_def, gt_iff_lt]
  split_ifs <;> omega

-----------------------------------------------------------------------------------------
-- Products
-----------------------------------------------------------------------------------------

theorem quad_eq (h l : Word) : quad h l = upper h + lower l := append_eq h l

theorem quad_add (h l x y : Word)
    : quad (h + (x + if l + y < l then 1 else 0)) (l + y) = quad h l + quad x y := by
  have sum := append_add_append (w := 32) x y h l
  rw [add_comm y l] at sum
  rw [add_comm (quad h l), ← add_assoc, add_comm h x]
  exact sum.symm

theorem quad_sub (h l x y : Word)
    : quad (h - (x + if l - y > l then 1 else 0)) (l - y) = quad h l - quad x y := by
  rw [← sub_sub]
  exact (append_sub_append (w := 32) h l x y).symm

theorem HHALF_lt (x : Word) : (HHALF x).toNat < 65536 := by
  have := x.isLt
  rw [HHALF, BitVec.toNat_ushiftRight, Nat.shiftRight_eq_div_pow]
  omega

theorem LHALF_toNat (x : Word) : (LHALF x).toNat = x.toNat % 65536 := by
  rw [LHALF, BitVec.toNat_and]
  exact Nat.and_two_pow_sub_one_eq_mod x.toNat 16

theorem LHALF_lt (x : Word) : (LHALF x).toNat < 65536 := by
  rw [LHALF_toNat]
  exact Nat.mod_lt _ (by decide)

/-- A word in the ring, by its halves -/
theorem lower_halves (x : Word) : lower x = 65536 * lower (HHALF x) + lower (LHALF x) := by
  refine BitVec.eq_of_toNat_eq ?_
  have := x.isLt
  rw [BitVec.toNat_add, BitVec.toNat_mul, toNat_lower, toNat_lower, toNat_lower, LHALF_toNat, HHALF,
    BitVec.toNat_ushiftRight, Nat.shiftRight_eq_div_pow, show (65536 : QuadT).toNat = 65536 from rfl]
  omega

/-- `HHALF` and `LHUP` are the words of a word that is shifted by half of its bits. -/
theorem quad_shifted (x : Word) : quad (HHALF x) (LHUP x) = 65536 * lower x := by
  refine BitVec.eq_of_toNat_eq ?_
  have := x.isLt
  rw [quad_eq, BitVec.toNat_add, BitVec.toNat_mul, toNat_lower, toNat_lower, toNat_upper, HHALF, LHUP,
    BitVec.toNat_ushiftRight, Nat.shiftRight_eq_div_pow, BitVec.toNat_shiftLeft, Nat.shiftLeft_eq,
    show (65536 : QuadT).toNat = 65536 from rfl]
  omega

theorem distance_lt {x y : Word} {n : Nat} (hx : x.toNat < n) (hy : y.toNat < n)
    : (distance x y).1.toNat < n := by
  rw [distance]
  split
  case isTrue le =>
    rw [BitVec.toNat_sub_of_le le]
    omega
  case isFalse less =>
    rw [BitVec.toNat_sub_of_le (BitVec.le_of_lt (BitVec.not_le.mp less))]
    omega

/-- The distance with its sign -/
theorem distance_lower (x y : Word)
    : (if (distance x y).2 then -lower (distance x y).1 else lower (distance x y).1)
      = lower x - lower y := by
  rw [distance]
  split
  case isTrue le =>
    rw [← lower_sub le]
    rfl
  case isFalse less =>
    rw [← neg_sub (lower y), ← lower_sub (BitVec.le_of_lt (BitVec.not_le.mp less))]
    rfl

theorem neg_product {α : Type*} [CommRing α] (x y : α) (p q : Bool)
    : (if p ^^ q then -(x * y) else x * y) = (if p then -x else x) * if q then -y else y := by
  cases p <;> cases q <;> simp

/-- The product of words below the half does not overflow. -/
theorem lower_product {x y : Word} (hx : x.toNat < 65536) (hy : y.toNat < 65536)
    : lower (x * y) = lower x * lower y := by
  refine lower_mul (lt_of_le_of_lt (Nat.mul_le_mul (Nat.le_pred_of_lt hx) (Nat.le_pred_of_lt hy)) ?_)
  decide

theorem lmulq_eq (u v : Word) : lmulq u v = lower u * lower v := by
  have hu := lower_halves u
  have hv := lower_halves v
  have low := lower_product (LHALF_lt u) (LHALF_lt v)
  have high := lower_product (HHALF_lt u) (HHALF_lt v)
  have mid := lower_product (distance_lt (HHALF_lt u) (LHALF_lt u))
    (distance_lt (LHALF_lt v) (HHALF_lt v))
  have signs := neg_product (lower (distance (HHALF u) (LHALF u)).1)
    (lower (distance (LHALF v) (HHALF v)).1) (distance (HHALF u) (LHALF u)).2
    (distance (LHALF v) (HHALF v)).2
  rw [distance_lower, distance_lower, ← mid] at signs
  simp only [lmulq]
  split
  case isTrue small =>
    rw [small.1, show lower (0 : Word) = 0 from rfl, mul_zero, zero_add] at hu
    rw [small.2, show lower (0 : Word) = 0 from rfl, mul_zero, zero_add] at hv
    rw [quad_eq, upper_zero, zero_add, low, hu, hv]
  case isFalse large =>
    generalize HHALF u * HHALF v = h at *
    generalize LHALF u * LHALF v = l at *
    generalize (distance (HHALF u) (LHALF u)).1 * (distance (LHALF v) (HHALF v)).1 = m at *
    generalize ((distance (HHALF u) (LHALF u)).2 ^^ (distance (LHALF v) (HHALF v)).2) = neg at *
    have start : quad (h + HHALF h) (LHUP h) = upper h + 65536 * lower h := by
      rw [quad_eq, upper_add, add_assoc, ← quad_eq, quad_shifted]
    have last (x y z : Word)
        : quad (if y + z < z then x + 1 else x) (y + z) = quad x y + lower z := by
      have sum := append_add_append (w := 32) x y 0 z
      rw [append_eq 0 z, upper_zero, zero_add, add_zero] at sum
      refine Eq.trans ?_ sum.symm
      split
      · rfl
      · rw [add_zero]
        rfl
    have power : upper (1 : Word) = 65536 * 65536 := by decide
    rw [last, quad_add, quad_shifted]
    cases neg with
    | false =>
        simp only [Bool.false_eq_true, if_false] at signs ⊢
        rw [quad_add, start, quad_shifted, upper_eq, power, high, low, signs, hu, hv]
        ring
    | true =>
        simp only [if_true] at signs ⊢
        rw [quad_sub, start, quad_shifted, upper_eq, power, high, low, hu, hv, ← neg_neg (lower m),
          signs]
        ring

/-- A word moved to the upper half loses the upper half it had. -/
theorem upper_ulL (a : QuadT) : upper (ulL a) = a * upper (1 : Word) := by
  have square : upper (1 : Word) * upper (1 : Word) = 0 := by decide
  conv_rhs => rw [← quad_ul a, quad_eq, upper_eq (ulH a)]
  rw [upper_eq (ulL a), add_mul, mul_assoc, square, mul_zero, zero_add]

theorem distance_eq (x y : Word)
    : (if (distance x y).2 then -(distance x y).1 else (distance x y).1) = x - y := by
  rw [distance]
  split
  · rfl
  · exact neg_sub y x

theorem mulWords_eq (u v : QuadT) : mulWords u v = u * v := by
  obtain ⟨u1, u0, rfl⟩ : ∃ h l, u = quad h l := ⟨_, _, (quad_ul u).symm⟩
  obtain ⟨v1, v0, rfl⟩ : ∃ h l, v = quad h l := ⟨_, _, (quad_ul v).symm⟩
  simp only [mulWords, ulH_quad, ulL_quad]
  split
  case isTrue small =>
    rw [small.1, small.2, lmulq_eq, quad_eq, quad_eq, upper_zero, zero_add, zero_add]
  case isFalse large =>
    have square : upper (1 : Word) * upper (1 : Word) = 0 := by decide
    have low := lmulq_eq u0 v0
    generalize lmulq u0 v0 = product at *
    have whole := quad_eq (ulH product) (ulL product)
    rw [quad_ul] at whole
    rw [neg_product, distance_eq, distance_eq, quad_eq, upper_add, upper_add, upper_add, add_assoc,
      ← whole, upper_ulL, low, quad_eq, quad_eq]
    simp only [mul_sub, sub_mul, upper_sub, upper_mul]
    rw [upper_eq u1, upper_eq u0, upper_eq v1]
    linear_combination (-(lower u1 * lower v1)) * square

theorem muldi3_eq (a b : QuadT) : muldi3 a b = a * b := by
  rw [muldi3, mulWords_eq]
  cases a.slt 0 <;> cases b.slt 0 <;> simp

-----------------------------------------------------------------------------------------
-- Quotients
-----------------------------------------------------------------------------------------

section

variable (junk : Space) (a : QuadT) {b : QuadT} (divisor : b ≠ 0)

include divisor

omit divisor in
theorem slt_zero (x : QuadT) : x.slt 0 = x.msb := BitVec.slt_zero_eq_msb

theorem positive_of_ne : 0 < b.toNat :=
  Nat.pos_of_ne_zero fun zero => divisor (BitVec.eq_of_toNat_eq zero)

theorem udivdi3_eq : udivdi3 junk a b = some (a / b) := by
  rw [udivdi3, qdivrem_exact junk (positive_of_ne divisor) a.isLt b.isLt]
  exact congrArg some BitVec.udiv_def.symm

theorem umoddi3_eq : umoddi3 junk a b = some (a % b) := by
  rw [umoddi3, qdivrem_exact junk (positive_of_ne divisor) a.isLt b.isLt]
  exact congrArg some BitVec.umod_def.symm

/-- The absolute values, as numbers without a sign -/
theorem magnitude_ne : (if b.slt 0 then -b else b) ≠ 0 := by
  split
  · exact neg_ne_zero.mpr divisor
  · exact divisor

theorem divdi3_eq : divdi3 junk a b = some (BitVec.ofInt 64 (a.toInt.tdiv b.toInt)) := by
  have quotient : BitVec.ofInt 64 (a.toInt.tdiv b.toInt) = a.sdiv b := by
    rw [← BitVec.toInt_inj, BitVec.toInt_ofInt, BitVec.toInt_sdiv]
  rw [divdi3]
  dsimp only
  rw [qdivrem_exact junk (positive_of_ne (magnitude_ne divisor)) (BitVec.isLt _) (BitVec.isLt _),
    quotient, BitVec.sdiv_eq]
  simp only [Option.bind_eq_bind, Option.bind_some, ← BitVec.udiv_def, slt_zero]
  cases a.msb <;> cases b.msb <;> rfl

theorem moddi3_eq : moddi3 junk a b = some (BitVec.ofInt 64 (a.toInt.tmod b.toInt)) := by
  rw [moddi3]
  dsimp only
  rw [qdivrem_exact junk (positive_of_ne (magnitude_ne divisor)) (BitVec.isLt _) (BitVec.isLt _),
    ← BitVec.toInt_srem, BitVec.ofInt_toInt, BitVec.srem_eq]
  simp only [if_true, Option.bind_eq_bind, Option.bind_some, ← BitVec.umod_def, slt_zero]
  cases a.msb <;> cases b.msb <;> rfl

end

-----------------------------------------------------------------------------------------
-- The library as a whole
-----------------------------------------------------------------------------------------

/-- The functions on single words, with their carries and borrows, are the operations on numbers of
64 bits.
-/
theorem words_compute (a b : QuadT) {shift : Nat} (inside : shift < 64)
    : adddi3 a b = a + b ∧ subdi3 a b = a - b ∧ negdi2 a = -a
      ∧ anddi3 a b = a &&& b ∧ iordi3 a b = a ||| b ∧ xordi3 a b = a ^^^ b ∧ oneCmpldi2 a = ~~~a
      ∧ ashldi3 a shift = some (a <<< shift) ∧ lshldi3 a shift = some (a <<< shift)
      ∧ lshrdi3 a shift = some (a >>> shift) ∧ ashrdi3 a shift = some (a.sshiftRight shift)
      ∧ cmpdi2 a b = (if a.toInt < b.toInt then 0 else if b.toInt < a.toInt then 2 else 1)
      ∧ ucmpdi2 a b = if a.toNat < b.toNat then 0 else if b.toNat < a.toNat then 2 else 1 := by
  refine ⟨adddi3_eq a b, subdi3_eq a b, negdi2_eq a, anddi3_eq a b, iordi3_eq a b, xordi3_eq a b,
    oneCmpldi2_eq a, ashldi3_eq a inside, ashldi3_eq a inside, lshrdi3_eq a inside,
    ashrdi3_eq a inside, ?_, ?_⟩
  · simp only [cmpdi2_eq, BitVec.slt_iff_toInt_lt]
  · simp only [ucmpdi2_eq, BitVec.lt_def]

theorem words_compute_carry
    : adddi3 0xffffffff 1 = 0xffffffff + 1 ∧ subdi3 0xffffffff 1 = 0xffffffff - 1
      ∧ negdi2 0xffffffff = -0xffffffff
      ∧ anddi3 0xffffffff 1 = 0xffffffff &&& 1 ∧ iordi3 0xffffffff 1 = 0xffffffff ||| 1
      ∧ xordi3 0xffffffff 1 = 0xffffffff ^^^ 1 ∧ oneCmpldi2 0xffffffff = ~~~0xffffffff
      ∧ ashldi3 0xffffffff 33 = some (0xffffffff <<< 33)
      ∧ lshldi3 0xffffffff 33 = some (0xffffffff <<< 33)
      ∧ lshrdi3 0xffffffff 33 = some (0xffffffff >>> 33)
      ∧ ashrdi3 0xffffffff 33 = some ((0xffffffff : QuadT).sshiftRight 33)
      ∧ cmpdi2 0xffffffff 1
        = (if (0xffffffff : QuadT).toInt < (1 : QuadT).toInt then 0
          else if (1 : QuadT).toInt < (0xffffffff : QuadT).toInt then 2 else 1)
      ∧ ucmpdi2 0xffffffff 1
        = if (0xffffffff : QuadT).toNat < (1 : QuadT).toNat then 0
          else if (1 : QuadT).toNat < (0xffffffff : QuadT).toNat then 2 else 1 :=
  words_compute 0xffffffff 1 (by decide)

/-- A product of two words is exact, and a product of two numbers is the product of their values, which
wraps around.
-/
theorem products_exact
    : (∀ u v : Word, (lmulq u v).toNat = u.toNat * v.toNat)
      ∧ ∀ a b : QuadT, (muldi3 a b).toInt = (a.toInt * b.toInt).bmod (2 ^ 64) := by
  refine ⟨fun u v => ?_, fun a b => ?_⟩
  · rw [lmulq_eq, BitVec.toNat_mul, toNat_lower, toNat_lower]
    exact Nat.mod_eq_of_lt ((Nat.mul_lt_mul'' u.isLt v.isLt).trans_eq (by decide))
  · rw [muldi3_eq, BitVec.toInt_mul]

/-- Whatever the digits of the division held before, a signed quotient is rounded to zero and a
remainder has the sign of the dividend; the one quotient that overflows wraps around.
-/
theorem divisions_exact (junk : Space) (a : QuadT) {b : QuadT} (divisor : b ≠ 0)
    : divdi3 junk a b = some (BitVec.ofInt 64 (a.toInt.tdiv b.toInt))
      ∧ moddi3 junk a b = some (BitVec.ofInt 64 (a.toInt.tmod b.toInt))
      ∧ udivdi3 junk a b = some (a / b) ∧ umoddi3 junk a b = some (a % b) :=
  ⟨divdi3_eq junk a divisor, moddi3_eq junk a divisor, udivdi3_eq junk a divisor,
    umoddi3_eq junk a divisor⟩

theorem divisions_exact_seven
    : divdi3 (fun _ => 1) (-7) 2 = some (BitVec.ofInt 64 (Int.tdiv (-7 : QuadT).toInt (2 : QuadT).toInt))
      ∧ moddi3 (fun _ => 1) (-7) 2
        = some (BitVec.ofInt 64 (Int.tmod (-7 : QuadT).toInt (2 : QuadT).toInt))
      ∧ udivdi3 (fun _ => 1) (-7) 2 = some (-7 / 2) ∧ umoddi3 (fun _ => 1) (-7) 2 = some (-7 % 2) :=
  divisions_exact (fun _ => 1) (-7) (by decide)

end BSDLibC.Quad
