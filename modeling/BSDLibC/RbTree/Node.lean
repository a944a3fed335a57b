import BSDLibC.ColorTree.Basic

/-! The node word of `sys/rbtree.h`: a parent address with the position and colour flags in
its two low bits, and the macros that read and write the three parts.
-/

namespace BSDLibC.RbTree
open BSDLibC.ColorTree

/-- An `rb_node` address. The two low bits are free because `rb_node` is at least 4-byte
aligned, which is what the packing of `rb_info` relies on.
-/
structure Ptr where
  addr : BitVec 64
  aligned : addr &&& 3#64 = 0#64
  deriving DecidableEq

def NULL : Ptr := ⟨0#64, rfl⟩

theorem Ptr.getLsbD_low (p : Ptr) {i : Nat} (hi : i < 2) : p.addr.getLsbD i = false := by
  have h := congrArg (fun w => BitVec.getLsbD w i) p.aligned
  have cases : i = 0 ∨ i = 1 := by omega
  rcases cases with rfl | rfl <;> simpa using h

def rbFlagPosition : BitVec 64 := 0x2#64
def rbFlagRed : BitVec 64 := 0x1#64
def rbFlagMask : BitVec 64 := rbFlagPosition ||| rbFlagRed

/-- `RB_FATHER` -/
def rbFather (info : BitVec 64) : Ptr where
  addr := info &&& ~~~rbFlagMask
  aligned := by
    rw [BitVec.and_assoc]
    have h : ~~~rbFlagMask &&& 3#64 = 0#64 := by decide
    rw [h, BitVec.and_zero]

/-- `RB_SET_FATHER` -/
def rbSetFather (info : BitVec 64) (father : Ptr) : BitVec 64 :=
  father.addr ||| (info &&& rbFlagMask)

/-- `RB_POSITION` -/
def rbPosition (info : BitVec 64) : Dir :=
  if info &&& rbFlagPosition ≠ 0#64 then .right else .left

/-- The flag test shared by `RB_RED_P` and `RB_BLACK_P`. -/
def rbRed (info : BitVec 64) : Bool := info &&& rbFlagRed ≠ 0#64

/-- `RB_MARK_RED` -/
def rbMarkRed (info : BitVec 64) : BitVec 64 := info ||| rbFlagRed

/-- `RB_MARK_BLACK` -/
def rbMarkBlack (info : BitVec 64) : BitVec 64 := info &&& ~~~rbFlagRed

/-- `RB_SET_POSITION` -/
def rbSetPosition (info : BitVec 64) : Dir → BitVec 64
  | .right => info ||| rbFlagPosition
  | .left => info &&& ~~~rbFlagPosition

/-- `RB_COPY_PROPERTIES` -/
def rbCopyProperties (dst src : BitVec 64) : BitVec 64 :=
  dst ^^^ ((dst ^^^ src) &&& rbFlagMask)

/-- `RB_SWAP_PROPERTIES` -/
def rbSwapProperties (a b : BitVec 64) : BitVec 64 × BitVec 64 :=
  let xorinfo := (a ^^^ b) &&& rbFlagMask
  (a ^^^ xorinfo, b ^^^ xorinfo)

theorem getLsbD_flagMask (i : Nat) : rbFlagMask.getLsbD i = decide (i < 2) := by
  by_cases hi : i < 64
  · have all : ∀ j : Fin 64, rbFlagMask.getLsbD j = decide (j.val < 2) := by decide
    exact all ⟨i, hi⟩
  · rw [BitVec.getLsbD_of_ge _ _ (by omega)]
    simp only [false_eq_decide_iff]
    omega

theorem getLsbD_flagPosition (i : Nat) : rbFlagPosition.getLsbD i = decide (i = 1) := by
  by_cases hi : i < 64
  · have all : ∀ j : Fin 64, rbFlagPosition.getLsbD j = decide (j.val = 1) := by decide
    exact all ⟨i, hi⟩
  · rw [BitVec.getLsbD_of_ge _ _ (by omega)]
    simp only [false_eq_decide_iff]
    omega

theorem getLsbD_flagRed (i : Nat) : rbFlagRed.getLsbD i = decide (i = 0) := by
  by_cases hi : i < 64
  · have all : ∀ j : Fin 64, rbFlagRed.getLsbD j = decide (j.val = 0) := by decide
    exact all ⟨i, hi⟩
  · rw [BitVec.getLsbD_of_ge _ _ (by omega)]
    simp only [false_eq_decide_iff]
    omega

theorem rbRed_eq (info : BitVec 64) : rbRed info = info.getLsbD 0 := by
  rw [rbRed, Bool.eq_iff_iff, decide_eq_true_iff]
  constructor
  · intro h
    by_contra clear
    refine h (BitVec.eq_of_getLsbD_eq (fun i _ => ?_))
    rw [BitVec.getLsbD_and, getLsbD_flagRed, BitVec.getLsbD_zero]
    by_cases hi : i = 0
    · subst hi
      simpa [-BitVec.getLsbD_eq_getElem] using clear
    · simp [-BitVec.getLsbD_eq_getElem, hi]
  · intro h zero
    have bit := congrArg (fun w => BitVec.getLsbD w 0) zero
    simp [-BitVec.getLsbD_eq_getElem, h, getLsbD_flagRed] at bit

theorem rbPosition_eq (info : BitVec 64)
    : rbPosition info = if info.getLsbD 1 then .right else .left := by
  rw [rbPosition]
  refine if_congr ?_ rfl rfl
  constructor
  · intro h
    by_contra clear
    refine h (BitVec.eq_of_getLsbD_eq (fun i _ => ?_))
    rw [BitVec.getLsbD_and, getLsbD_flagPosition, BitVec.getLsbD_zero]
    by_cases hi : i = 1
    · subst hi
      simpa [-BitVec.getLsbD_eq_getElem] using clear
    · simp [-BitVec.getLsbD_eq_getElem, hi]
  · intro h zero
    have bit := congrArg (fun w => BitVec.getLsbD w 1) zero
    simp [-BitVec.getLsbD_eq_getElem, h, getLsbD_flagPosition] at bit

theorem rbFather_eq_iff {info : BitVec 64} {p : Ptr}
    : rbFather info = p ↔ ∀ i, 2 ≤ i → i < 64 → info.getLsbD i = p.addr.getLsbD i := by
  constructor
  · rintro rfl i low high
    have keep : ¬ i < 2 := by omega
    simp [-BitVec.getLsbD_eq_getElem, rbFather, getLsbD_flagMask, high, keep]
  · intro h
    have bits : info &&& ~~~rbFlagMask = p.addr := by
      refine BitVec.eq_of_getLsbD_eq (fun i hi => ?_)
      rw [BitVec.getLsbD_and, BitVec.getLsbD_not, getLsbD_flagMask]
      by_cases low : i < 2
      · simp [-BitVec.getLsbD_eq_getElem, low, p.getLsbD_low low]
      · simp [-BitVec.getLsbD_eq_getElem, low, hi, h i (by omega) hi]
    cases p
    exact Ptr.mk.injEq .. ▸ bits

/-- Words that agree on their flags agree on the position and the colour. -/
theorem flags_congr {v w : BitVec 64} (h : ∀ i, i < 2 → v.getLsbD i = w.getLsbD i)
    : rbPosition v = rbPosition w ∧ rbRed v = rbRed w := by
  rw [rbPosition_eq, rbPosition_eq, rbRed_eq, rbRed_eq, h 0 (by omega), h 1 (by omega)]
  exact ⟨rfl, rfl⟩

/-- Words that agree above their flags agree on the father. -/
theorem rbFather_congr {v w : BitVec 64}
    (h : ∀ i, 2 ≤ i → i < 64 → v.getLsbD i = w.getLsbD i)
    : rbFather v = rbFather w := by
  rw [rbFather_eq_iff]
  intro i low high
  rw [h i low high, rbFather_eq_iff.mp rfl i low high]

@[simp] theorem rbFather_setFather (info : BitVec 64) (p : Ptr)
    : rbFather (rbSetFather info p) = p := by
  rw [rbFather_eq_iff]
  intro i low _
  have high : ¬ i < 2 := by omega
  simp [-BitVec.getLsbD_eq_getElem, rbSetFather, getLsbD_flagMask, high]

theorem flags_setFather (info : BitVec 64) (p : Ptr)
    : rbPosition (rbSetFather info p) = rbPosition info
      ∧ rbRed (rbSetFather info p) = rbRed info := by
  refine flags_congr (fun i low => ?_)
  simp [-BitVec.getLsbD_eq_getElem, rbSetFather, getLsbD_flagMask, low, p.getLsbD_low low]

@[simp] theorem rbPosition_setFather (info : BitVec 64) (p : Ptr)
    : rbPosition (rbSetFather info p) = rbPosition info :=
  (flags_setFather info p).1

@[simp] theorem rbRed_setFather (info : BitVec 64) (p : Ptr)
    : rbRed (rbSetFather info p) = rbRed info :=
  (flags_setFather info p).2

@[simp] theorem rbFather_markRed (info : BitVec 64)
    : rbFather (rbMarkRed info) = rbFather info := by
  refine rbFather_congr (fun i low _ => ?_)
  have high : ¬ i = 0 := by omega
  simp [-BitVec.getLsbD_eq_getElem, rbMarkRed, getLsbD_flagRed, high]

@[simp] theorem rbPosition_markRed (info : BitVec 64)
    : rbPosition (rbMarkRed info) = rbPosition info := by
  simp [-BitVec.getLsbD_eq_getElem, rbPosition_eq, rbMarkRed, getLsbD_flagRed]

@[simp] theorem rbRed_markRed (info : BitVec 64) : rbRed (rbMarkRed info) = true := by
  simp [-BitVec.getLsbD_eq_getElem, rbRed_eq, rbMarkRed, getLsbD_flagRed]

@[simp] theorem rbFather_markBlack (info : BitVec 64)
    : rbFather (rbMarkBlack info) = rbFather info := by
  refine rbFather_congr (fun i low high => ?_)
  have high' : ¬ i = 0 := by omega
  simp [-BitVec.getLsbD_eq_getElem, rbMarkBlack, getLsbD_flagRed, high, high']

@[simp] theorem rbPosition_markBlack (info : BitVec 64)
    : rbPosition (rbMarkBlack info) = rbPosition info := by
  simp [-BitVec.getLsbD_eq_getElem, rbPosition_eq, rbMarkBlack, getLsbD_flagRed]

@[simp] theorem rbRed_markBlack (info : BitVec 64) : rbRed (rbMarkBlack info) = false := by
  simp [-BitVec.getLsbD_eq_getElem, rbRed_eq, rbMarkBlack, getLsbD_flagRed]

@[simp] theorem rbFather_setPosition (info : BitVec 64) (d : Dir)
    : rbFather (rbSetPosition info d) = rbFather info := by
  refine rbFather_congr (fun i low high => ?_)
  have high' : ¬ i = 1 := by omega
  cases d <;> simp [-BitVec.getLsbD_eq_getElem, rbSetPosition, getLsbD_flagPosition, high, high']

@[simp] theorem rbPosition_setPosition (info : BitVec 64) (d : Dir)
    : rbPosition (rbSetPosition info d) = d := by
  cases d <;> simp [-BitVec.getLsbD_eq_getElem, rbPosition_eq, rbSetPosition, getLsbD_flagPosition]

@[simp] theorem rbRed_setPosition (info : BitVec 64) (d : Dir)
    : rbRed (rbSetPosition info d) = rbRed info := by
  cases d <;> simp [-BitVec.getLsbD_eq_getElem, rbRed_eq, rbSetPosition, getLsbD_flagPosition]

@[simp] theorem rbFather_copyProperties (dst src : BitVec 64)
    : rbFather (rbCopyProperties dst src) = rbFather dst := by
  refine rbFather_congr (fun i low high => ?_)
  have high' : ¬ i < 2 := by omega
  simp [-BitVec.getLsbD_eq_getElem, rbCopyProperties, getLsbD_flagMask, high']

theorem flags_copyProperties (dst src : BitVec 64)
    : rbPosition (rbCopyProperties dst src) = rbPosition src
      ∧ rbRed (rbCopyProperties dst src) = rbRed src := by
  refine flags_congr (fun i low => ?_)
  simp [-BitVec.getLsbD_eq_getElem, rbCopyProperties, getLsbD_flagMask, low]

@[simp] theorem rbPosition_copyProperties (dst src : BitVec 64)
    : rbPosition (rbCopyProperties dst src) = rbPosition src :=
  (flags_copyProperties dst src).1

@[simp] theorem rbRed_copyProperties (dst src : BitVec 64)
    : rbRed (rbCopyProperties dst src) = rbRed src :=
  (flags_copyProperties dst src).2

/-- The exclusive-or exchange is two crosswise copies of the flags. -/
theorem rbSwapProperties_eq (a b : BitVec 64)
    : rbSwapProperties a b = (rbCopyProperties a b, rbCopyProperties b a) := by
  simp only [rbSwapProperties, rbCopyProperties, BitVec.xor_comm b a]

end BSDLibC.RbTree
