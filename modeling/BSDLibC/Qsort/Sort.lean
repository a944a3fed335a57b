import BSDLibC.Sorting.Arrays

/-! `qsort_r`. A pointer is a byte offset into the array, whose elements have `es` bytes each. A
result `none` is an access off the elements of the array, a pointer that is moved below its start,
or a loop or recursion that meets its bound.
-/

namespace BSDLibC.Qsort
open BSDLibC.Sorting

/-- The array, and what the comparison function keeps behind its cookie. -/
structure State (α κ : Type) where
  array : List α
  cookie : κ

variable {α κ : Type} (es : Nat) (cmp : κ → α → α → Int × κ)

/-- The number of the element that a pointer points to. -/
def place (p : Nat) : Option Nat := if es ∣ p then some (p / es) else none

/-- `p -= es` -/
def down (p : Nat) : Option Nat := if es ≤ p then some (p - es) else none

/-- `cmp(p, q, cookie)` -/
def compare (p q : Nat) (s : State α κ) : Option (Int × State α κ) := do
  let x ← s.array[← place es p]?
  let y ← s.array[← place es q]?
  let (result, cookie) := cmp s.cookie x y
  return (result, { s with cookie := cookie })

/-- `swap(p, q)` -/
def swap (p q : Nat) (s : State α κ) : Option (State α κ) := do
  let array ← swapAt s.array (← place es p) (← place es q)
  return { s with array := array }

/-- `swapcode` over a number of elements. -/
def swapcode : Nat → Nat → Nat → State α κ → Option (State α κ)
  | 0, _, _, s => some s
  | i + 1, p, q, s => do
      let s ← swap es p q s
      swapcode i (p + es) (q + es) s

/-- `vecswap(p, q, n)` -/
def vecswap (p q n : Nat) (s : State α κ) : Option (State α κ) := do
  swapcode es (← place es n) p q s

def med3 (a b c : Nat) (s : State α κ) : Option (Nat × State α κ) := do
  let (ab, s) ← compare es cmp a b s
  let (bc, s) ← compare es cmp b c s
  if ab < 0 then
    if bc < 0 then
      return (b, s)
    else
      let (ac, s) ← compare es cmp a c s
      return (if ac < 0 then c else a, s)
  else
    if bc > 0 then
      return (b, s)
    else
      let (ac, s) ← compare es cmp a c s
      return (if ac < 0 then a else c, s)

-----------------------------------------------------------------------------------------
-- Insertion sort
-----------------------------------------------------------------------------------------

/-- The inner loop of the insertion sort, from `pl` down to `a`. -/
def insertion.inner (a : Nat) : Nat → Nat → State α κ → Option (State α κ)
  | 0, _, _ => none
  | bound + 1, pl, s =>
      if pl > a then do
        let before ← down es pl
        let (result, s) ← compare es cmp before pl s
        if result > 0 then
          let s ← swap es pl before s
          insertion.inner a bound before s
        else
          return s
      else
        return s

/-- The outer loop, from `pm` up to `end_`. -/
def insertion.outer (a end_ n : Nat) : Nat → Nat → State α κ → Option (State α κ)
  | 0, _, _ => none
  | bound + 1, pm, s =>
      if pm < end_ then do
        let s ← insertion.inner es cmp a n pm s
        insertion.outer a end_ n bound (pm + es) s
      else
        return s

/-- What `qsort_r` does with less than seven elements. -/
def insertion (a n : Nat) (s : State α κ) : Option (State α κ) :=
  insertion.outer es cmp a (a + n * es) n (n + 1) (a + es) s

-----------------------------------------------------------------------------------------
-- Partition
-----------------------------------------------------------------------------------------

/-- The choice of the element to divide by. -/
def median (a n : Nat) (s : State α κ) : Option (Nat × State α κ) :=
  let pm := a + n / 2 * es
  let pl := a
  let pn := a + (n - 1) * es
  if n > 7 then
    if n > 40 then do
      let d := n / 8 * es
      let (pl, s) ← med3 es cmp pl (pl + d) (pl + 2 * d) s
      let (pm, s) ← med3 es cmp (pm - d) pm (pm + d) s
      let (pn, s) ← med3 es cmp (pn - 2 * d) (pn - d) pn s
      med3 es cmp pl pm pn s
    else
      med3 es cmp pl pm pn s
  else
    some (pm, s)

/-- The loop that moves `pb` up, with `pa` behind it. -/
def partition.up (a pc : Nat) : Nat → Nat → Nat → State α κ → Option (Nat × Nat × State α κ)
  | 0, _, _, _ => none
  | bound + 1, pa, pb, s =>
      if pb ≤ pc then do
        let (result, s) ← compare es cmp pb a s
        if result < 0 then
          partition.up a pc bound pa (pb + es) s
        else if result = 0 then
          let s ← swap es pa pb s
          partition.up a pc bound (pa + es) (pb + es) s
        else
          return (pa, pb, s)
      else
        return (pa, pb, s)

/-- The loop that moves `pc` down, with `pd` behind it. -/
def partition.down (a pb : Nat) : Nat → Nat → Nat → State α κ → Option (Nat × Nat × State α κ)
  | 0, _, _, _ => none
  | bound + 1, pc, pd, s =>
      if pb ≤ pc then do
        let (result, s) ← compare es cmp pc a s
        if result > 0 then
          partition.down a pb bound (← Qsort.down es pc) pd s
        else if result = 0 then
          let s ← swap es pc pd s
          partition.down a pb bound (← Qsort.down es pc) (← Qsort.down es pd) s
        else
          return (pc, pd, s)
      else
        return (pc, pd, s)

/-- The pointers at the end of the partition. -/
structure Bounds where
  pa : Nat
  pb : Nat
  pc : Nat
  pd : Nat

/-- The loop of the partition. -/
def partition (a n : Nat) : Nat → Bounds → State α κ → Option (Bounds × State α κ)
  | 0, _, _ => none
  | bound + 1, ⟨pa, pb, pc, pd⟩, s => do
      let (pa, pb, s) ← partition.up es cmp a pc n pa pb s
      let (pc, pd, s) ← partition.down es cmp a pb n pc pd s
      if pb > pc then
        return (⟨pa, pb, pc, pd⟩, s)
      else
        let s ← swap es pb pc s
        partition a n bound ⟨pa, pb + es, ← down es pc, pd⟩ s

/-- The element to divide by, the partition and the two block swaps: the lengths in bytes of the
two sides that are left to sort.
-/
def divide (a n : Nat) (s : State α κ) : Option (Nat × Nat × State α κ) := do
  let (pm, s) ← median es cmp a n s
  let s ← swap es a pm s
  let (⟨pa, pb, pc, pd⟩, s) ← partition es cmp a n (n + 1)
    ⟨a + es, a + es, a + (n - 1) * es, a + (n - 1) * es⟩ s
  let pn := a + n * es
  let r := min (pa - a) (pb - pa)
  let s ← vecswap es a (pb - r) r s
  let r := min (pd - pc) (pn - pd - es)
  let s ← vecswap es pb (pn - r) r s
  return (pb - pa, pd - pc, s)

/-- `qsort_r`, where `depth` bounds the calls and jumps to `loop` on the way. -/
def qsortR : Nat → Nat → Nat → State α κ → Option (State α κ)
  | 0, _, _, _ => none
  | depth + 1, a, n, s =>
      if n < 7 then
        insertion es cmp a n s
      else do
        let pn := a + n * es
        let (r, size, s) ← divide es cmp a n s
        if r < size then
          if size > es then
            if r > es then
              let s ← qsortR depth a (r / es) s
              qsortR depth (pn - size) (size / es) s
            else
              qsortR depth (pn - size) (size / es) s
          else
            return s
        else
          if r > es then
            if size > es then
              let s ← qsortR depth (pn - size) (size / es) s
              qsortR depth a (r / es) s
            else
              qsortR depth a (r / es) s
          else
            return s

end BSDLibC.Qsort
