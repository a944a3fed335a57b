import BSDLibC.Sorting.Heaps

/-! `heapsort_r`. A pointer is a byte offset from `base`, which lies one item below the array, and the
items have `size` bytes each. A result `none` is an access off the items of the array or a loop that
meets its bound.
-/

namespace BSDLibC.Heapsort
open BSDLibC.Sorting

/-- The array, and what the comparison function keeps behind its cookie. -/
structure State (α κ : Type) where
  array : List α
  cookie : κ

variable {α κ : Type} (size : Nat) (compar : κ → α → α → Int × κ)

/-- The place in the array that a pointer points to. -/
def place (p : Nat) : Option Nat := if size ∣ p ∧ size ≤ p then some (p / size - 1) else none

/-- The item that a pointer points to. -/
def load (p : Nat) (s : State α κ) : Option α := do
  s.array[← place size p]?

/-- `COPY` of an item into the array. -/
def store (p : Nat) (x : α) (s : State α κ) : Option (State α κ) := do
  let i ← place size p
  if i < s.array.length then
    return { s with array := s.array.set i x }
  else
    none

/-- `COPY(p, q, ..)` within the array. -/
def copy (p q : Nat) (s : State α κ) : Option (State α κ) := do
  store size p (← load size q s) s

/-- `SWAP(p, q, ..)` -/
def swap (p q : Nat) (s : State α κ) : Option (State α κ) := do
  let array ← swapAt s.array (← place size p) (← place size q)
  return { s with array := array }

/-- `compar(x, y, cookie)` -/
def call (x y : α) (s : State α κ) : Int × State α κ :=
  let (result, cookie) := compar s.cookie x y
  (result, { s with cookie := cookie })

/-- `compar(p, q, cookie)` -/
def compare (p q : Nat) (s : State α κ) : Option (Int × State α κ) := do
  return call compar (← load size p s) (← load size q s) s

/-- The choice between the two children of an item, the same in `CREATE` and `SELECT`. -/
def larger (nmemb child_i : Nat) (s : State α κ) : Option (Nat × State α κ) :=
  let child := child_i * size
  if child_i < nmemb then do
    let (result, s) ← compare size compar child (child + size) s
    return (if result < 0 then child_i + 1 else child_i, s)
  else
    some (child_i, s)

/-- `CREATE` -/
def create (nmemb : Nat) : Nat → Nat → State α κ → Option (State α κ)
  | 0, _, _ => none
  | bound + 1, par_i, s =>
      if par_i * 2 ≤ nmemb then do
        let (child_i, s) ← larger size compar nmemb (par_i * 2) s
        let (result, s) ← compare size compar (child_i * size) (par_i * size) s
        if result ≤ 0 then
          return s
        else
          let s ← swap size (par_i * size) (child_i * size) s
          create nmemb bound child_i s
      else
        return s

/-- The first loop of `SELECT`, which copies the larger child over its parent down to a leaf. -/
def select.promote (nmemb : Nat) : Nat → Nat → State α κ → Option (Nat × State α κ)
  | 0, _, _ => none
  | bound + 1, par_i, s =>
      if par_i * 2 ≤ nmemb then do
        let (child_i, s) ← larger size compar nmemb (par_i * 2) s
        let s ← copy size (par_i * size) (child_i * size) s
        select.promote nmemb bound child_i s
      else
        return (par_i, s)

/-- The second loop of `SELECT`, which looks for the place of `k` from the bottom up. -/
def select.climb (k : α) : Nat → Nat → State α κ → Option (State α κ)
  | 0, _, _ => none
  | bound + 1, child_i, s =>
      let par_i := child_i / 2
      let child := child_i * size
      let par := par_i * size
      if child_i = 1 then
        store size child k s
      else do
        let (result, s) := call compar k (← load size par s) s
        if result < 0 then
          store size child k s
        else
          let s ← copy size child par s
          select.climb k bound par_i s

/-- `SELECT` -/
def select (nmemb : Nat) (k : α) (s : State α κ) : Option (State α κ) := do
  let (par_i, s) ← select.promote size compar nmemb (nmemb + 1) 1 s
  select.climb size compar k (nmemb + 1) par_i s

/-- The loop that builds the heap, from `l` down. -/
def build (nmemb : Nat) : Nat → State α κ → Option (State α κ)
  | 0, s => some s
  | l + 1, s => do
      let s ← create size compar nmemb (nmemb + 1) (l + 1) s
      build nmemb l s

/-- The loop that saves the largest item into its final slot. -/
def drain : Nat → State α κ → Option (State α κ)
  | nmemb + 2, s => do
      let k ← load size ((nmemb + 2) * size) s
      let s ← copy size ((nmemb + 2) * size) size s
      let s ← select size compar (nmemb + 1) k s
      drain (nmemb + 1) s
  | _, s => some s

/-- `heapsort_r`, where `malloc` is whether there is memory for an item. -/
def heapsortR (malloc : Bool) (nmemb : Nat) (s : State α κ) : Option (Int × State α κ) :=
  if nmemb ≤ 1 then
    some (0, s)
  else if size = 0 then
    some (-1, s)
  else if !malloc then
    some (-1, s)
  else do
    let s ← build size compar nmemb (nmemb / 2) s
    let s ← drain size compar nmemb s
    return (0, s)

end BSDLibC.Heapsort
