import BSDLibC.Sorting.Arrays

/-! Heaps in an array, whose items are numbered from one: the parent of the item `j` is the item
`j / 2`. A hole is an item that may be out of order while it moves through the heap.
-/

namespace BSDLibC.Sorting

variable {α : Type*} {f : α → α → Int} {l n hole child i j : Nat} {xs ys : List α}

/-- The item `j` does not come after the item `i`. -/
def Below (f : α → α → Int) (xs : List α) (j i : Nat) : Prop :=
  ∀ x y, xs[j - 1]? = some x → xs[i - 1]? = some y → f x y ≤ 0

theorem Below.congr (below : Below f xs j i) (first : ys[j - 1]? = xs[j - 1]?)
    (second : ys[i - 1]? = xs[i - 1]?)
    : Below f ys j i := by
  intro x y found found'
  exact below x y (first ▸ found) (second ▸ found')

theorem Below.trans (order : TotalPreorder f) {k : Nat} (first : Below f xs i j)
    (second : Below f xs j k) (inside : j - 1 < xs.length)
    : Below f xs i k := by
  intro x y found found'
  have middle := List.getElem?_eq_getElem inside
  exact order.trans x xs[j - 1] y (first x _ found middle) (second _ y middle found')

/-- The items that come from `l` on are heaps, up to the item `n`. -/
def HeapFrom (f : α → α → Int) (l n : Nat) (xs : List α) : Prop :=
  ∀ j, l ≤ j / 2 → j ≤ n → Below f xs j (j / 2)

/-- The root of a heap comes last. -/
theorem HeapFrom.root (order : TotalPreorder f) (heap : HeapFrom f 1 n xs)
    (inside : n ≤ xs.length) (j : Nat) (first : 1 ≤ j) (last : j ≤ n)
    : Below f xs j 1 := by
  induction j using Nat.strongRecOn with
  | ind j ih =>
      by_cases root : j = 1
      · subst root
        intro x y found found'
        rw [found] at found'
        cases found'
        exact order.refl x
      · exact .trans order (heap j (by omega) last) (ih (j / 2) (by omega) (by omega) (by omega))
          (by omega)

/-- A heap but for the item at a hole, whose children are in order with its parent. -/
structure OffHole (f : α → α → Int) (l n hole : Nat) (xs : List α) : Prop where
  pairs (j : Nat) : l ≤ j / 2 → j ≤ n → j ≠ hole → j / 2 ≠ hole → Below f xs j (j / 2)
  grand (j : Nat) : j / 2 = hole → j ≤ n → l ≤ hole / 2 → Below f xs j (hole / 2)

/-- A heap whose first item is replaced. -/
theorem HeapFrom.offHole (heap : HeapFrom f 1 n xs) (less : i ≤ n)
    (same : ∀ k, 1 ≤ k → k < i → ys[k]? = xs[k]?)
    : OffHole f 1 i 1 ys where
  pairs j first last _ _ :=
    (heap j first (by omega)).congr (same _ (by omega) (by omega)) (same _ (by omega) (by omega))
  grand j _ _ first := by omega

/-- One more item stands before those that are heaps. -/
theorem HeapFrom.extend (heap : HeapFrom f (l + 1) n xs) (pos : 0 < l) : OffHole f l n l xs where
  pairs j first last _ other := heap j (by omega) last
  grand j _ _ first := by omega

/-- The hole is filled. -/
theorem OffHole.heap (off : OffHole f l n hole xs)
    (above : l ≤ hole / 2 → hole ≤ n → Below f xs hole (hole / 2))
    (below : ∀ j, j / 2 = hole → j ≤ n → Below f xs j hole)
    : HeapFrom f l n xs := by
  intro j first last
  by_cases atHole : j = hole
  · subst atHole
    exact above first last
  · by_cases atParent : j / 2 = hole
    · rw [atParent]
      exact below j atParent last
    · exact off.pairs j first last atHole atParent

section

variable (off : OffHole f l n hole xs) (pos : 0 < l)

include off pos

/-- The hole goes down, to the child that comes last. -/
theorem OffHole.down (some : 0 < hole) (parent : child / 2 = hole) (last : child ≤ n)
    (largest : ∀ j, j / 2 = hole → j ≤ n → Below f xs j child)
    (swapped : Swapped xs (hole - 1) (child - 1) ys)
    : OffHole f l n child ys := by
  have atHole : ys[hole - 1]? = xs[child - 1]? := swapped.left
  have old (k : Nat) (first : 0 < k) (notHole : k ≠ hole) (notChild : k ≠ child)
      : ys[k - 1]? = xs[k - 1]? :=
    swapped.others _ (by omega) (by omega)
  constructor
  case pairs =>
    intro j first last' notChild notParent
    by_cases up : j = hole
    · subst up
      intro x y found found'
      rw [atHole] at found
      rw [old _ (by omega) (by omega) (by omega)] at found'
      exact off.grand child parent last first x y found found'
    · by_cases sibling : j / 2 = hole
      · intro x y found found'
        rw [old j (by omega) up notChild] at found
        rw [sibling, atHole] at found'
        exact largest j sibling last' x y found found'
      · exact (off.pairs j first last' up sibling).congr (old j (by omega) up notChild)
          (old _ (by omega) sibling notParent)
  case grand =>
    intro j below last' first x y found found'
    rw [old j (by omega) (by omega) (by omega)] at found
    rw [parent, atHole] at found'
    refine off.pairs j (by omega) last' (by omega) (by omega) x y found ?_
    rw [below]
    exact found'

/-- The hole goes up, past a parent that does not come after it. -/
theorem OffHole.up (order : TotalPreorder f) (inside : n ≤ xs.length) (first : l ≤ hole / 2)
    (last : hole ≤ n) (above : Below f xs (hole / 2) hole)
    (swapped : Swapped xs (hole - 1) (hole / 2 - 1) ys)
    : OffHole f l n (hole / 2) ys
      ∧ ∀ j, j / 2 = hole / 2 → j ≤ n → Below f ys j (hole / 2) := by
  have atHole : ys[hole - 1]? = xs[hole / 2 - 1]? := swapped.left
  have atParent : ys[hole / 2 - 1]? = xs[hole - 1]? := swapped.right
  have old (k : Nat) (first : 0 < k) (notHole : k ≠ hole) (notParent : k ≠ hole / 2)
      : ys[k - 1]? = xs[k - 1]? :=
    swapped.others _ (by omega) (by omega)
  -- The items that stand below the parent now were below it before.
  have under (j : Nat) (child : j / 2 = hole / 2) (last' : j ≤ n) (i : Nat)
      (below : Below f xs (hole / 2) i) (x y : α) (found : ys[j - 1]? = some x)
      (found' : xs[i - 1]? = some y) : f x y ≤ 0 := by
    by_cases same : j = hole
    · subst same
      rw [atHole] at found
      exact below x y found found'
    · rw [old j (by omega) same (by omega)] at found
      have pair := off.pairs j (by omega) last' same (by omega)
      rw [child] at pair
      exact pair.trans order below (by omega) x y found found'
  refine ⟨⟨?_, ?_⟩, ?_⟩
  · intro j first' last' notParent notChild
    have notHole : j ≠ hole := by rintro rfl; exact notChild rfl
    by_cases child : j / 2 = hole
    · intro x y found found'
      rw [old j (by omega) notHole notParent] at found
      rw [child, atHole] at found'
      exact off.grand j child last' first x y found found'
    · exact (off.pairs j first' last' notHole child).congr (old j (by omega) notHole notParent)
        (old _ (by omega) child notChild)
  · intro j child last' first' x y found found'
    rw [old _ (by omega) (by omega) (by omega)] at found'
    exact under j child last' _ (off.pairs _ first' (by omega) (by omega) (by omega)) x y found
      found'
  · intro j child last' x y found found'
    rw [atParent] at found'
    exact under j child last' hole above x y found found'

end

end BSDLibC.Sorting
