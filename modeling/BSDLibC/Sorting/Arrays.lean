import Mathlib.Algebra.Order.Ring.Nat
import Mathlib.Data.List.Basic
import Mathlib.Tactic.Common

/-! Arrays that are rearranged in place, and comparison functions that order their elements.
-/

namespace BSDLibC.Sorting

variable {α : Type*}

/-- A three-way comparison by a total preorder: negative, zero or positive as the first argument
comes before the second, is as good as it or comes after it.
-/
structure TotalPreorder (compare : α → α → Int) : Prop where
  flip (x y : α) : 0 < compare x y ↔ compare y x < 0
  trans (x y z : α) : compare x y ≤ 0 → compare y z ≤ 0 → compare x z ≤ 0

section

variable {compare : α → α → Int} (order : TotalPreorder compare) {x y z : α}

include order

theorem TotalPreorder.refl (x : α) : compare x x ≤ 0 := by
  have := order.flip x x
  omega

theorem TotalPreorder.ge_of_le : compare x y ≤ 0 ↔ 0 ≤ compare y x := by
  have := order.flip x y
  omega

theorem TotalPreorder.zero_comm : compare x y = 0 ↔ compare y x = 0 := by
  have := order.flip x y
  have := order.flip y x
  omega

end

/-- What may be the answer to a comparison of two elements, whatever the comparison function keeps
from one call to the next.
-/
def Answers {κ : Type*} (cmp : κ → α → α → Int × κ) (told : α → α → Int → Prop) : Prop :=
  ∀ cookie x y, told x y (cmp cookie x y).1

/-- The answers are those of a total preorder. -/
structure Orders (told : α → α → Int → Prop) (f : α → α → Int) : Prop where
  order : TotalPreorder f
  answer (x y : α) (result : Int) : told x y result → result = f x y

/-- Two elements of an array trade places. -/
def swapAt (xs : List α) (i j : Nat) : Option (List α) := do
  let x ← xs[i]?
  let y ← xs[j]?
  return (xs.set i y).set j x

theorem swapAt_exists {xs : List α} {i j : Nat} (left : i < xs.length) (right : j < xs.length)
    : ∃ ys, swapAt xs i j = some ys := by
  simp [swapAt, left, right]

/-- What a trade does to each place. -/
structure Swapped (xs : List α) (i j : Nat) (ys : List α) : Prop where
  perm : ys.Perm xs
  left : ys[i]? = xs[j]?
  right : ys[j]? = xs[i]?
  others (k : Nat) : k ≠ i → k ≠ j → ys[k]? = xs[k]?

theorem swapAt_spec {xs ys : List α} {i j : Nat} (h : swapAt xs i j = some ys)
    : Swapped xs i j ys := by
  simp only [swapAt, Option.bind_eq_bind, Option.bind_eq_some_iff] at h
  obtain ⟨x, atI, y, atJ, h⟩ := h
  cases h
  obtain ⟨left, rfl⟩ := List.getElem?_eq_some_iff.mp atI
  obtain ⟨right, rfl⟩ := List.getElem?_eq_some_iff.mp atJ
  refine ⟨List.set_set_perm left right, ?_, ?_, ?_⟩
  · by_cases same : i = j
    · subst same
      simp [left]
    · rw [List.getElem?_set_ne (Ne.symm same), List.getElem?_set_self left,
        List.getElem?_eq_getElem right]
  · rw [List.getElem?_set_self (by simpa using right), List.getElem?_eq_getElem left]
  · intro k notI notJ
    rw [List.getElem?_set_ne (Ne.symm notJ), List.getElem?_set_ne (Ne.symm notI)]

/-- An element that is copied over a hole leaves its own place as the hole: with `z` in the hole these
are trades.
-/
theorem swapped_hole {xs : List α} {i j : Nat} {x : α} (z : α) (apart : i ≠ j)
    (inside : i < xs.length) (found : xs[j]? = some x)
    : Swapped (xs.set i z) i j ((xs.set i x).set j z) := by
  refine swapAt_spec ?_
  simp [swapAt, List.getElem?_set_self inside, List.getElem?_set_ne apart, found]

/-- The elements of `before` stand in `after` too, and only the places from `lo` on below `hi` have
elements of other such places.
-/
structure Rearranged (lo hi : Nat) (before after : List α) : Prop where
  perm : after.Perm before
  outside (k : Nat) : ¬ (lo ≤ k ∧ k < hi) → after[k]? = before[k]?
  inside (k : Nat) : lo ≤ k → k < hi → ∃ l, lo ≤ l ∧ l < hi ∧ after[k]? = before[l]?

section

variable {lo hi lo' hi' : Nat} {xs ys zs : List α}

theorem Rearranged.refl (lo hi : Nat) (xs : List α) : Rearranged lo hi xs xs :=
  ⟨.refl _, fun _ _ => rfl, fun k low high => ⟨k, low, high, rfl⟩⟩

theorem Rearranged.trans (first : Rearranged lo hi xs ys) (second : Rearranged lo hi ys zs)
    : Rearranged lo hi xs zs where
  perm := second.perm.trans first.perm
  outside k out := (second.outside k out).trans (first.outside k out)
  inside k low high := by
    obtain ⟨l, low, high, same⟩ := second.inside k low high
    obtain ⟨m, low, high, same'⟩ := first.inside l low high
    exact ⟨m, low, high, same.trans same'⟩

theorem Rearranged.widen (narrow : Rearranged lo hi xs ys) (below : lo' ≤ lo) (above : hi ≤ hi')
    : Rearranged lo' hi' xs ys where
  perm := narrow.perm
  outside k out := narrow.outside k (by omega)
  inside k low high := by
    by_cases within : lo ≤ k ∧ k < hi
    · obtain ⟨l, low, high, same⟩ := narrow.inside k within.1 within.2
      exact ⟨l, by omega, by omega, same⟩
    · exact ⟨k, low, high, narrow.outside k within⟩

theorem Rearranged.length_eq (moved : Rearranged lo hi xs ys) : ys.length = xs.length :=
  moved.perm.length_eq

/-- What holds of all elements of a range holds of them after they were rearranged. -/
theorem Rearranged.forall_mem {P : α → Prop} (moved : Rearranged lo hi xs ys)
    (all : ∀ k x, lo ≤ k → k < hi → xs[k]? = some x → P x)
    : ∀ k x, lo ≤ k → k < hi → ys[k]? = some x → P x := by
  intro k x low high found
  obtain ⟨l, low, high, same⟩ := moved.inside k low high
  exact all l x low high (same ▸ found)

/-- A trade is a rearrangement of any range that has both places. -/
theorem Swapped.rearranged {i j : Nat} (swapped : Swapped xs i j ys) (lo hi : Nat)
    (left : lo ≤ i ∧ i < hi) (right : lo ≤ j ∧ j < hi)
    : Rearranged lo hi xs ys where
  perm := swapped.perm
  outside k out := swapped.others k (by omega) (by omega)
  inside k low high := by
    by_cases atI : k = i
    · exact ⟨j, right.1, right.2, atI ▸ swapped.left⟩
    · by_cases atJ : k = j
      · exact ⟨i, left.1, left.2, atJ ▸ swapped.right⟩
      · exact ⟨k, low, high, swapped.others k atI atJ⟩

end

/-- The elements of a range are in ascending order. -/
def SortedOn (compare : α → α → Int) (lo hi : Nat) (xs : List α) : Prop :=
  ∀ i j x y, lo ≤ i → i < j → j < hi → xs[i]? = some x → xs[j]? = some y → compare x y ≤ 0

section

variable {compare : α → α → Int} {lo middle hi : Nat} {xs ys : List α}

/-- A range of at most one element is in order. -/
theorem sortedOn_of_le (short : hi ≤ lo + 1) : SortedOn compare lo hi xs := by
  intro i j x y low less high
  omega

/-- A part of a range in order is in order. -/
theorem SortedOn.mono (sorted : SortedOn compare lo hi xs) (less : middle ≤ hi)
    : SortedOn compare lo middle xs := by
  intro i j x y low before high
  exact sorted i j x y low before (Nat.lt_of_lt_of_le high less)

/-- A range stays in order while other places change. -/
theorem SortedOn.congr (sorted : SortedOn compare lo hi xs)
    (same : ∀ k, lo ≤ k → k < hi → ys[k]? = xs[k]?)
    : SortedOn compare lo hi ys := by
  intro i j x y low less high first second
  rw [same i low (by omega)] at first
  rw [same j (by omega) high] at second
  exact sorted i j x y low less high first second

/-- Two ranges in order, where the elements of the first come before those of the second. -/
theorem SortedOn.append (left : SortedOn compare lo middle xs) (right : SortedOn compare middle hi xs)
    (between : ∀ i j x y, lo ≤ i → i < middle → middle ≤ j → j < hi → xs[i]? = some x
      → xs[j]? = some y → compare x y ≤ 0)
    : SortedOn compare lo hi xs := by
  intro i j x y low less high first second
  by_cases before : j < middle
  · exact left i j x y low less before first second
  · by_cases after : middle ≤ i
    · exact right i j x y after less high first second
    · exact between i j x y low (by omega) (by omega) high first second

end

/-- A property of the elements of a range. -/
def Band (P : α → Prop) (lo hi : Nat) (xs : List α) : Prop :=
  ∀ k x, lo ≤ k → k < hi → xs[k]? = some x → P x

section

variable {P : α → Prop} {lo hi : Nat} {xs ys : List α}

theorem band_empty (none : hi ≤ lo) : Band P lo hi xs := by
  intro k x low high
  omega

theorem Band.congr (band : Band P lo hi xs) (same : ∀ k, lo ≤ k → k < hi → ys[k]? = xs[k]?)
    : Band P lo hi ys := by
  intro k x low high found
  rw [same k low high] at found
  exact band k x low high found

theorem Band.snoc (band : Band P lo hi xs) (last : ∀ x, xs[hi]? = some x → P x)
    : Band P lo (hi + 1) xs := by
  intro k x low high found
  by_cases same : k = hi
  · exact last x (same ▸ found)
  · exact band k x low (by omega) found

theorem Band.cons (band : Band P (lo + 1) hi xs) (first : ∀ x, xs[lo]? = some x → P x)
    : Band P lo hi xs := by
  intro k x low high found
  by_cases same : k = lo
  · exact first x (same ▸ found)
  · exact band k x (by omega) high found

end

-----------------------------------------------------------------------------------------
-- An element that goes down into a sorted range
-----------------------------------------------------------------------------------------

variable {f : α → α → Int} {a pl pm : Nat}

/-- The elements up to `pm` are in order, but for the one at `pl` after those before it. -/
def SortedBut (f : α → α → Int) (a pl pm : Nat) (xs : List α) : Prop :=
  ∀ i j x y, a ≤ i → i < j → j ≤ pm → j ≠ pl → xs[i]? = some x → xs[j]? = some y → f x y ≤ 0

/-- The element at `pl` goes down by one place. -/
theorem SortedBut.step {xs ys : List α} (order : TotalPreorder f)
    (h : SortedBut f a (pl + 1) pm xs) (more : a ≤ pl) (last : pl < pm)
    (above : ∀ x y, xs[pl]? = some x → xs[pl + 1]? = some y → f x y > 0)
    (swapped : Swapped xs (pl + 1) pl ys)
    : SortedBut f a pl pm ys := by
  have old (k : Nat) (at₁ : k ≠ pl + 1) (at₂ : k ≠ pl) : ys[k]? = xs[k]? :=
    swapped.others k at₁ at₂
  intro i j x y low less high other first second
  by_cases atJ : j = pl + 1
  · subst atJ
    rw [swapped.left] at second
    by_cases atI : i = pl
    · subst atI
      rw [swapped.right] at first
      have := (order.flip y x).mp (above y x second first)
      omega
    · rw [old i (by omega) atI] at first
      exact h i pl x y low (by omega) (by omega) (by omega) first second
  · rw [old j atJ other] at second
    by_cases atI : i = pl
    · subst atI
      rw [swapped.right] at first
      exact h (i + 1) j x y (by omega) (by omega) high atJ first second
    · by_cases atI' : i = pl + 1
      · subst atI'
        rw [swapped.left] at first
        exact h pl j x y more (by omega) high atJ first second
      · rw [old i atI' atI] at first
        exact h i j x y low less high atJ first second

/-- The element at `pl` is not below the one before it. -/
theorem SortedBut.stop {xs : List α} (order : TotalPreorder f) (h : SortedBut f a pl pm xs)
    (inside : pm < xs.length)
    (above : a < pl → ∀ x y, xs[pl - 1]? = some x → xs[pl]? = some y → f x y ≤ 0)
    : SortedOn f a (pm + 1) xs := by
  intro i j x y low less high first second
  by_cases other : j = pl
  · subst other
    by_cases next : i = j - 1
    · exact above (by omega) x y (next ▸ first) second
    · have between : xs[j - 1]? = some xs[j - 1] := List.getElem?_eq_getElem (by omega)
      exact order.trans x xs[j - 1] y
        (h i (j - 1) x _ low (by omega) (by omega) (by omega) first between)
        (above (by omega) _ y between second)
  · exact h i j x y low less (by omega) other first second

end BSDLibC.Sorting
