import BSDLibC.Qsort.Partition

/-! One round of `qsort_r`: the choice of the element to divide by, the partition and the two block
swaps. Pointers are numbers of elements here.
-/

namespace BSDLibC.Qsort
open BSDLibC.Sorting

variable {α κ : Type} {cmp : κ → α → α → Int × κ}

-----------------------------------------------------------------------------------------
-- Block swaps
-----------------------------------------------------------------------------------------

/-- Two blocks of an array have traded places. -/
structure BlocksSwapped (count p q : Nat) (xs ys : List α) : Prop where
  left (k : Nat) : k < count → ys[p + k]? = xs[q + k]?
  right (k : Nat) : k < count → ys[q + k]? = xs[p + k]?
  others (k : Nat) : ¬ (p ≤ k ∧ k < p + count) → ¬ (q ≤ k ∧ k < q + count) → ys[k]? = xs[k]?

/-- One more element at the front of each block. -/
theorem BlocksSwapped.cons {count p q : Nat} {xs ys zs : List α} (apart : p + (count + 1) ≤ q)
    (swapped : Swapped xs p q ys) (rest : BlocksSwapped count (p + 1) (q + 1) ys zs)
    : BlocksSwapped (count + 1) p q xs zs where
  left k less := by
    cases k with
    | zero => exact (rest.others p (by omega) (by omega)).trans swapped.left
    | succ k =>
        rw [Nat.add_comm k 1, ← Nat.add_assoc, ← Nat.add_assoc, rest.left k (by omega)]
        exact swapped.others _ (by omega) (by omega)
  right k less := by
    cases k with
    | zero => exact (rest.others q (by omega) (by omega)).trans swapped.right
    | succ k =>
        rw [Nat.add_comm k 1, ← Nat.add_assoc, ← Nat.add_assoc, rest.right k (by omega)]
        exact swapped.others _ (by omega) (by omega)
  others k outP outQ := by
    rw [rest.others k (by omega) (by omega)]
    exact swapped.others k (by omega) (by omega)

theorem swapcode_spec {count p q lo hi : Nat} {s : State α κ} (left : lo ≤ p ∧ p + count ≤ hi)
    (right : lo ≤ q ∧ q + count ≤ hi) (inside : hi ≤ s.array.length)
    : ∃ s', swapcode 1 count p q s = some s' ∧ Rearranged lo hi s.array s'.array
      ∧ (p + count ≤ q → BlocksSwapped count p q s.array s'.array) := by
  induction count generalizing p q s with
  | zero =>
      exact ⟨s, rfl, .refl _ _ _, fun _ =>
        ⟨fun _ less => by omega, fun _ less => by omega, fun _ _ _ => rfl⟩⟩
  | succ count ih =>
      obtain ⟨s₁, traded, swapped⟩ := swap_spec s p q (by omega) (by omega)
      have step := swapped.rearranged lo hi (by omega) (by omega)
      obtain ⟨s', loop, moved, blocks⟩ := ih (by omega : lo ≤ p + 1 ∧ p + 1 + count ≤ hi)
        (by omega : lo ≤ q + 1 ∧ q + 1 + count ≤ hi) (step.length_eq ▸ inside)
      rw [swapcode, traded]
      exact ⟨s', loop, step.trans moved, fun apart => .cons apart swapped (blocks (by omega))⟩

/-- The shorter of two neighbouring ranges trades places with the far end of the longer one. -/
theorem BlocksSwapped.bands {P Q : α → Prop} {lo middle hi count : Nat} {xs ys : List α}
    (left : lo ≤ middle) (right : middle ≤ hi) (size : count = min (middle - lo) (hi - middle))
    (blocks : BlocksSwapped count lo (hi - count) xs ys)
    (first : Band P lo middle xs) (second : Band Q middle hi xs)
    : Band Q lo (lo + (hi - middle)) ys ∧ Band P (lo + (hi - middle)) hi ys := by
  constructor
  · intro k x low high found
    by_cases moved : k < lo + count
    · have place : ys[lo + (k - lo)]? = _ := blocks.left (k - lo) (by omega)
      rw [Nat.add_sub_cancel' low, found] at place
      exact second _ x (by omega) (by omega) place.symm
    · rw [blocks.others k (by omega) (by omega)] at found
      exact second k x (by omega) (by omega) found
  · intro k x low high found
    by_cases moved : hi - count ≤ k
    · have place : ys[hi - count + (k - (hi - count))]? = _ :=
        blocks.right (k - (hi - count)) (by omega)
      rw [Nat.add_sub_cancel' moved, found] at place
      exact first _ x (by omega) (by omega) place.symm
    · rw [blocks.others k (by omega) (by omega)] at found
      exact first k x (by omega) (by omega) found

-----------------------------------------------------------------------------------------
-- The element to divide by
-----------------------------------------------------------------------------------------

section

variable (s : State α κ)

/-- `med3` gives one of its three elements. -/
theorem med3_spec (cmp : κ → α → α → Int × κ) (lo hi a b c : Nat) (first : lo ≤ a ∧ a < hi)
    (second : lo ≤ b ∧ b < hi) (third : lo ≤ c ∧ c < hi) (inside : hi ≤ s.array.length)
    : ∃ m s', med3 1 cmp a b c s = some (m, s') ∧ s'.array = s.array ∧ lo ≤ m ∧ m < hi := by
  have any : Answers cmp fun _ _ _ => True := fun _ _ _ => trivial
  obtain ⟨ab, s₁, call₁, kept₁, -⟩ := compare_spec s a b any (by omega) (by omega)
  rw [← kept₁] at inside ⊢
  obtain ⟨bc, s₂, call₂, kept₂, -⟩ := compare_spec s₁ b c any (by omega) (by omega)
  rw [← kept₂] at inside ⊢
  obtain ⟨ac, s₃, call₃, kept₃, -⟩ := compare_spec s₂ a c any (by omega) (by omega)
  rw [med3]
  simp only [call₁, call₂, call₃, Option.bind_eq_bind, Option.bind_some]
  split <;> split
  · exact ⟨b, s₂, rfl, rfl, second⟩
  · refine ⟨_, s₃, rfl, kept₃, ?_⟩
    split <;> assumption
  · exact ⟨b, s₂, rfl, rfl, second⟩
  · refine ⟨_, s₃, rfl, kept₃, ?_⟩
    split <;> assumption

/-- The element to divide by is one of the range. -/
theorem median_spec (cmp : κ → α → α → Int × κ) {a n : Nat} (some : 0 < n)
    (inside : a + n ≤ s.array.length)
    : ∃ m s', median 1 cmp a n s = .some (m, s') ∧ s'.array = s.array ∧ a ≤ m ∧ m < a + n := by
  simp only [median, Nat.mul_one]
  split
  next many =>
    split
    next =>
      obtain ⟨pl, s₁, call₁, kept₁, mem₁⟩ := med3_spec s cmp a (a + n) a (a + n / 8)
        (a + 2 * (n / 8)) (by omega) (by omega) (by omega) inside
      rw [← kept₁] at inside ⊢
      obtain ⟨pm, s₂, call₂, kept₂, mem₂⟩ := med3_spec s₁ cmp a (a + n) (a + n / 2 - n / 8) (a + n / 2)
        (a + n / 2 + n / 8) (by omega) (by omega) (by omega) inside
      rw [← kept₂] at inside ⊢
      obtain ⟨pn, s₃, call₃, kept₃, mem₃⟩ := med3_spec s₂ cmp a (a + n) (a + (n - 1) - 2 * (n / 8))
        (a + (n - 1) - n / 8) (a + (n - 1)) (by omega) (by omega) (by omega) inside
      rw [← kept₃] at inside ⊢
      simp only [call₁, call₂, call₃, Option.bind_eq_bind, Option.bind_some]
      exact med3_spec s₃ cmp a (a + n) pl pm pn mem₁ mem₂ mem₃ inside
    next =>
      exact med3_spec s cmp a (a + n) a (a + n / 2) (a + (n - 1)) (by omega) (by omega) (by omega)
        inside
  next =>
    exact ⟨_, s, rfl, rfl, by omega, by omega⟩

end

-----------------------------------------------------------------------------------------
-- One round
-----------------------------------------------------------------------------------------

/-- An element that is as good as the one that the round divides by, or is this one. -/
def Same (told : α → α → Int → Prop) (v x : α) : Prop := x = v ∨ told x v 0

/-- The array after a round: the elements before, those as good and those after. -/
structure Divided (told : α → α → Int → Prop) (a hi r size : Nat) (v : α) (xs : List α)
    : Prop where
  room : a + r + size ≤ hi
  less : Band (Less told v) a (a + r) xs
  same : Band (Same told v) (a + r) (hi - size) xs
  more : Band (More told v) (hi - size) hi xs

/-- The two block swaps move the elements that are as good to the middle. -/
theorem Parted.divided {told : α → α → Int → Prop} {v : α} {a hi pa pb pc pd : Nat}
    {xs ys zs : List α} (h : Parted told v a hi pa pb pc pd xs) (meet : pb = pc + 1)
    (first : BlocksSwapped (min (pa - a) (pb - pa)) a (pb - min (pa - a) (pb - pa)) xs ys)
    (second : BlocksSwapped (min (pd - pc) (hi - pd - 1)) pb
      (hi - min (pd - pc) (hi - pd - 1)) ys zs)
    : Divided told a hi (pb - pa) (pd - pc) v zs := by
  have ⟨low, left, _, right, last, _, pivot, _, _, _, _⟩ := h
  have front : Band (Same told v) a pa xs := by
    refine Band.cons (fun k x low high found => .inr (h.same k x low high found)) ?_
    intro x found
    rw [pivot] at found
    exact .inl (Option.some_inj.mp found).symm
  have ⟨less, same⟩ := first.bands (by omega) (by omega) rfl front h.less
  have more : Band (More told v) pb (pd + 1) ys := by
    rw [meet]
    exact h.more.congr fun k low high => first.others k (by omega) (by omega)
  have equal : Band (Same told v) (pd + 1) hi ys := by
    intro k x low high found
    rw [first.others k (by omega) (by omega)] at found
    exact .inr (h.equal k x low high found)
  have ⟨same', more'⟩ := second.bands (by omega) (by omega) (by omega) more equal
  constructor
  case room => omega
  case less => exact less.congr fun k low high => second.others k (by omega) (by omega)
  case same =>
    intro k x low high found
    by_cases before : k < pb
    · rw [second.others k (by omega) (by omega)] at found
      exact same k x low before found
    · exact same' k x (by omega) (by omega) found
  case more =>
    intro k x low high found
    exact more' k x (by omega) high found

section

variable {told : α → α → Int → Prop} (answers : Answers cmp told) {a n : Nat} {s : State α κ}

include answers

/-- A round leaves two sides that are smaller than its range. -/
theorem divide_spec (some : 0 < n) (inside : a + n ≤ s.array.length)
    : ∃ r size s', divide 1 cmp a n s = .some (r, size, s')
      ∧ Rearranged a (a + n) s.array s'.array ∧ r < n ∧ size < n
      ∧ ((∀ v x, ¬ (Less told v x ∧ More told v x))
        → ∃ v, Divided told a (a + n) r size v s'.array) := by
  obtain ⟨m, s₁, chosen, kept, low, high⟩ := median_spec s cmp some inside
  rw [← kept] at inside ⊢
  obtain ⟨s₂, traded, swapped⟩ := swap_spec s₁ a m (by omega) (by omega)
  have moved₁ := swapped.rearranged a (a + n) (by omega) (by omega)
  have length₁ := moved₁.length_eq
  obtain ⟨v, pivot⟩ : ∃ v, s₂.array[a]? = .some v :=
    ⟨s₂.array[a], List.getElem?_eq_getElem (by omega)⟩
  have start : Parted told v a (a + n) (a + 1) (a + 1) (a + (n - 1)) (a + (n - 1)) s₂.array :=
    { first := by omega, left := Nat.le_refl _, meet := by omega, right := Nat.le_refl _,
      last := by omega, inside := by omega, pivot := pivot, same := band_empty (Nat.le_refl _),
      less := band_empty (Nat.le_refl _), more := band_empty (Nat.le_refl _),
      equal := band_empty (by omega) }
  obtain ⟨⟨pa, pb, pc, pd⟩, s₃, parting, moved₂, crossed, parted⟩ :=
    partition_spec answers rfl (by omega : a + (n - 1) + 1 < a + 1 + (n + 1)) start
  have ⟨first, left, cross, near, start, right, end_, last⟩ := crossed
  simp only at first left cross near start right end_ last
  have length₂ := moved₂.length_eq
  obtain ⟨s₄, front, moved₃, blocks₁⟩ := swapcode_spec (s := s₃)
    (by omega : a ≤ a ∧ a + min (pa - a) (pb - pa) ≤ a + n)
    (by omega : a ≤ pb - min (pa - a) (pb - pa) ∧
      pb - min (pa - a) (pb - pa) + min (pa - a) (pb - pa) ≤ a + n) (by omega)
  have length₃ := moved₃.length_eq
  obtain ⟨s₅, back, moved₄, blocks₂⟩ := swapcode_spec (s := s₄)
    (by omega : a ≤ pb ∧ pb + min (pd - pc) (a + n - pd - 1) ≤ a + n)
    (by omega : a ≤ a + n - min (pd - pc) (a + n - pd - 1) ∧
      a + n - min (pd - pc) (a + n - pd - 1) + min (pd - pc) (a + n - pd - 1) ≤ a + n) (by omega)
  refine ⟨pb - pa, pd - pc, s₅, ?_, ?_, by omega, by omega, fun consistent => ?_⟩
  · simp [divide, vecswap, place, chosen, traded, parting, front, back]
  · exact ((moved₁.trans (moved₂.widen (by omega) (Nat.le_refl _))).trans moved₃).trans moved₄
  · obtain ⟨meet, parted⟩ := parted (consistent v)
    exact ⟨v, parted.divided meet (blocks₁ (by omega)) (blocks₂ (by simp only at meet; omega))⟩

end

end BSDLibC.Qsort
