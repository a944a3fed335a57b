import BSDLibC.Qsort.Sort
import BSDLibC.Sorting.Arrays

/-! The partition of `qsort_r` by the answers that the comparison function gives, whether or not
they make sense together. Pointers are numbers of elements here.
-/

namespace BSDLibC.Qsort
open BSDLibC.Sorting

variable {α κ : Type} {cmp : κ → α → α → Int × κ}

-----------------------------------------------------------------------------------------
-- Single steps
-----------------------------------------------------------------------------------------

section

variable {told : α → α → Int → Prop} (s : State α κ) (i j : Nat)

theorem compare_spec (answers : Answers cmp told) (left : i < s.array.length)
    (right : j < s.array.length)
    : ∃ result s', compare 1 cmp i j s = some (result, s') ∧ s'.array = s.array
      ∧ ∀ x y, s.array[i]? = some x → s.array[j]? = some y → told x y result := by
  refine ⟨(cmp s.cookie s.array[i] s.array[j]).1,
    { s with cookie := (cmp s.cookie s.array[i] s.array[j]).2 }, ?_, rfl, ?_⟩
  · simp [compare, place, left, right]
  · intro x y first second
    obtain ⟨_, rfl⟩ := List.getElem?_eq_some_iff.mp first
    obtain ⟨_, rfl⟩ := List.getElem?_eq_some_iff.mp second
    exact answers _ _ _

theorem swap_spec (left : i < s.array.length) (right : j < s.array.length)
    : ∃ s', swap 1 i j s = some s' ∧ Swapped s.array i j s'.array := by
  obtain ⟨array, h⟩ := swapAt_exists left right
  exact ⟨{ s with array := array }, by simp [swap, place, h], swapAt_spec h⟩

@[simp]
theorem down_succ (k : Nat) : down 1 (k + 1) = some k := by simp [down]

end

-----------------------------------------------------------------------------------------
-- The loops
-----------------------------------------------------------------------------------------

/-- What the answers said about an element next to the one that the partition divides by. -/
def Less (told : α → α → Int → Prop) (v x : α) : Prop := ∃ result < 0, told x v result

def More (told : α → α → Int → Prop) (v x : α) : Prop := ∃ result > 0, told x v result

/-- The four ends of the array that the partition has gone through. -/
structure Parted (told : α → α → Int → Prop) (v : α) (a hi pa pb pc pd : Nat) (xs : List α)
    : Prop where
  first : a < pa
  left : pa ≤ pb
  meet : pb ≤ pc + 1
  right : pc ≤ pd
  last : pd < hi
  inside : hi ≤ xs.length
  pivot : xs[a]? = some v
  same : Band (told · v 0) (a + 1) pa xs
  less : Band (Less told v) pa pb xs
  more : Band (More told v) (pc + 1) (pd + 1) xs
  equal : Band (told · v 0) (pd + 1) hi xs

section

variable {told : α → α → Int → Prop} {v : α} {a hi pa pb pc pd : Nat} {xs ys : List α}

/-- One more element that comes before. -/
theorem Parted.up_less (h : Parted told v a hi pa pb pc pd xs) (more : pb ≤ pc)
    (below : ∀ x, xs[pb]? = some x → Less told v x)
    : Parted told v a hi pa (pb + 1) pc pd xs :=
  { h with
    left := Nat.le_succ_of_le h.left
    meet := Nat.succ_le_succ more
    less := h.less.snoc below }

/-- One more element that is as good, and goes to the front. -/
theorem Parted.up_same (h : Parted told v a hi pa pb pc pd xs) (more : pb ≤ pc)
    (equal : ∀ x, xs[pb]? = some x → told x v 0) (swapped : Swapped xs pa pb ys)
    : Parted told v a hi (pa + 1) (pb + 1) pc pd ys := by
  have ⟨first, left, meet, right, last, inside, pivot, _, _, _, _⟩ := h
  constructor
  case first => exact Nat.lt_succ_of_lt first
  case left => exact Nat.succ_le_succ left
  case meet => exact Nat.succ_le_succ more
  case right => exact right
  case last => exact last
  case inside => exact swapped.perm.length_eq ▸ inside
  case pivot => exact (swapped.others a (by omega) (by omega)).trans pivot
  case same =>
    refine (h.same.congr fun k low high => ?_).snoc fun x found => equal x ?_
    · exact swapped.others k (by omega) (by omega)
    · exact swapped.left ▸ found
  case less =>
    intro k x low high found
    by_cases atEnd : k = pb
    · subst atEnd
      rw [swapped.right] at found
      exact h.less pa x (Nat.le_refl _) (by omega) found
    · rw [swapped.others k (by omega) atEnd] at found
      exact h.less k x (by omega) (by omega) found
  case more =>
    exact h.more.congr fun k low high => swapped.others k (by omega) (by omega)
  case equal =>
    exact h.equal.congr fun k low high => swapped.others k (by omega) (by omega)

/-- One more element that comes after. -/
theorem Parted.down_more (h : Parted told v a hi pa pb (pc + 1) pd xs) (more : pb ≤ pc + 1)
    (above : ∀ x, xs[pc + 1]? = some x → More told v x)
    : Parted told v a hi pa pb pc pd xs :=
  { h with
    meet := more
    right := Nat.le_of_succ_le h.right
    more := h.more.cons above }

/-- One more element that is as good, and goes to the end. -/
theorem Parted.down_same (h : Parted told v a hi pa pb (pc + 1) (pd + 1) xs) (more : pb ≤ pc + 1)
    (equal : ∀ x, xs[pc + 1]? = some x → told x v 0) (swapped : Swapped xs (pc + 1) (pd + 1) ys)
    : Parted told v a hi pa pb pc pd ys := by
  have ⟨first, left, meet, right, last, inside, pivot, _, _, _, _⟩ := h
  constructor
  case first => exact first
  case left => exact left
  case meet => exact more
  case right => exact Nat.le_of_succ_le_succ right
  case last => exact Nat.lt_of_succ_lt last
  case inside => exact swapped.perm.length_eq ▸ inside
  case pivot => exact (swapped.others a (by omega) (by omega)).trans pivot
  case same =>
    exact h.same.congr fun k low high => swapped.others k (by omega) (by omega)
  case less =>
    exact h.less.congr fun k low high => swapped.others k (by omega) (by omega)
  case more =>
    intro k x low high found
    by_cases atStart : k = pc + 1
    · subst atStart
      rw [swapped.left] at found
      exact h.more (pd + 1) x (by omega) (by omega) found
    · rw [swapped.others k atStart (by omega)] at found
      exact h.more k x (by omega) (by omega) found
  case equal =>
    refine (h.equal.congr fun k low high => ?_).cons fun x found => equal x ?_
    · exact swapped.others k (by omega) (by omega)
    · exact swapped.right ▸ found

/-- Two elements on the wrong sides trade them. -/
theorem Parted.exchange (h : Parted told v a hi pa pb (pc + 1) pd xs) (apart : pb < pc + 1)
    (above : ∀ x, xs[pb]? = some x → More told v x)
    (below : ∀ x, xs[pc + 1]? = some x → Less told v x) (swapped : Swapped xs pb (pc + 1) ys)
    : Parted told v a hi pa (pb + 1) pc pd ys := by
  have ⟨first, left, meet, right, last, inside, pivot, _, _, _, _⟩ := h
  constructor
  case first => exact first
  case left => exact Nat.le_succ_of_le left
  case meet => exact apart
  case right => exact Nat.le_of_succ_le right
  case last => exact last
  case inside => exact swapped.perm.length_eq ▸ inside
  case pivot => exact (swapped.others a (by omega) (by omega)).trans pivot
  case same =>
    exact h.same.congr fun k low high => swapped.others k (by omega) (by omega)
  case less =>
    refine (h.less.congr fun k low high => ?_).snoc fun x found => below x ?_
    · exact swapped.others k (by omega) (by omega)
    · exact swapped.left ▸ found
  case more =>
    refine (h.more.congr fun k low high => ?_).cons fun x found => above x ?_
    · exact swapped.others k (by omega) (by omega)
    · exact swapped.right ▸ found
  case equal =>
    exact h.equal.congr fun k low high => swapped.others k (by omega) (by omega)

end

section

variable {told : α → α → Int → Prop} (answers : Answers cmp told) {v : α}
  {a hi pa pb pc pd : Nat} {s : State α κ}

include answers

/-- The loop that moves `pb` up stops at an element that comes after, or behind `pc`. -/
theorem up_spec {bound : Nat} (enough : pc + 1 < pb + bound)
    (h : Parted told v a hi pa pb pc pd s.array)
    : ∃ pa' pb' s', partition.up 1 cmp a pc bound pa pb s = some (pa', pb', s')
      ∧ Parted told v a hi pa' pb' pc pd s'.array ∧ Rearranged (a + 1) hi s.array s'.array
      ∧ pb ≤ pb' ∧ (pb' ≤ pc → ∀ x, s'.array[pb']? = some x → More told v x) := by
  induction bound generalizing pa pb s with
  | zero =>
      have := h.meet
      omega
  | succ bound ih =>
      have ⟨first, left, meet, right, last, inside, pivot, _, _, _, _⟩ := h
      rw [partition.up]
      by_cases more : pb ≤ pc
      · obtain ⟨result, s₁, call, kept, answer⟩ :=
          compare_spec s pb a answers (by omega) (by omega)
        rw [← kept] at h
        rw [if_pos more, call]
        simp only [Option.bind_eq_bind, Option.bind_some]
        split
        next negative =>
          obtain ⟨pa', pb', s', loop, parted, moved, far, stop⟩ := ih (by omega)
            (h.up_less more fun x found => ⟨result, negative, answer x v (kept ▸ found) pivot⟩)
          exact ⟨pa', pb', s', loop, parted, kept ▸ moved, by omega, stop⟩
        next =>
          split
          next zero =>
            subst zero
            obtain ⟨s₂, traded, swapped⟩ := swap_spec s₁ pa pb
              (by rw [kept]; omega) (by rw [kept]; omega)
            rw [traded]
            obtain ⟨pa', pb', s', loop, parted, moved, far, stop⟩ := ih (by omega)
              (h.up_same more (fun x found => answer x v (kept ▸ found) pivot) swapped)
            have step := swapped.rearranged (a + 1) hi (by omega) (by omega)
            exact ⟨pa', pb', s', loop, parted, kept ▸ step.trans moved, by omega, stop⟩
          next nonneg nonzero =>
            exact ⟨pa, pb, s₁, rfl, h, kept ▸ .refl _ _ _, Nat.le_refl _, fun _ x found =>
              ⟨result, by omega, answer x v (kept ▸ found) pivot⟩⟩
      · rw [if_neg more]
        exact ⟨pa, pb, s, rfl, h, .refl _ _ _, Nat.le_refl _, fun le => absurd le more⟩

/-- The loop that moves `pc` down stops at an element that comes before, or below `pb`. -/
theorem down_spec {bound : Nat} (enough : pc + 1 < pb + bound)
    (h : Parted told v a hi pa pb pc pd s.array)
    : ∃ pc' pd' s', partition.down 1 cmp a pb bound pc pd s = some (pc', pd', s')
      ∧ Parted told v a hi pa pb pc' pd' s'.array ∧ Rearranged (a + 1) hi s.array s'.array
      ∧ pc' ≤ pc ∧ (∀ k, k ≤ pc' → s'.array[k]? = s.array[k]?)
      ∧ (pb ≤ pc' → ∀ x, s'.array[pc']? = some x → Less told v x) := by
  induction bound generalizing pc pd s with
  | zero =>
      have := h.meet
      omega
  | succ bound ih =>
      have ⟨first, left, meet, right, last, inside, pivot, _, _, _, _⟩ := h
      rw [partition.down]
      by_cases more : pb ≤ pc
      · obtain ⟨result, s₁, call, kept, answer⟩ :=
          compare_spec s pc a answers (by omega) (by omega)
        rw [← kept] at h
        rw [if_pos more, call]
        simp only [Option.bind_eq_bind, Option.bind_some]
        obtain ⟨pc, rfl⟩ := Nat.exists_eq_succ_of_ne_zero (by omega : pc ≠ 0)
        split
        next positive =>
          obtain ⟨pc', pd', s', loop, parted, moved, far, below, stop⟩ := ih (by omega)
            (h.down_more more fun x found => ⟨result, positive, answer x v (kept ▸ found) pivot⟩)
          rw [Nat.succ_eq_add_one, down_succ, Option.bind_some]
          exact ⟨pc', pd', s', loop, parted, kept ▸ moved, by omega,
            fun k le => kept ▸ below k le, stop⟩
        next =>
          split
          next zero =>
            subst zero
            obtain ⟨pd, rfl⟩ := Nat.exists_eq_succ_of_ne_zero (by omega : pd ≠ 0)
            obtain ⟨s₂, traded, swapped⟩ := swap_spec s₁ (pc + 1) (pd + 1)
              (by rw [kept]; omega) (by rw [kept]; omega)
            obtain ⟨pc', pd', s', loop, parted, moved, far, below, stop⟩ := ih (by omega)
              (h.down_same more (fun x found => answer x v (kept ▸ found) pivot) swapped)
            have step := swapped.rearranged (a + 1) hi (by omega) (by omega)
            rw [Nat.succ_eq_add_one, Nat.succ_eq_add_one, traded, Option.bind_some, down_succ,
              Option.bind_some, down_succ, Option.bind_some]
            exact ⟨pc', pd', s', loop, parted, kept ▸ step.trans moved, by omega, fun k le =>
              kept ▸ (below k le).trans (swapped.others k (by omega) (by omega)), stop⟩
          next nonpos nonzero =>
            exact ⟨pc + 1, pd, s₁, rfl, h, kept ▸ .refl _ _ _, Nat.le_refl _,
              fun k _ => by rw [kept], fun _ x found =>
              ⟨result, by omega, answer x v (kept ▸ found) pivot⟩⟩
      · rw [if_neg more]
        exact ⟨pc, pd, s, rfl, h, .refl _ _ _, Nat.le_refl _, fun _ _ => rfl,
          fun le => absurd le more⟩

omit answers

/-- Where the partition ends, whatever the answers were. -/
structure Bounds.Crossed (b : Bounds) (a hi : Nat) : Prop where
  first : a < b.pa
  left : b.pa ≤ b.pb
  crossed : b.pc < b.pb
  near : b.pb ≤ b.pc + 2
  start : a ≤ b.pc
  right : b.pc ≤ b.pd
  end_ : b.pb ≤ b.pd + 1
  last : b.pd < hi

/-- Pointers that have crossed stay where they are. -/
theorem partition_crossed (crossed : pc < pb) {n bound : Nat} (some : 0 < n)
    : partition 1 cmp a n (bound + 1) ⟨pa, pb, pc, pd⟩ s = .some (⟨pa, pb, pc, pd⟩, s) := by
  obtain ⟨n, rfl⟩ := Nat.exists_eq_succ_of_ne_zero (Nat.ne_of_gt some)
  have past : ¬ pb ≤ pc := Nat.not_le_of_lt crossed
  simp [partition, partition.up, partition.down, past, crossed]

include answers

/-- The partition ends with the array divided, unless two answers about one element contradict each
other.
-/
theorem partition_spec {n bound : Nat} (size : hi = a + n) (enough : pc + 1 < pb + bound)
    (h : Parted told v a hi pa pb pc pd s.array)
    : ∃ b s', partition 1 cmp a n bound ⟨pa, pb, pc, pd⟩ s = some (b, s')
      ∧ Rearranged (a + 1) hi s.array s'.array ∧ b.Crossed a hi
      ∧ ((∀ x, ¬ (Less told v x ∧ More told v x))
        → b.pb = b.pc + 1 ∧ Parted told v a hi b.pa b.pb b.pc b.pd s'.array) := by
  induction bound generalizing pa pb pc pd s with
  | zero =>
      have := h.meet
      omega
  | succ bound ih =>
      have ⟨first, left, meet, right, last, _, _, _, _, _, _⟩ := h
      obtain ⟨pa₁, pb₁, s₁, up, parted₁, moved₁, far₁, stop₁⟩ :=
        up_spec answers (by omega : pc + 1 < pb + n) h
      have ⟨first₁, left₁, meet₁, _, _, _, _, _, _, _, _⟩ := parted₁
      obtain ⟨pc₁, pd₁, s₂, down, parted₂, moved₂, far₂, kept, stop₂⟩ :=
        down_spec answers (by omega : pc + 1 < pb₁ + n) parted₁
      have ⟨_, _, meet₂, right₂, last₂, inside₂, _, _, _, _, _⟩ := parted₂
      rw [partition, up]
      simp only [Option.bind_eq_bind, Option.bind_some, down]
      split
      next crossed =>
        refine ⟨_, s₂, rfl, moved₁.trans moved₂, ?_, fun _ => ⟨by simp only; omega, parted₂⟩⟩
        constructor <;> simp only <;> omega
      next apart =>
        obtain ⟨pc₁, rfl⟩ := Nat.exists_eq_succ_of_ne_zero (by omega : pc₁ ≠ 0)
        obtain ⟨s₃, traded, swapped⟩ := swap_spec s₂ pb₁ (pc₁ + 1) (by omega) (by omega)
        have step := swapped.rearranged (a + 1) hi (by omega) (by omega)
        have above : ∀ x, s₂.array[pb₁]? = some x → More told v x := by
          intro x found
          exact stop₁ (by omega) x (kept pb₁ (by omega) ▸ found)
        have below := stop₂ (by omega)
        rw [Nat.succ_eq_add_one, traded, Option.bind_some, down_succ, Option.bind_some]
        by_cases together : pb₁ = pc₁ + 1
        · -- The two loops have stopped at the same element, with answers of different signs.
          obtain ⟨bound, rfl⟩ := Nat.exists_eq_succ_of_ne_zero (by omega : bound ≠ 0)
          rw [partition_crossed (by omega) (by omega)]
          refine ⟨_, s₃, rfl, (moved₁.trans moved₂).trans step, ?_, fun consistent => ?_⟩
          · constructor <;> simp only <;> omega
          · obtain ⟨x, found⟩ : ∃ x, s₂.array[pb₁]? = some x :=
              ⟨s₂.array[pb₁], List.getElem?_eq_getElem (by omega)⟩
            have less := below x (by rw [Nat.succ_eq_add_one, ← together]; exact found)
            exact absurd ⟨less, above x found⟩ (consistent x)
        · obtain ⟨b, s', loop, moved, crossed, divided⟩ :=
            ih (by omega) (parted₂.exchange (by omega) above below swapped)
          exact ⟨b, s', loop, ((moved₁.trans moved₂).trans step).trans moved, crossed, divided⟩

end

-----------------------------------------------------------------------------------------
-- The insertion sort
-----------------------------------------------------------------------------------------

variable {told : α → α → Int → Prop} {f : α → α → Int} {a pl pm : Nat}

section

variable (answers : Answers cmp told) {s : State α κ}

include answers

theorem inner_spec {bound : Nat} (enough : pl < a + bound) (low : a ≤ pl) (high : pl ≤ pm)
    (inside : pm < s.array.length)
    : ∃ s', insertion.inner 1 cmp a bound pl s = some s'
      ∧ Rearranged a (pm + 1) s.array s'.array
      ∧ ∀ f, Orders told f → SortedBut f a pl pm s.array → SortedOn f a (pm + 1) s'.array := by
  induction bound generalizing pl s with
  | zero => omega
  | succ bound ih =>
      rw [insertion.inner]
      by_cases more : pl > a
      · obtain ⟨pl, rfl⟩ := Nat.exists_eq_succ_of_ne_zero (by omega : pl ≠ 0)
        obtain ⟨result, s₁, call, kept, answer⟩ :=
          compare_spec s pl (pl + 1) answers (by omega) (by omega)
        rw [if_pos more, Nat.succ_eq_add_one, down_succ]
        simp only [Option.bind_eq_bind, Option.bind_some, call]
        split
        next positive =>
          obtain ⟨s₂, traded, swapped⟩ := swap_spec s₁ (pl + 1) pl
            (by rw [kept]; omega) (by rw [kept]; omega)
          have length : s₂.array.length = s₁.array.length := swapped.perm.length_eq
          obtain ⟨s', loop, moved, sorted⟩ :=
            ih (by omega : pl < a + bound) (by omega) (by omega)
              (by rw [length, kept]; exact inside)
          have step := swapped.rearranged a (pm + 1) (by omega) (by omega)
          rw [traded, Option.bind_some]
          refine ⟨s', loop, kept ▸ step.trans moved, fun f orders but => sorted f orders ?_⟩
          rw [← kept] at but
          refine but.step orders.order (by omega) (by omega) ?_ swapped
          intro x y first second
          rw [← orders.answer x y result (answer x y (kept ▸ first) (kept ▸ second))]
          exact positive
        next nonpositive =>
          refine ⟨s₁, rfl, kept ▸ .refl _ _ _, fun f orders but => ?_⟩
          rw [kept]
          refine but.stop orders.order inside fun _ x y first second => ?_
          rw [← orders.answer x y result (answer x y first second)]
          omega
      · rw [if_neg more]
        exact ⟨s, rfl, .refl _ _ _, fun f orders but =>
          but.stop orders.order inside fun less => absurd less more⟩

theorem outer_spec {hi n bound : Nat} (size : hi = a + n) (enough : hi ≤ pm + bound)
    (low : a < pm) (inside : hi ≤ s.array.length)
    : ∃ s', insertion.outer 1 cmp a hi n (bound + 1) pm s = some s'
      ∧ Rearranged a hi s.array s'.array
      ∧ ∀ f, Orders told f → SortedOn f a pm s.array → SortedOn f a hi s'.array := by
  induction bound generalizing pm s with
  | zero =>
      rw [insertion.outer, if_neg (by omega)]
      exact ⟨s, rfl, .refl _ _ _, fun f orders before => before.mono (by omega)⟩
  | succ bound ih =>
      rw [insertion.outer]
      split
      next more =>
        obtain ⟨s₁, loop₁, moved₁, sorted₁⟩ :=
          inner_spec (s := s) answers (by omega : pm < a + n) (by omega) (Nat.le_refl pm) (by omega)
        obtain ⟨s', loop, moved, sorted⟩ :=
          ih (by omega : hi ≤ pm + 1 + bound) (by omega) (by rw [moved₁.length_eq]; exact inside)
        rw [loop₁]
        refine ⟨s', loop, (moved₁.widen (Nat.le_refl _) (by omega)).trans moved,
          fun f orders before => sorted f orders (sorted₁ f orders ?_)⟩
        intro i j x y low less high other first second
        exact before i j x y low less (by omega) first second
      next done =>
        exact ⟨s, rfl, .refl _ _ _, fun f orders before => before.mono (by omega)⟩

/-- The insertion sort rearranges its range, and puts it in order by a total preorder. -/
theorem insertion_spec {n : Nat} (inside : a + n ≤ s.array.length)
    : ∃ s', insertion 1 cmp a n s = some s' ∧ Rearranged a (a + n) s.array s'.array
      ∧ ∀ f, Orders told f → SortedOn f a (a + n) s'.array := by
  obtain ⟨s', loop, moved, sorted⟩ := outer_spec answers (rfl : a + n = a + n)
    (by omega : a + n ≤ a + 1 + n) (by omega) inside
  refine ⟨s', by simpa [insertion] using loop, moved, fun f orders => sorted f orders ?_⟩
  exact sortedOn_of_le (Nat.le_refl _)

end

end BSDLibC.Qsort
