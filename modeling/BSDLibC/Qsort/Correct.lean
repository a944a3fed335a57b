import BSDLibC.Qsort.Divide
import BSDLibC.Qsort.Partition
import BSDLibC.Qsort.Scale

/-! `qsort_r` rearranges the array whatever the comparison function answers, and sorts it by a total
preorder.
-/

namespace BSDLibC.Qsort
open BSDLibC.Sorting

variable {α κ : Type}

section

variable {told : α → α → Int → Prop} {f : α → α → Int} {a hi r size : Nat} {v x y : α}

/-- The answers of a total preorder do not contradict each other. -/
theorem consistent_of_orders (orders : Orders told f) (v x : α)
    : ¬ (Less told v x ∧ More told v x) := by
  rintro ⟨⟨low, negative, tell⟩, high, positive, tell'⟩
  have := orders.answer x v low tell
  have := orders.answer x v high tell'
  omega

theorem Less.le (orders : Orders told f) (less : Less told v x) : f x v ≤ 0 := by
  obtain ⟨result, negative, tell⟩ := less
  have := orders.answer x v result tell
  omega

theorem More.ge (orders : Orders told f) (more : More told v x) : f v x ≤ 0 := by
  obtain ⟨result, positive, tell⟩ := more
  have := orders.answer x v result tell
  have := orders.order.flip x v
  omega

theorem Same.both (orders : Orders told f) (same : Same told v x) : f x v ≤ 0 ∧ f v x ≤ 0 := by
  rcases same with rfl | tell
  · exact ⟨orders.order.refl _, orders.order.refl _⟩
  · have := orders.answer x v 0 tell
    have := orders.order.flip x v
    have := orders.order.flip v x
    omega

/-- What `qsort_r` does to a range of the array. -/
structure Sorts (told : α → α → Int → Prop) (lo hi : Nat) (before after : List α) : Prop where
  moved : Rearranged lo hi before after
  sorted (f : α → α → Int) : Orders told f → SortedOn f lo hi after

/-- A range that is sorted, with the elements that it had. -/
structure Settled (told : α → α → Int → Prop) (lo hi : Nat) (before after : List α) : Prop where
  sorted (f : α → α → Int) : Orders told f → SortedOn f lo hi after
  band (P : α → Prop) : Band P lo hi before → Band P lo hi after

/-- A range is sorted while it is left alone before and after. -/
theorem Sorts.settled {lo hi : Nat} {ws xs ys zs : List α} (sorts : Sorts told lo hi xs ys)
    (before : ∀ k, lo ≤ k → k < hi → xs[k]? = ws[k]?)
    (after : ∀ k, lo ≤ k → k < hi → zs[k]? = ys[k]?)
    : Settled told lo hi ws zs where
  sorted f orders := (sorts.sorted f orders).congr after
  band _ band := Band.congr (sorts.moved.forall_mem (band.congr before)) after

/-- A divided array is sorted when its two sides are. -/
theorem Divided.sorted {xs ys : List α} (orders : Orders told f)
    (divided : Divided told a hi r size v xs) (left : Settled told a (a + r) xs ys)
    (right : Settled told (hi - size) hi xs ys)
    (kept : ∀ k, a + r ≤ k → k < hi - size → ys[k]? = xs[k]?)
    : SortedOn f a hi ys := by
  have room := divided.room
  have less : Band (Less told v) a (a + r) ys := left.band _ divided.less
  have same : Band (Same told v) (a + r) (hi - size) ys := divided.same.congr kept
  have more : Band (More told v) (hi - size) hi ys := right.band _ divided.more
  have through (x y : α) (before : f x v ≤ 0) (after : f v y ≤ 0) : f x y ≤ 0 :=
    orders.order.trans x v y before after
  have middle : SortedOn f (a + r) (hi - size) ys := by
    intro i j x y low before high first second
    exact through x y ((same i x low (by omega) first).both orders).1
      ((same j y (by omega) high second).both orders).2
  refine ((left.sorted f orders).append middle ?_).append (right.sorted f orders) ?_
  · intro i j x y low before after high first second
    exact through x y ((less i x low before first).le orders)
      ((same j y after high second).both orders).2
  · intro i j x y low before after high first second
    refine through x y ?_ ((more j y after high second).ge orders)
    by_cases side : i < a + r
    · exact (less i x low side first).le orders
    · exact ((same i x (by omega) before first).both orders).1

end

variable {cmp : κ → α → α → Int × κ}

/-- A side that is left to sort, when it has two elements or more. -/
def side (cmp : κ → α → α → Int × κ) (depth a n : Nat) (s : State α κ) : Option (State α κ) :=
  if n > 1 then qsortR 1 cmp depth a n s else some s

theorem side_many {depth a n : Nat} (many : n > 1)
    : side cmp depth a n = qsortR 1 cmp depth a n := by
  funext s
  rw [side, if_pos many]

theorem side_few {depth a n : Nat} (few : ¬ n > 1) : side cmp depth a n = some := by
  funext s
  rw [side, if_neg few]

/-- The two sides, the smaller one first. -/
def sides (cmp : κ → α → α → Int × κ) (depth a n : Nat) (divided : Nat × Nat × State α κ)
    : Option (State α κ) :=
  let r := divided.1
  let size := divided.2.1
  if r < size then
    (side cmp depth a r divided.2.2).bind (side cmp depth (a + n - size) size)
  else
    (side cmp depth (a + n - size) size divided.2.2).bind (side cmp depth a r)

theorem qsortR_succ (depth a n : Nat) (s : State α κ)
    : qsortR 1 cmp (depth + 1) a n s = if n < 7 then insertion 1 cmp a n s else
      (divide 1 cmp a n s).bind (sides cmp depth a n) := by
  rw [qsortR]
  split
  · rfl
  · simp only [Nat.mul_one, Nat.div_one, Option.bind_eq_bind]
    congr 1
    funext divided
    obtain ⟨r, size, s⟩ := divided
    simp only [sides]
    by_cases left : r > 1 <;> by_cases right : size > 1
    · simp [left, right, side_many]
    · rw [side_many left, side_few right, if_neg (by omega : ¬ r < size), if_pos left,
        if_neg right, if_neg (by omega : ¬ r < size), Option.bind_some]
    · rw [side_few left, side_many right, if_pos (by omega : r < size), if_pos right,
        if_neg left, if_pos (by omega : r < size), Option.bind_some]
    · simp [left, right, side_few]

section

variable {told : α → α → Int → Prop} {a n : Nat} {s : State α κ}

/-- A round, and then one side and the other. -/
theorem Sorts.round {r size : Nat} {xs ys zs ws : List α} (left : r ≤ n) (right : size ≤ n)
    (divided : Rearranged a (a + n) xs ys)
    (parts : (∀ v x, ¬ (Less told v x ∧ More told v x)) → ∃ v, Divided told a (a + n) r size v ys)
    (sides : (Sorts told a (a + r) ys zs ∧ Sorts told (a + n - size) (a + n) zs ws)
      ∨ (Sorts told (a + n - size) (a + n) ys zs ∧ Sorts told a (a + r) zs ws))
    : Sorts told a (a + n) xs ws where
  moved := by
    rcases sides with ⟨first, second⟩ | ⟨first, second⟩
    · exact divided.trans ((first.moved.widen (Nat.le_refl _) (by omega)).trans
        (second.moved.widen (by omega) (Nat.le_refl _)))
    · exact divided.trans ((first.moved.widen (by omega) (Nat.le_refl _)).trans
        (second.moved.widen (Nat.le_refl _) (by omega)))
  sorted f orders := by
    obtain ⟨v, parts⟩ := parts (consistent_of_orders orders)
    have room := parts.room
    rcases sides with ⟨first, second⟩ | ⟨first, second⟩
    · refine parts.sorted orders (first.settled (fun _ _ _ => rfl) ?_)
        (second.settled ?_ fun _ _ _ => rfl) ?_
      · exact fun k low high => second.moved.outside k (by omega)
      · exact fun k low high => first.moved.outside k (by omega)
      · exact fun k low high => (second.moved.outside k (by omega)).trans
          (first.moved.outside k (by omega))
    · refine parts.sorted orders (second.settled ?_ fun _ _ _ => rfl)
        (first.settled (fun _ _ _ => rfl) ?_) ?_
      · exact fun k low high => first.moved.outside k (by omega)
      · exact fun k low high => second.moved.outside k (by omega)
      · exact fun k low high => (second.moved.outside k (by omega)).trans
          (first.moved.outside k (by omega))

/-- The recursion ends before its depth is the number of elements, whatever the answers are. -/
theorem qsortR_sorts (answers : Answers cmp told) {depth : Nat} (deep : n < depth)
    (inside : a + n ≤ s.array.length)
    : ∃ s', qsortR 1 cmp depth a n s = some s' ∧ Sorts told a (a + n) s.array s'.array := by
  induction depth generalizing a n s with
  | zero => omega
  | succ depth ih =>
      have sorts (b m : Nat) (t : State α κ) (less : m < depth) (inside : b + m ≤ t.array.length)
          : ∃ t', side cmp depth b m t = some t' ∧ Sorts told b (b + m) t.array t'.array := by
        by_cases many : m > 1
        · rw [side_many many]
          exact ih less inside
        · rw [side_few many]
          exact ⟨t, rfl, .refl _ _ _, fun _ _ => sortedOn_of_le (by omega)⟩
      rw [qsortR_succ]
      split
      next few =>
        obtain ⟨s', call, moved, sorted⟩ := insertion_spec (s := s) answers inside
        exact ⟨s', call, moved, sorted⟩
      next many =>
        obtain ⟨r, size, s₁, call, moved, left, right, parts⟩ :=
          divide_spec (s := s) answers (by omega) inside
        have length₁ := moved.length_eq
        have whole : a + n - size + size = a + n := by omega
        rw [call, Option.bind_some]
        simp only [sides]
        split
        next =>
          obtain ⟨s₂, call₂, first⟩ := sorts a r s₁ (by omega) (by omega)
          have length₂ := first.moved.length_eq
          obtain ⟨s₃, call₃, second⟩ := sorts (a + n - size) size s₂ (by omega) (by omega)
          rw [whole] at second
          rw [call₂, Option.bind_some, call₃]
          exact ⟨s₃, rfl, .round (by omega) (by omega) moved parts (.inl ⟨first, second⟩)⟩
        next =>
          obtain ⟨s₂, call₂, first⟩ := sorts (a + n - size) size s₁ (by omega) (by omega)
          have length₂ := first.moved.length_eq
          obtain ⟨s₃, call₃, second⟩ := sorts a r s₂ (by omega) (by omega)
          rw [whole] at first
          rw [call₂, Option.bind_some, call₃]
          exact ⟨s₃, rfl, .round (by omega) (by omega) moved parts (.inr ⟨first, second⟩)⟩

end

-----------------------------------------------------------------------------------------
-- Elements of any size
-----------------------------------------------------------------------------------------

section

variable {es : Nat} (pos : 0 < es) (array : List α) (cookie : κ) (depth : Nat)
  (deep : array.length < depth)

include pos deep

theorem qsortR_whole {told : α → α → Int → Prop} (answers : Answers cmp told)
    : ∃ s', qsortR es cmp depth 0 array.length ⟨array, cookie⟩ = some s'
      ∧ Sorts told 0 array.length array s'.array := by
  have scale := qsortR_scale pos cmp depth 0 array.length ⟨array, cookie⟩
  rw [Nat.mul_zero] at scale
  rw [scale]
  simpa using qsortR_sorts (a := 0) (n := array.length) (s := ⟨array, cookie⟩) answers deep
    (by simp)

/-- Whatever the comparison function answers and keeps behind its cookie, `qsort_r` ends, accesses
nothing but elements of the array and leaves them all in it.
-/
theorem qsortR_perm (cmp : κ → α → α → Int × κ)
    : ∃ s', qsortR es cmp depth 0 array.length ⟨array, cookie⟩ = some s'
      ∧ s'.array.Perm array := by
  have any : Answers cmp fun _ _ _ => True := fun _ _ _ => trivial
  obtain ⟨s', call, sorts⟩ := qsortR_whole pos array cookie depth deep any
  exact ⟨s', call, sorts.moved.perm⟩

/-- By the answers of a total preorder `qsort_r` sorts the array. -/
theorem qsortR_sorted (f : α → α → Int) (order : TotalPreorder f)
    (answers : ∀ cookie x y, (cmp cookie x y).1 = f x y)
    : ∃ s', qsortR es cmp depth 0 array.length ⟨array, cookie⟩ = some s'
      ∧ s'.array.Perm array
      ∧ ∀ i x y, s'.array[i]? = some x → s'.array[i + 1]? = some y → f x y ≤ 0 := by
  have told : Answers cmp fun x y result => result = f x y := answers
  obtain ⟨s', call, sorts⟩ := qsortR_whole pos array cookie depth deep told
  refine ⟨s', call, sorts.moved.perm, fun i x y first second => ?_⟩
  obtain ⟨inside, -⟩ := List.getElem?_eq_some_iff.mp second
  rw [sorts.moved.length_eq] at inside
  exact sorts.sorted f ⟨order, fun _ _ _ tell => tell⟩ i (i + 1) x y (Nat.zero_le _)
    (Nat.lt_succ_self i) inside first second

end

/-- A comparison function that counts its calls and says that everything comes before. -/
theorem qsortR_perm_before
    : (List.range 9).length < 10 ∧ ∃ s', qsortR 4 (fun (calls : Nat) (_ _ : Nat) => (-1, calls + 1))
        10 0 (List.range 9).length ⟨List.range 9, 0⟩ = some s' ∧ s'.array.Perm (List.range 9) :=
  ⟨by decide, qsortR_perm (by decide) (List.range 9) 0 10 (by decide) _⟩

/-- Numbers by their difference. -/
theorem qsortR_sorted_numbers
    : TotalPreorder (fun x y : Int => x - y) ∧ ∃ s', qsortR 8 (fun _ x y => (x - y, ()))
        4 0 [3, 1, 2].length ⟨[3, 1, 2], ()⟩ = some s' ∧ s'.array.Perm [3, 1, 2]
        ∧ ∀ i x y, s'.array[i]? = some x → s'.array[i + 1]? = some y → x - y ≤ 0 := by
  have order : TotalPreorder (fun x y : Int => x - y) :=
    ⟨fun x y => by omega, fun x y z => by omega⟩
  exact ⟨order, qsortR_sorted (by decide) [3, 1, 2] () 4 (by decide) _ order fun _ _ _ => rfl⟩

end BSDLibC.Qsort
