import BSDLibC.Heapsort.Sort

/-! `heapsort_r` rearranges the array whatever the comparison function answers, and sorts it by a
total preorder.
-/

namespace BSDLibC.Heapsort
open BSDLibC.Sorting

variable {α κ : Type} {size : Nat} (pos : 0 < size)

-----------------------------------------------------------------------------------------
-- Single steps
-----------------------------------------------------------------------------------------

section

variable (s : State α κ) {i j : Nat}

include pos

theorem place_item (first : 0 < i) : place size (i * size) = some (i - 1) := by
  have room : size ≤ i * size := Nat.le_mul_of_pos_left size first
  simp [place, room, Nat.mul_div_cancel i pos]

theorem load_item (first : 0 < i) : load size (i * size) s = s.array[i - 1]? := by
  rw [load, place_item pos first]
  rfl

theorem store_item (x : α) (first : 0 < i) (last : i ≤ s.array.length)
    : store size (i * size) x s = some { s with array := s.array.set (i - 1) x } := by
  have inside : i - 1 < s.array.length := by omega
  simp [store, place_item pos first, inside]

theorem swap_item (first : 0 < i) (last : i ≤ s.array.length) (first' : 0 < j)
    (last' : j ≤ s.array.length)
    : ∃ s', swap size (i * size) (j * size) s = some s'
      ∧ Swapped s.array (i - 1) (j - 1) s'.array := by
  obtain ⟨array, h⟩ := swapAt_exists (by omega : i - 1 < s.array.length)
    (by omega : j - 1 < s.array.length)
  exact ⟨{ s with array := array }, by simp [swap, place_item pos, first, first', h],
    swapAt_spec h⟩

end

section

variable {compar : κ → α → α → Int × κ} {told : α → α → Int → Prop}
  (answers : Answers compar told) (s : State α κ) {i j n par_i : Nat}

include pos answers

theorem compare_item (first : 0 < i) (last : i ≤ s.array.length) (first' : 0 < j)
    (last' : j ≤ s.array.length)
    : ∃ result s', compare size compar (i * size) (j * size) s = some (result, s')
      ∧ s'.array = s.array
      ∧ ∀ x y, s.array[i - 1]? = some x → s.array[j - 1]? = some y → told x y result := by
  have atI := List.getElem?_eq_getElem (by omega : i - 1 < s.array.length)
  have atJ := List.getElem?_eq_getElem (by omega : j - 1 < s.array.length)
  refine ⟨(compar s.cookie s.array[i - 1] s.array[j - 1]).1,
    { s with cookie := (compar s.cookie s.array[i - 1] s.array[j - 1]).2 }, ?_, rfl,
    fun x y found found' => ?_⟩
  · rw [compare, load_item pos s first, load_item pos s first', atI, atJ]
    rfl
  · rw [atI] at found
    rw [atJ] at found'
    cases found
    cases found'
    exact answers s.cookie _ _

/-- `larger` gives the child that comes last. -/
theorem larger_spec (first : 0 < par_i) (more : par_i * 2 ≤ n) (inside : n ≤ s.array.length)
    : ∃ child_i s', larger size compar n (par_i * 2) s = some (child_i, s')
      ∧ s'.array = s.array ∧ child_i / 2 = par_i ∧ child_i ≤ n
      ∧ ∀ f, Orders told f → ∀ j, j / 2 = par_i → j ≤ n → Below f s.array j child_i := by
  have self (f : α → α → Int) (orders : Orders told f) (j : Nat) : Below f s.array j j := by
    intro x y found found'
    rw [found] at found'
    cases found'
    exact orders.order.refl x
  rw [larger]
  by_cases two : par_i * 2 < n
  · obtain ⟨result, s₁, compared, kept, answer⟩ := compare_item pos answers s (i := par_i * 2)
      (j := par_i * 2 + 1) (by omega) (by omega) (by omega) (by omega)
    rw [Nat.add_mul, Nat.one_mul] at compared
    simp only [two, if_true, compared, Option.bind_eq_bind, Option.bind_some]
    by_cases less : result < 0
    · refine ⟨par_i * 2 + 1, s₁, by rw [if_pos less]; rfl, kept, by omega, by omega, ?_⟩
      intro f orders j child last
      by_cases right : j = par_i * 2 + 1
      · rw [right]
        exact self f orders _
      · rw [(by omega : j = par_i * 2)]
        intro x y found found'
        have := orders.answer x y result (answer x y found found')
        omega
    · refine ⟨par_i * 2, s₁, by rw [if_neg less]; rfl, kept, by omega, by omega, ?_⟩
      intro f orders j child last
      by_cases left : j = par_i * 2
      · rw [left]
        exact self f orders _
      · rw [(by omega : j = par_i * 2 + 1)]
        intro x y found found'
        have := orders.answer y x result (answer y x found' found)
        have := orders.order.flip x y
        omega
  · simp only [two, if_false]
    refine ⟨par_i * 2, s, rfl, rfl, by omega, more, fun f orders j child last => ?_⟩
    rw [(by omega : j = par_i * 2)]
    exact self f orders _

-----------------------------------------------------------------------------------------
-- The loops
-----------------------------------------------------------------------------------------

/-- `CREATE` puts one more item into the heap. -/
theorem create_spec {bound : Nat} (enough : n < par_i + bound) (first : 0 < par_i)
    (last : par_i ≤ n) (inside : n ≤ s.array.length)
    : ∃ s', create size compar n bound par_i s = some s' ∧ Rearranged 0 n s.array s'.array
      ∧ ∀ f l, Orders told f → 0 < l → OffHole f l n par_i s.array
        → (l ≤ par_i / 2 → Below f s.array par_i (par_i / 2)) → HeapFrom f l n s'.array := by
  induction bound generalizing par_i s with
  | zero => omega
  | succ bound ih =>
      rw [create]
      by_cases more : par_i * 2 ≤ n
      · obtain ⟨child_i, s₁, chosen, kept₁, parent, last', largest⟩ :=
          larger_spec pos answers s first more inside
        rw [← kept₁] at inside largest ⊢
        obtain ⟨result, s₂, compared, kept₂, answer⟩ := compare_item pos answers s₁ (i := child_i)
          (j := par_i) (by omega) (by omega) (by omega) (by omega)
        rw [← kept₂] at inside largest answer ⊢
        simp only [more, if_true, chosen, compared, Option.bind_eq_bind, Option.bind_some]
        by_cases stop : result ≤ 0
        · rw [if_pos stop]
          refine ⟨s₂, rfl, .refl _ _ _, fun f l orders _ off above => ?_⟩
          refine off.heap (fun first _ => above first) fun j child below => ?_
          refine (largest f orders j child below).trans orders.order ?_ (by omega)
          intro x y found found'
          rw [← orders.answer x y result (answer x y found found')]
          exact stop
        · rw [if_neg stop]
          obtain ⟨s₃, traded, swapped⟩ := swap_item pos s₂ (i := par_i) (j := child_i) first
            (by omega) (by omega) (by omega)
          have step := swapped.rearranged 0 n (by omega) (by omega)
          obtain ⟨s', loop, moved, heap⟩ := ih s₃ (by omega : n < child_i + bound) (by omega) last'
            (by rw [step.length_eq]; exact inside)
          rw [traded, Option.bind_some]
          refine ⟨s', loop, step.trans moved, fun f l orders some off above => ?_⟩
          refine heap f l orders some (off.down some first parent last' (largest f orders) swapped)
            fun _ => ?_
          rw [parent]
          intro x y found found'
          rw [swapped.right] at found
          rw [swapped.left] at found'
          have := orders.answer y x result (answer y x found' found)
          have := orders.order.flip y x
          omega
      · rw [if_neg more]
        refine ⟨s, rfl, .refl _ _ _, fun f l orders _ off above => ?_⟩
        exact off.heap (fun first _ => above first) fun j child below => by omega

/-- The first loop of `SELECT` moves the hole down to a leaf. -/
theorem promote_spec (k : α) {bound : Nat} (enough : n < par_i + bound) (first : 0 < par_i)
    (last : par_i ≤ n) (inside : n ≤ s.array.length)
    : ∃ leaf s', select.promote size compar n bound par_i s = some (leaf, s')
      ∧ n < leaf * 2 ∧ 0 < leaf ∧ leaf ≤ n
      ∧ Rearranged 0 n (s.array.set (par_i - 1) k) (s'.array.set (leaf - 1) k)
      ∧ ∀ f, Orders told f → OffHole f 1 n par_i (s.array.set (par_i - 1) k)
        → OffHole f 1 n leaf (s'.array.set (leaf - 1) k) := by
  induction bound generalizing par_i s with
  | zero => omega
  | succ bound ih =>
      rw [select.promote]
      by_cases more : par_i * 2 ≤ n
      · obtain ⟨child_i, s₁, chosen, kept, parent, last', largest⟩ :=
          larger_spec pos answers s first more inside
        rw [← kept] at inside largest ⊢
        have found := List.getElem?_eq_getElem (by omega : child_i - 1 < s₁.array.length)
        have swapped := swapped_hole k (by omega : par_i - 1 ≠ child_i - 1) (by omega) found
        have step := swapped.rearranged 0 n (by omega) (by omega)
        obtain ⟨leaf, s', loop, low, some, high, moved, off⟩ :=
          ih { s₁ with array := s₁.array.set (par_i - 1) s₁.array[child_i - 1] }
            (by omega : n < child_i + bound) (by omega) last' (by simpa using inside)
        simp only [more, if_true, chosen, Option.bind_eq_bind, Option.bind_some, copy]
        rw [load_item pos s₁ (by omega), found, Option.bind_some,
          store_item pos s₁ _ first (by omega), Option.bind_some]
        refine ⟨leaf, s', loop, low, some, high, step.trans moved, fun f orders before => ?_⟩
        refine off f orders (before.down Nat.one_pos first parent last' ?_ swapped)
        intro j child below
        refine (largest f orders j child below).congr ?_ ?_
        · exact List.getElem?_set_ne (by omega)
        · exact List.getElem?_set_ne (by omega)
      · rw [if_neg more]
        exact ⟨par_i, s, rfl, by omega, first, last, .refl _ _ _, fun _ _ before => before⟩

/-- The second loop of `SELECT` moves the hole up to the place of `k`. -/
theorem climb_spec (k : α) {bound child_i : Nat} (enough : child_i < bound) (first : 0 < child_i)
    (last : child_i ≤ n) (inside : n ≤ s.array.length)
    : ∃ s', select.climb size compar k bound child_i s = some s'
      ∧ Rearranged 0 n (s.array.set (child_i - 1) k) s'.array
      ∧ ∀ f, Orders told f → OffHole f 1 n child_i (s.array.set (child_i - 1) k)
        → (∀ j, j / 2 = child_i → j ≤ n → Below f (s.array.set (child_i - 1) k) j child_i)
        → HeapFrom f 1 n s'.array := by
  induction bound generalizing child_i s with
  | zero => omega
  | succ bound ih =>
      rw [select.climb]
      by_cases root : child_i = 1
      · simp only [root, if_true]
        have stored := store_item pos s k (i := 1) (by omega) (by omega)
        refine ⟨_, stored, .refl _ _ _, fun f orders off below => ?_⟩
        exact off.heap (fun first => by omega) below
      · have found := List.getElem?_eq_getElem (by omega : child_i / 2 - 1 < s.array.length)
        have told' := answers s.cookie k s.array[child_i / 2 - 1]
        generalize made : compar s.cookie k s.array[child_i / 2 - 1] = answer at told'
        obtain ⟨result, cookie⟩ := answer
        simp only at told'
        simp only [root, if_false, load_item pos s (by omega : 0 < child_i / 2), found, call, made,
          Option.bind_eq_bind, Option.bind_some]
        have atHole : (s.array.set (child_i - 1) k)[child_i - 1]? = some k :=
          List.getElem?_set_self (by omega)
        have atParent : (s.array.set (child_i - 1) k)[child_i / 2 - 1]?
            = some s.array[child_i / 2 - 1] := by
          rw [List.getElem?_set_ne (by omega), found]
        by_cases stop : result < 0
        · rw [if_pos stop, store_item pos _ k first (by simp only; omega)]
          refine ⟨_, rfl, .refl _ _ _, fun f orders off below => ?_⟩
          refine off.heap (fun _ _ x y top bottom => ?_) below
          simp only [atHole, atParent, Option.some_inj] at top bottom
          subst top bottom
          have := orders.answer _ _ result told'
          omega
        · have swapped := swapped_hole k (by omega : child_i - 1 ≠ child_i / 2 - 1) (by omega) found
          have step := swapped.rearranged 0 n (by omega) (by omega)
          obtain ⟨s', loop, moved, heap⟩ :=
            ih ⟨s.array.set (child_i - 1) s.array[child_i / 2 - 1], cookie⟩
              (by omega : child_i / 2 < bound) (by omega) (by omega) (by simpa using inside)
          simp only [if_neg stop, copy, Option.bind_eq_bind]
          rw [load_item pos _ (by omega), found, Option.bind_some,
            store_item pos _ _ first (by simp only; omega), Option.bind_some]
          refine ⟨s', loop, step.trans moved, fun f orders off below => ?_⟩
          have up := off.up Nat.one_pos orders.order (by simpa using inside) (by omega) last ?_ swapped
          · exact heap f orders up.1 up.2
          · intro x y bottom top
            simp only [atHole, atParent, Option.some_inj] at top bottom
            subst top bottom
            have := orders.answer _ _ result told'
            have := orders.order.flip k s.array[child_i / 2 - 1]
            have := orders.order.flip s.array[child_i / 2 - 1] k
            omega

/-- `SELECT` puts `k` into the heap in place of the root. -/
theorem select_spec (k : α) (some : 0 < n) (inside : n ≤ s.array.length)
    : ∃ s', select size compar n k s = .some s' ∧ Rearranged 0 n (s.array.set 0 k) s'.array
      ∧ ∀ f, Orders told f → OffHole f 1 n 1 (s.array.set 0 k) → HeapFrom f 1 n s'.array := by
  obtain ⟨leaf, s₁, promoted, low, first, last, moved₁, off⟩ :=
    promote_spec pos answers s k (by omega : n < 1 + (n + 1)) Nat.one_pos some inside
  have length := moved₁.length_eq
  simp only [List.length_set] at length
  obtain ⟨s₂, climbed, moved₂, heap⟩ :=
    climb_spec pos answers s₁ k (by omega : leaf < n + 1) first last (by omega)
  refine ⟨s₂, ?_, moved₁.trans moved₂, fun f orders before => ?_⟩
  · rw [select, promoted]
    exact climbed
  · exact heap f orders (off f orders before) fun j child below => by omega

/-- The first loop makes the array a heap. -/
theorem build_spec {l : Nat} (last : l * 2 ≤ n) (inside : n ≤ s.array.length)
    : ∃ s', build size compar n l s = some s' ∧ Rearranged 0 n s.array s'.array
      ∧ ∀ f, Orders told f → HeapFrom f (l + 1) n s.array → HeapFrom f 1 n s'.array := by
  induction l generalizing s with
  | zero => exact ⟨s, rfl, .refl _ _ _, fun _ _ heap => heap⟩
  | succ l ih =>
      obtain ⟨s₁, created, moved₁, heap₁⟩ := create_spec pos answers s
        (by omega : n < l + 1 + (n + 1)) (Nat.succ_pos l) (by omega) inside
      obtain ⟨s', loop, moved, heap⟩ := ih s₁ (by omega) (by rw [moved₁.length_eq]; exact inside)
      rw [build, created]
      refine ⟨s', loop, moved₁.trans moved, fun f orders before => heap f orders ?_⟩
      exact heap₁ f (l + 1) orders (Nat.succ_pos l) (before.extend (Nat.succ_pos l))
        fun first => by omega

omit pos answers

/-- The items from the place `n` on are sorted, after all items before them. -/
def SortedFrom (f : α → α → Int) (n : Nat) (xs : List α) : Prop :=
  ∀ i j x y, i < j → n ≤ j → xs[i]? = some x → xs[j]? = some y → f x y ≤ 0

/-- The root of the heap goes to the end of it, and the others are rearranged. -/
theorem SortedFrom.extend {f : α → α → Int} {xs ys zs : List α} (order : TotalPreorder f)
    (sorted : SortedFrom f (n + 1) xs) (heap : HeapFrom f 1 (n + 1) xs)
    (inside : n + 1 ≤ xs.length) (swapped : Swapped xs 0 n ys) (moved : Rearranged 0 n ys zs)
    : SortedFrom f n zs := by
  have within := swapped.rearranged 0 (n + 1) (by omega) (by omega)
  have whole := within.trans (moved.widen (Nat.le_refl _) (Nat.le_succ n))
  intro i j x y less last found found'
  by_cases new : j = n
  · subst new
    rw [moved.outside j (by omega), swapped.right] at found'
    obtain ⟨k, _, high, same⟩ := whole.inside i (Nat.zero_le _) (by omega)
    rw [same] at found
    exact heap.root order inside (k + 1) (by omega) (by omega) x y found found'
  · rw [whole.outside j (by omega)] at found'
    by_cases front : i < n + 1
    · obtain ⟨k, _, high, same⟩ := whole.inside i (Nat.zero_le _) front
      rw [same] at found
      exact sorted k j x y (by omega) (by omega) found found'
    · rw [whole.outside i (by omega)] at found
      exact sorted i j x y less (by omega) found found'

include pos answers

/-- The second loop sorts a heap. -/
theorem drain_spec (inside : n ≤ s.array.length)
    : ∃ s', drain size compar n s = some s' ∧ Rearranged 0 n s.array s'.array
      ∧ ∀ f, Orders told f → HeapFrom f 1 n s.array → SortedFrom f n s.array
        → SortedFrom f 1 s'.array := by
  induction n generalizing s with
  | zero =>
      refine ⟨s, by simp [drain], .refl _ _ _, fun f orders _ sorted => ?_⟩
      exact fun i j x y less last => sorted i j x y less (Nat.zero_le _)
  | succ n ih =>
      cases n with
      | zero => exact ⟨s, by simp [drain], .refl _ _ _, fun f orders _ sorted => sorted⟩
      | succ n =>
          have top := List.getElem?_eq_getElem (by omega : 0 < s.array.length)
          have bottom := List.getElem?_eq_getElem (by omega : n + 1 < s.array.length)
          have load : load size ((n + 2) * size) s = some s.array[n + 1] := by
            rw [load_item pos s (by omega), ← bottom]
            rfl
          have copied : copy size ((n + 2) * size) size s
              = some { s with array := s.array.set (n + 1) s.array[0] } := by
            have root := load_item pos s Nat.one_pos
            rw [Nat.one_mul] at root
            rw [copy, root, top]
            exact store_item pos s _ (by omega) inside
          have swapped : Swapped s.array 0 (n + 1)
              ((s.array.set (n + 1) s.array[0]).set 0 s.array[n + 1]) := by
            refine swapAt_spec ?_
            simp [swapAt, top, bottom, List.set_comm]
          obtain ⟨s₁, selected, moved₁, heap₁⟩ := select_spec pos answers
            { s with array := s.array.set (n + 1) s.array[0] } s.array[n + 1] (Nat.succ_pos n)
            (by simp only [List.length_set]; omega)
          have step := swapped.rearranged 0 (n + 2) (by omega) (by omega)
          have widened := moved₁.widen (Nat.le_refl 0) (Nat.le_succ (n + 1))
          obtain ⟨s', loop, moved, sorted⟩ := ih s₁
            (by rw [moved₁.length_eq, step.length_eq]; omega)
          rw [drain, load, Option.bind_eq_bind, Option.bind_some, copied]
          simp only [Option.bind_eq_bind, Option.bind_some, selected]
          refine ⟨s', loop, (step.trans widened).trans (moved.widen (Nat.le_refl _)
            (Nat.le_succ _)), fun f orders heap before => sorted f orders ?_ ?_⟩
          · refine heap₁ f orders (heap.offHole (by omega) fun k low high => ?_)
            exact swapped.others k (by omega) (by omega)
          · exact before.extend orders.order heap inside swapped moved₁

end

variable (compar : κ → α → α → Int × κ) (malloc : Bool) (array : List α) (cookie : κ)

include pos

/-- `heapsort_r` rearranges the array whatever its comparison function answers, and where it returns
zero, as it does when there is memory for an item, a total preorder has sorted the array.
-/
theorem heapsortR_spec
    : ∃ result s', heapsortR size compar malloc array.length ⟨array, cookie⟩ = some (result, s')
      ∧ s'.array.Perm array ∧ (malloc = true → result = 0)
      ∧ ∀ f, TotalPreorder f → (∀ cookie x y, (compar cookie x y).1 = f x y) → result = 0
        → ∀ i x y, s'.array[i]? = some x → s'.array[i + 1]? = some y → f x y ≤ 0 := by
  -- An answer counts as given when the comparison function may give it.
  have answers : Answers compar fun x y result => ∃ cookie, (compar cookie x y).1 = result :=
    fun cookie x y => ⟨cookie, rfl⟩
  rw [heapsortR, if_neg (Nat.ne_of_gt pos)]
  split
  next few =>
    refine ⟨0, ⟨array, cookie⟩, rfl, .refl _, fun _ => rfl, fun f _ _ _ i x y _ found => ?_⟩
    obtain ⟨inside, -⟩ := List.getElem?_eq_some_iff.mp found
    simp only at inside
    omega
  next many =>
    cases malloc with
    | false => exact ⟨-1, ⟨array, cookie⟩, rfl, .refl _, by simp, by simp⟩
    | true =>
        obtain ⟨s₁, built, moved₁, heap⟩ := build_spec pos answers ⟨array, cookie⟩
          (by omega : array.length / 2 * 2 ≤ array.length) (Nat.le_refl _)
        have length : s₁.array.length = array.length := moved₁.length_eq
        obtain ⟨s', drained, moved₂, sorted⟩ := drain_spec pos answers s₁ (Nat.le_of_eq length.symm)
        refine ⟨0, s', by simp [built, drained], moved₂.perm.trans moved₁.perm, fun _ => rfl, ?_⟩
        intro f order same _ i x y found found'
        have orders : Orders (fun x y result => ∃ cookie, (compar cookie x y).1 = result) f :=
          ⟨order, fun x y result ⟨cookie, given⟩ => given ▸ same cookie x y⟩
        refine sorted f orders (heap f orders ?_) ?_ i (i + 1) x y (by omega) (by omega) found found'
        · intro j first last
          omega
        · intro i j x y _ last _ found
          obtain ⟨inside, -⟩ := List.getElem?_eq_some_iff.mp found
          omega

omit pos

/-- Seven numbers by their difference. -/
theorem heapsortR_spec_numbers
    : ∃ result s', heapsortR 4 (fun _ (x y : Int) => (x - y, ())) true [3, 1, 4, 1, 5, 9, 2].length
        ⟨[3, 1, 4, 1, 5, 9, 2], ()⟩ = some (result, s')
      ∧ s'.array.Perm [3, 1, 4, 1, 5, 9, 2] ∧ result = 0
      ∧ ∀ i x y, s'.array[i]? = some x → s'.array[i + 1]? = some y → x - y ≤ 0 := by
  obtain ⟨result, s', call, perm, zero, sorted⟩ := heapsortR_spec (by decide : 0 < 4)
    (fun _ (x y : Int) => (x - y, ())) true [3, 1, 4, 1, 5, 9, 2] ()
  exact ⟨result, s', call, perm, zero rfl, sorted (fun x y => x - y)
    ⟨fun x y => by omega, fun x y z => by omega⟩ (fun _ _ _ => rfl) (zero rfl)⟩

end BSDLibC.Heapsort
