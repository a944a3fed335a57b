import BSDLibC.Btree.Split

/-! Where the items of a page go when it is split, and where the cursor goes. -/

namespace BSDLibC.Btree

variable {ι : Type} {measure : Measure ι}

/-- A slot that is open at an index. -/
def opened (skip : Nat) (xs : List ι) : List (Option ι) :=
  (xs.take skip).map some ++ none :: (xs.drop skip).map some

theorem length_opened {skip : Nat} {xs : List ι} (le : skip ≤ xs.length)
    : (opened skip xs).length = xs.length + 1 := by
  simp [opened]
  omega

/-- An item before the slot stays in its place, and another one moves up. -/
theorem getElem?_opened {skip i : Nat} {xs : List ι} (le : skip ≤ xs.length)
    : (opened skip xs)[if i ≥ skip then i + 1 else i]? = xs[i]?.map some := by
  have length : ((xs.take skip).map some).length = skip := by simp; omega
  rw [opened]
  split
  next behind =>
    rw [List.getElem?_append_right (by omega), length, Nat.add_comm, Nat.add_sub_assoc behind,
      Nat.add_comm, List.getElem?_cons_succ, List.getElem?_map, List.getElem?_drop,
      Nat.add_sub_cancel' behind]
  next before =>
    rw [List.getElem?_append_left (by omega), List.getElem?_map, List.getElem?_take_of_lt (by omega)]

/-- The new item goes into the slot. -/
theorem set_opened {skip : Nat} {xs : List ι} (le : skip ≤ xs.length) (item : ι)
    : (opened skip xs).set skip (some item) = (xs.take skip ++ item :: xs.drop skip).map some := by
  have length : ((xs.take skip).map some).length = skip := by simp; omega
  rw [opened, List.set_append_right _ _ (by omega), length, Nat.sub_self, List.set_cons_zero]
  simp

/-- The slots of a left page: the slot is still to come, or it is there. -/
def LeftSlots (skip : Nat) (done : List ι) (left : List (Option ι)) : Prop :=
  (left = done.map some ∧ done.length ≤ skip) ∨ (left = opened skip done ∧ skip ≤ done.length)

/-- A slot is left open at the end. -/
theorem LeftSlots.slot {skip : Nat} {done : List ι} {left : List (Option ι)}
    (slots : LeftSlots skip done left) (here : skip = left.length)
    : LeftSlots skip done (left ++ [none]) := by
  rcases slots with ⟨rfl, later⟩ | ⟨rfl, placed⟩
  · rw [List.length_map] at here
    refine Or.inr ⟨?_, here.le⟩
    rw [opened, List.take_of_length_le here.ge, List.drop_of_length_le here.ge, List.map_nil]
  · rw [length_opened placed] at here
    omega

/-- An item is copied to the end. -/
theorem LeftSlots.copy {skip : Nat} {done : List ι} {left : List (Option ι)}
    (slots : LeftSlots skip done left) (other : skip ≠ left.length) (item : ι)
    : LeftSlots skip (done ++ [item]) (left ++ [some item]) := by
  rcases slots with ⟨rfl, later⟩ | ⟨rfl, placed⟩
  · rw [List.length_map] at other
    refine Or.inl ⟨by rw [List.map_append]; rfl, ?_⟩
    rw [List.length_append, List.length_singleton]
    omega
  · refine Or.inr ⟨?_, ?_⟩
    · rw [opened, opened, List.take_append_of_le_length placed, List.drop_append_of_le_length placed,
        List.map_append, List.append_assoc, List.cons_append]
      rfl
    · rw [List.length_append]
      omega

/-- The loop copies a first part of the items, and not the last one. -/
theorem leftLoop_spec {skip ilen full bound : Nat} {done rest : List ι} {left : List (Option ι)}
    {used bigkeycnt : Nat} (slots : LeftSlots skip done left) (more : rest ≠ [])
    : ∃ copied, rest = copied ++ (leftLoop measure skip ilen full bound rest left used bigkeycnt).2
      ∧ (leftLoop measure skip ilen full bound rest left used bigkeycnt).2 ≠ []
      ∧ LeftSlots skip (done ++ copied)
        (leftLoop measure skip ilen full bound rest left used bigkeycnt).1 := by
  induction bound generalizing done rest left used bigkeycnt with
  | zero =>
      rw [leftLoop]
      · exact ⟨[], rfl, more, by rwa [List.append_nil]⟩
      · simp
  | succ bound ih =>
      obtain ⟨item, rest, rfl⟩ := List.exists_cons_of_ne_nil more
      rw [leftLoop]
      by_cases stop : (skip ≤ left.length ∧ used
          + (if skip = left.length then ilen else measure.nbytes item) + sizeofIndx ≥ full) ∨ rest = []
      · simp only [if_pos stop]
        exact ⟨[], rfl, more, by rwa [List.append_nil]⟩
      simp only [if_neg stop]
      by_cases here : skip = left.length
      · have next := slots.slot here
        simp only [if_pos here]
        split
        · split
          · exact ⟨[], rfl, more, by rwa [List.append_nil]⟩
          · exact ih next more
        · exact ih next more
      · have next := slots.copy here item
        have more' : rest ≠ [] := fun none => stop (Or.inr none)
        simp only [if_neg here]
        have later (used bigkeycnt : Nat) := @ih (done ++ [item]) rest (left ++ [some item]) used
          bigkeycnt next more'
        split
        · split
          · exact ⟨[item], rfl, more', next⟩
          · obtain ⟨copied, whole, last, slots'⟩ := later _ (bigkeycnt + 1)
            exact ⟨item :: copied, by rw [List.cons_append, ← whole], last, by
              rwa [List.append_assoc] at slots'⟩
        · obtain ⟨copied, whole, last, slots'⟩ := later _ bigkeycnt
          exact ⟨item :: copied, by rw [List.cons_append, ← whole], last, by
            rwa [List.append_assoc] at slots'⟩

/-- Without a slot the right page gets the items. -/
theorem rightLoop_max {nxt : Nat} {rest : List ι} (small : nxt + rest.length < MAX_PAGE_OFFSET)
    : rightLoop MAX_PAGE_OFFSET nxt rest = rest.map some := by
  induction rest generalizing nxt with
  | nil =>
      rw [rightLoop, if_neg (by simp only [List.length_nil] at small; omega)]
      rfl
  | cons item rest ih =>
      rw [List.length_cons] at small
      rw [rightLoop, if_neg (by omega), ih (by omega)]
      rfl

/-- The slot of the right page. -/
theorem rightLoop_opened {skip nxt : Nat} {rest : List ι} (from_ : nxt ≤ skip)
    (upTo : skip ≤ nxt + rest.length) (small : nxt + rest.length < MAX_PAGE_OFFSET)
    : rightLoop skip nxt rest = opened (skip - nxt) rest := by
  induction rest generalizing nxt with
  | nil =>
      have here : skip = nxt := by
        rw [List.length_nil] at upTo
        omega
      rw [rightLoop, if_pos here, opened, List.take_nil, List.drop_nil]
      rfl
  | cons item rest ih =>
      rw [List.length_cons] at upTo small
      rw [rightLoop]
      split
      next here =>
        rw [rightLoop_max (by omega), here, Nat.sub_self]
        rfl
      next later =>
        rw [ih (by omega) (by omega) (by omega), opened, opened,
          show skip - nxt = skip - (nxt + 1) + 1 by omega]
        rfl

/-- What a split page is: where the first items go, where the others go, and where the slot is. A slot
on an empty left page is lost.
-/
theorem btPsplit_spec (measure : Measure ι) (full hpgno lpgno rpgno ilen : Nat) (c : Cursor)
    {items : List ι} {skip : Nat} (some : items ≠ []) (small : items.length < 32758)
    (inside : skip ≤ items.length)
    : ∃ copied rest, items = copied ++ rest
      ∧ leftLoop measure skip ilen full (items.length + 2) items [] 0 0
        = ((btPsplit measure full hpgno lpgno rpgno items skip ilen c).left, rest)
      ∧ (btPsplit measure full hpgno lpgno rpgno items skip ilen c).nxt = copied.length
      ∧ (((btPsplit measure full hpgno lpgno rpgno items skip ilen c).inLeft = true
          ∧ (btPsplit measure full hpgno lpgno rpgno items skip ilen c).pskip = skip
          ∧ (btPsplit measure full hpgno lpgno rpgno items skip ilen c).right = rest.map .some
          ∧ (copied = [] ∧ (btPsplit measure full hpgno lpgno rpgno items skip ilen c).left = []
            ∨ skip ≤ copied.length
              ∧ (btPsplit measure full hpgno lpgno rpgno items skip ilen c).left
                = opened skip copied))
        ∨ ((btPsplit measure full hpgno lpgno rpgno items skip ilen c).inLeft = false
          ∧ copied.length ≤ skip
          ∧ (btPsplit measure full hpgno lpgno rpgno items skip ilen c).pskip = skip - copied.length
          ∧ (btPsplit measure full hpgno lpgno rpgno items skip ilen c).left = copied.map .some
          ∧ (btPsplit measure full hpgno lpgno rpgno items skip ilen c).right
            = opened (skip - copied.length) rest)) := by
  have start : LeftSlots skip ([] : List ι) [] := Or.inl ⟨rfl, Nat.zero_le _⟩
  obtain ⟨copied, whole, -, slots⟩ := @leftLoop_spec _ measure skip ilen full (items.length + 2) []
    items [] 0 0 start some
  rw [List.nil_append] at slots
  have leftEq : (btPsplit measure full hpgno lpgno rpgno items skip ilen c).left
      = (leftLoop measure skip ilen full (items.length + 2) items [] 0 0).1 := by
    simp only [btPsplit]
    split <;> rfl
  rw [leftEq]
  simp only [btPsplit]
  generalize leftLoop measure skip ilen full (items.length + 2) items [] 0 0 = result at whole slots
  obtain ⟨left, rest⟩ := result
  simp only at whole slots ⊢
  have count : items.length - rest.length = copied.length := by
    rw [whole, List.length_append, Nat.add_sub_cancel]
  have length : items.length = copied.length + rest.length := by
    rw [whole, List.length_append]
  refine ⟨copied, rest, whole, ?_⟩
  rw [count]
  have max : rightLoop MAX_PAGE_OFFSET copied.length rest = rest.map .some :=
    rightLoop_max (by rw [MAX_PAGE_OFFSET]; omega)
  rcases slots with ⟨rfl, later⟩ | ⟨rfl, placed⟩
  · by_cases empty : copied = []
    · subst empty
      rw [if_pos (by simp; omega)]
      exact ⟨rfl, rfl, Or.inl ⟨rfl, rfl, max, Or.inl ⟨rfl, rfl⟩⟩⟩
    · have positive := List.length_pos_of_ne_nil empty
      rw [if_neg (by rw [List.length_map]; omega)]
      refine ⟨rfl, rfl, Or.inr ⟨rfl, later, rfl, rfl, ?_⟩⟩
      exact rightLoop_opened later (by omega) (by rw [MAX_PAGE_OFFSET]; omega)
  · rw [length_opened placed, if_pos (by omega)]
    exact ⟨rfl, rfl, Or.inl ⟨rfl, rfl, max, Or.inr ⟨placed, rfl⟩⟩⟩

-----------------------------------------------------------------------------------------
-- The cursor
-----------------------------------------------------------------------------------------

/-- The record that a cursor designates. -/
def Put.record (put : Put ι) (c : Cursor) : Option ι :=
  ((put.pages.lookup c.pgno).bind fun slots => slots[c.index]?).join

/-- How many records a split moves to the left page. -/
def movedLeft (measure : Measure ι) (psize : Nat) (items : List ι) (skip ilen : Nat) : Nat :=
  items.length
    - (leftLoop measure skip ilen (psize - BTDATAOFF) (items.length + 2) items [] 0 0).2.length

/-- Whether the open slot is on the left page. -/
def slotLeft (measure : Measure ι) (psize : Nat) (items : List ι) (skip ilen : Nat) : Bool :=
  skip ≤ ((leftLoop measure skip ilen (psize - BTDATAOFF) (items.length + 2) items [] 0 0).1.length
    + 65535) % 2 ^ 16

/-- The place of a record behind the new one. -/
def shifted (skip i : Nat) : Nat := if i ≥ skip then i + 1 else i

theorem getElem?_set_opened {skip i : Nat} {xs : List ι} (le : skip ≤ xs.length) (item : ι)
    : ((opened skip xs).set skip (some item))[shifted skip i]? = xs[i]?.map some := by
  have other : skip ≠ shifted skip i := by
    rw [shifted]
    split <;> omega
  rw [List.getElem?_set_ne other]
  exact getElem?_opened le

theorem join_map_some (x : Option ι) : (x.map some).join = x := by
  cases x <;> rfl

/-- Two neighbours differ. -/
theorem getElem?_succ_ne {items : List ι} {i : Nat} (nodup : items.Nodup) (inside : i < items.length)
    : items[i + 1]? ≠ items[i]? := by
  intro same
  rw [List.getElem?_eq_getElem inside] at same
  obtain ⟨inside', equal⟩ := List.getElem?_eq_some_iff.mp same
  have := (nodup.getElem_inj_iff).mp equal
  omega

theorem lookup_left {lpgno npg : Nat} {left right : List (Option ι)}
    : [(lpgno, left), (npg, right)].lookup lpgno = some left := List.lookup_cons_self

theorem lookup_right {lpgno npg : Nat} {left right : List (Option ι)} (pages : npg ≠ lpgno)
    : [(lpgno, left), (npg, right)].lookup npg = some right := by
  have other : (npg == lpgno) = false := by simpa using pages
  rw [List.lookup_cons, other]
  exact List.lookup_cons_self

theorem btPsplit_inLeft (measure : Measure ι) (psize hpgno lpgno rpgno : Nat) (items : List ι)
    (skip ilen : Nat) (c : Cursor)
    : (btPsplit measure (psize - BTDATAOFF) hpgno lpgno rpgno items skip ilen c).inLeft
      = slotLeft measure psize items skip ilen := by
  simp only [btPsplit, slotLeft]
  split
  next left => exact (decide_eq_true left).symm
  next right => exact (decide_eq_false right).symm

theorem btPsplit_nxt (measure : Measure ι) (psize hpgno lpgno rpgno : Nat) (items : List ι)
    (skip ilen : Nat) (c : Cursor)
    : (btPsplit measure (psize - BTDATAOFF) hpgno lpgno rpgno items skip ilen c).nxt
      = movedLeft measure psize items skip ilen := by
  simp only [btPsplit, movedLeft]
  split <;> rfl

theorem btPsplit_cursor (measure : Measure ι) (full hpgno lpgno rpgno : Nat) (items : List ι)
    (skip ilen : Nat) {c : Cursor} (place : c.pgno = hpgno)
    : (btPsplit measure full hpgno lpgno rpgno items skip ilen c).cursor
      = if shifted skip c.index < (btPsplit measure full hpgno lpgno rpgno items skip ilen c).nxt then
          ⟨lpgno, shifted skip c.index⟩
        else
          ⟨rpgno, shifted skip c.index
            - (btPsplit measure full hpgno lpgno rpgno items skip ilen c).nxt⟩ := by
  simp only [btPsplit, if_pos place]
  split <;> rfl

section

variable (measure : Measure ι) (psize : Nat) (root last : Bool) {hpgno lnpg npg : Nat}
  {items : List ι} (item : ι) {skip : Nat} (ilen : Nat) {c : Cursor}

/-- A page that is split keeps the record of the cursor, unless the slot is left of it and it is the
last one on the left page or further right. The record after it takes its place then.
-/
theorem btPsplit_record (lpgno : Nat) (pages : npg ≠ lpgno) (place : c.pgno = hpgno)
    (some : c.index < items.length) (small : items.length < 32758) (inside : skip ≤ items.length)
    : let split := btPsplit measure (psize - BTDATAOFF) hpgno lpgno npg items skip ilen c
      let put : Put ι := if split.inLeft then
          ⟨[(lpgno, split.left.set split.pskip (.some item)), (npg, split.right)], split.cursor⟩
        else ⟨[(lpgno, split.left), (npg, split.right.set split.pskip (.some item))], split.cursor⟩
      put.record put.cursor
        = if split.inLeft ∧ skip ≤ c.index ∧ split.nxt ≤ c.index + 1 then items[c.index + 1]?
          else items[c.index]? := by
  have nonempty : items ≠ [] := List.ne_nil_of_length_pos (by omega)
  obtain ⟨copied, rest, whole, -, count, shape⟩ :=
    btPsplit_spec measure (psize - BTDATAOFF) hpgno lpgno npg ilen c nonempty small inside
  have cursor := btPsplit_cursor measure (psize - BTDATAOFF) hpgno lpgno npg items skip ilen place
  rw [count] at cursor
  intro split put
  have length : items.length = copied.length + rest.length := by rw [whole, List.length_append]
  have onLeft (i : Nat) (lt : i < copied.length) : copied[i]? = items[i]? := by
    rw [whole, List.getElem?_append_left lt]
  have onRight (i : Nat) (le : copied.length ≤ i) : rest[i - copied.length]? = items[i]? := by
    rw [whole, List.getElem?_append_right le]
  rcases shape with ⟨inLeft, pskip, right, left⟩ | ⟨inLeft, later, pskip, left, right⟩
  · simp only [put, split, inLeft, if_true, true_and, count, pskip, right, cursor]
    by_cases wrong : skip ≤ c.index ∧ copied.length ≤ c.index + 1
    · rw [if_pos wrong, shifted, if_pos wrong.1, if_neg (by omega), Put.record,
        lookup_right pages, Option.bind_some, List.getElem?_map, join_map_some]
      exact onRight _ wrong.2
    rw [if_neg wrong]
    by_cases here : shifted skip c.index < copied.length
    · rcases left with ⟨rfl, -⟩ | ⟨placed, left⟩
      · exact absurd here (Nat.not_lt_zero _)
      · rw [if_pos here, Put.record, left, lookup_left, Option.bind_some, getElem?_set_opened placed,
          join_map_some]
        refine onLeft _ ?_
        rw [shifted] at here
        split at here <;> omega
    · have same : shifted skip c.index = c.index := if_neg (by rw [shifted] at here; split at here <;> omega)
      rw [if_neg here, Put.record, lookup_right pages, Option.bind_some, List.getElem?_map,
        join_map_some, same]
      exact onRight _ (by omega)
  · have fits : skip - copied.length ≤ rest.length := by omega
    simp only [put, split, inLeft, Bool.false_eq_true, if_false, false_and, count, pskip, left, right,
      cursor]
    by_cases here : shifted skip c.index < copied.length
    · have same : shifted skip c.index = c.index := if_neg (by rw [shifted] at here; split at here <;> omega)
      rw [if_pos here, Put.record, lookup_left, Option.bind_some, List.getElem?_map, join_map_some]
      exact (congrArg (items[·]?) same) ▸ onLeft _ here
    · have past : copied.length ≤ c.index := by
        rw [shifted] at here
        split at here <;> omega
      have moved : shifted skip c.index - copied.length
          = shifted (skip - copied.length) (c.index - copied.length) := by
        rw [shifted, shifted]
        split_ifs <;> omega
      rw [if_neg here, Put.record, lookup_right pages, Option.bind_some, moved,
        getElem?_set_opened fits, join_map_some]
      exact onRight _ past

end

/-- Records of 100 bytes. -/
def hundred : Measure Nat := ⟨fun _ => 100, fun _ => false⟩

end BSDLibC.Btree
