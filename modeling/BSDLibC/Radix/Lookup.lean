import BSDLibC.Radix.Wellformed

/-! Where `radix_tree_lookup_ptr` ends in a well-formed tree. -/

namespace BSDLibC.Radix

variable {P : Type} {t : Tree P} {idx : UInt64} {e : Entry P} {h : Nat} {ctx : List (Frame P)}

/-- The indexes that lead to the slot of `idx` in a tree of height `h`. -/
def path : Nat → UInt64 → Slot
  | 0, _ => []
  | h + 1, idx => nibble idx h :: path h idx

@[simp] theorem length_path (h : Nat) (idx : UInt64) : (path h idx).length = h := by
  induction h with
  | zero => rfl
  | succ h ih => rw [path, List.length_cons, ih]

theorem nibble_val (idx : UInt64) (level : Nat) : (nibble idx level).val = idx.toNat / 16 ^ level % 16 := by
  have power : 2 ^ (4 * level) = 16 ^ level := by rw [Nat.pow_mul]
  rw [nibble, Fin.val_ofNat, Nat.shiftRight_eq_div_pow, power]

/-- The first digit of an index is zero if it fits without it. -/
theorem nibble_eq_zero_iff (fits : idx.toNat < 16 ^ (h + 1)) : nibble idx h = 0 ↔ idx.toNat < 16 ^ h := by
  have positive : 0 < 16 ^ h := Nat.pow_pos (by decide)
  rw [← Fin.val_inj, nibble_val, Fin.val_zero]
  rw [Nat.pow_succ] at fits
  have digit : idx.toNat / 16 ^ h < 16 := Nat.div_lt_of_lt_mul fits
  rw [Nat.mod_eq_of_lt digit, Nat.div_eq_zero_iff]
  omega

/-- An index that fits is determined by its path. -/
theorem path_injective {idx' : UInt64} (fits : idx.toNat < 16 ^ h) (fits' : idx'.toNat < 16 ^ h)
    (same : path h idx = path h idx')
    : idx = idx' := by
  have digits (h : Nat) (same : path h idx = path h idx')
      : idx.toNat % 16 ^ h = idx'.toNat % 16 ^ h := by
    induction h with
    | zero => simp [Nat.mod_one]
    | succ h ih =>
        rw [path, path] at same
        obtain ⟨first, rest⟩ := List.cons.inj same
        have digit := congrArg Fin.val first
        rw [nibble_val, nibble_val] at digit
        rw [Nat.pow_succ, Nat.mod_mul, Nat.mod_mul, ih rest, digit]
  have whole := digits h same
  rw [Nat.mod_eq_of_lt fits, Nat.mod_eq_of_lt fits'] at whole
  exact UInt64.toNat_inj.mp whole

/-- Every slot at the bottom belongs to an index. -/
theorem exists_index (vpp : Slot) (short : vpp.length ≤ 16)
    : ∃ idx : UInt64, idx.toNat < 16 ^ vpp.length ∧ path vpp.length idx = vpp := by
  have number (vpp : Slot)
      : ∃ n, n < 16 ^ vpp.length
        ∧ ∀ idx : UInt64, idx.toNat % 16 ^ vpp.length = n → path vpp.length idx = vpp := by
    induction vpp with
    | nil => exact ⟨0, by simp, fun _ _ => rfl⟩
    | cons i vpp ih =>
        obtain ⟨n, small, digits⟩ := ih
        have digit := i.isLt
        have bound : i.val * 16 ^ vpp.length + n < 16 ^ (i :: vpp).length := by
          rw [List.length_cons, Nat.pow_succ']
          calc i.val * 16 ^ vpp.length + n < i.val * 16 ^ vpp.length + 16 ^ vpp.length := by omega
            _ = (i.val + 1) * 16 ^ vpp.length := by rw [Nat.succ_mul]
            _ ≤ 16 * 16 ^ vpp.length := Nat.mul_le_mul_right _ (by omega)
        refine ⟨_, bound, fun idx same => ?_⟩
        rw [List.length_cons, Nat.pow_succ, Nat.mod_mul, Nat.add_comm, Nat.mul_comm] at same
        have positive : 0 < 16 ^ vpp.length := Nat.pow_pos (by decide)
        have below : idx.toNat % 16 ^ vpp.length = n := by
          have parts := congrArg (· % 16 ^ vpp.length) same
          simp only [Nat.mul_add_mod_of_lt (Nat.mod_lt _ positive), Nat.mul_add_mod',
            Nat.mod_eq_of_lt small] at parts
          exact parts
        have first : idx.toNat / 16 ^ vpp.length % 16 = i.val := by
          rw [below] at same
          exact Nat.eq_of_mul_eq_mul_right positive (Nat.add_right_cancel same)
        rw [List.length_cons, path, digits idx below]
        congr 1
        apply Fin.ext
        rw [nibble_val, first]
  obtain ⟨n, small, digits⟩ := number vpp
  have size : n < UInt64.size :=
    Nat.lt_of_lt_of_le small (Nat.pow_le_pow_right (show 0 < 16 by decide) short)
  have value : (UInt64.ofNat n).toNat = n := UInt64.toNat_ofNat_of_lt size
  refine ⟨UInt64.ofNat n, by rw [value]; exact small, digits _ ?_⟩
  rw [value, Nat.mod_eq_of_lt small]

/-- The tree as a map from indexes to leafs. -/
def contents (t : Tree P) (idx : UInt64) : Option (P × Tags) :=
  if idx.toNat < 16 ^ t.tHeight then leafAt t.tRoot (path t.tHeight idx) else none

/-- The trees that the functions make. -/
structure Tree.Wf (t : Tree P) : Prop where
  root : Radix.Wf t.tHeight t.tRoot
  height : t.tHeight ≤ 16
  empty : t.tRoot = .null 0 → t.tHeight = 0

theorem lt_of_idx (idx : UInt64) : idx.toNat < 16 ^ 16 := idx.toNat_lt

-----------------------------------------------------------------------------------------
-- Lookups that do not allocate
-----------------------------------------------------------------------------------------

/-- Whether a lookup stops at an entry. -/
def Entry.stops (tagmask : Tags) (e : Entry P) : Bool :=
  e.isNull || (tagmask != 0 && e.tagmask &&& tagmask == 0)

/-- Where a lookup ends below an entry. -/
def descend (tagmask : Tags) : Entry P → Slot → Slot → Found
  | _, [], vpp => .slot vpp
  | .node tags n, i :: rest, vpp =>
      if (Entry.node tags n).stops tagmask then .stopped (some vpp)
      else descend tagmask (n i) rest (vpp ++ [i])
  | _, _ :: _, vpp => .stopped (some vpp)

theorem getSlot_append_of_node {root : Entry P} {vpp : Slot} {tags : Tags} {n : Fin 16 → Entry P}
    (here : getSlot root vpp = some (.node tags n)) (i : Fin 16)
    : getSlot root (vpp ++ [i]) = some (n i) := by
  obtain ⟨ctx, rfl, rfl⟩ := exists_plug here
  rw [getSlot_plug]
  exact getSlot_nil (n i)

/-- Leafs at the bottom only. Empty nodes are allowed here. -/
def Shaped : Nat → Entry P → Prop
  | _, .null _ => True
  | 0, .leaf _ _ => True
  | 0, .node _ _ => False
  | _ + 1, .leaf _ _ => False
  | h + 1, .node _ n => ∀ i, Shaped h (n i)

theorem Wf.shaped (wf : Wf h e) : Shaped h e := by
  induction h generalizing e with
  | zero =>
      cases e with
      | null tags => trivial
      | leaf tags p => trivial
      | node tags n => exact wf.elim
  | succ h ih =>
      cases e with
      | null tags => trivial
      | leaf tags p => exact wf.elim
      | node tags n => exact fun i => ih (wf.1 i)

theorem radixTreeLookupPtr.loop_below (tagmask : Tags) {vpp : Slot} (memory : List Bool)
    (here : getSlot t.tRoot vpp = some e) (shape : Shaped h e) (height : h ≤ t.tHeight)
    : radixTreeLookupPtr.loop idx false tagmask h t vpp memory
      = some (descend tagmask e (path h idx) vpp, t, memory) := by
  induction h generalizing e vpp with
  | zero => simp [radixTreeLookupPtr.loop, path, descend]
  | succ h ih =>
      have low : ¬ t.tHeight ≤ h := by omega
      rw [radixTreeLookupPtr.loop, path]
      simp only [low, decide_false, Bool.false_and, Bool.false_eq_true, if_false]
      rw [radixTreeLookupPtr.next, here]
      cases e with
      | null tags => simp [Entry.isNull, descend]
      | leaf tags p => exact shape.elim
      | node tags n =>
          rw [descend, Entry.stops]
          simp only [Option.bind_eq_bind, Option.bind_some]
          by_cases stops : ((Entry.node tags n).isNull
              || (tagmask != 0 && (Entry.node tags n).tagmask &&& tagmask == 0)) = true
          · rw [if_pos stops, if_pos stops]
            rfl
          · rw [if_neg stops, if_neg stops]
            exact ih (getSlot_append_of_node here _) (shape _) (by omega)

/-- Digits above the height have to be zero. -/
theorem radixTreeLookupPtr.loop_above (tagmask : Tags) (memory : List Bool) (k : Nat)
    (fits : idx.toNat < 16 ^ (t.tHeight + k))
    : radixTreeLookupPtr.loop idx false tagmask (t.tHeight + k) t [] memory
      = if idx.toNat < 16 ^ t.tHeight
          then radixTreeLookupPtr.loop idx false tagmask t.tHeight t [] memory
          else some (.stopped none, t, memory) := by
  induction k with
  | zero =>
      rw [Nat.add_zero] at fits ⊢
      rw [if_pos fits]
  | succ k ih =>
      rw [← Nat.add_assoc] at fits
      have high : t.tHeight ≤ t.tHeight + k := Nat.le_add_right _ _
      rw [← Nat.add_assoc, radixTreeLookupPtr.loop]
      simp only [high, decide_true, Bool.true_and, ne_eq, not_true_eq_false, decide_false,
        Bool.false_eq_true, if_false, Bool.not_false, decide_eq_true_eq, if_true]
      by_cases zero : nibble idx (t.tHeight + k) = 0
      · rw [if_pos zero, ih ((nibble_eq_zero_iff fits).mp zero)]
      · have large : ¬ idx.toNat < 16 ^ t.tHeight := by
          intro small
          exact zero ((nibble_eq_zero_iff fits).mpr
            (Nat.lt_of_lt_of_le small (Nat.pow_le_pow_right (by decide) high)))
        rw [if_neg zero, if_neg large]

theorem lookupPath_of_shaped (shape : Shaped t.tHeight t.tRoot) (height : t.tHeight ≤ 16)
    (idx : UInt64) (tagmask : Tags)
    : lookupPath t idx tagmask
      = some (if idx.toNat < 16 ^ t.tHeight
          then descend tagmask t.tRoot (path t.tHeight idx) [] else .stopped none) := by
  have levels : t.tHeight + (16 - t.tHeight) = 16 := Nat.add_sub_cancel' height
  have above := radixTreeLookupPtr.loop_above tagmask [] (16 - t.tHeight)
    (show idx.toNat < _ by rw [levels]; exact lt_of_idx idx)
  rw [levels] at above
  rw [lookupPath, radixTreeLookupPtr, above]
  split
  · rw [radixTreeLookupPtr.loop_below tagmask [] (getSlot_nil t.tRoot) shape le_rfl]
    rfl
  · rfl

theorem lookupPath_eq (wf : t.Wf) (idx : UInt64) (tagmask : Tags)
    : lookupPath t idx tagmask
      = some (if idx.toNat < 16 ^ t.tHeight
          then descend tagmask t.tRoot (path t.tHeight idx) [] else .stopped none) :=
  lookupPath_of_shaped wf.root.shaped wf.height idx tagmask

/-- A lookup without tags ends at the slot, or at the last slot of the way there, which is empty. -/
theorem descend_cases {rest : Slot} (vpp : Slot) (wf : Wf h e) (long : rest.length = h)
    : (∃ x, getSlot e rest = some x ∧ descend 0 e rest vpp = .slot (vpp ++ rest))
      ∨ ∃ inner more, rest = inner ++ more ∧ more ≠ [] ∧ getSlot e inner = some (.null 0)
        ∧ getSlot e rest = none ∧ descend 0 e rest vpp = .stopped (some (vpp ++ inner)) := by
  induction rest generalizing e h vpp with
  | nil => exact Or.inl ⟨e, getSlot_nil e, by simp [descend]⟩
  | cons i rest ih =>
      obtain _ | h := h
      · simp at long
      cases e with
      | null tags =>
          obtain rfl : tags = 0 := wf
          exact Or.inr ⟨[], i :: rest, rfl, by simp, rfl, rfl, by simp [descend]⟩
      | leaf tags p => exact wf.elim
      | node tags n =>
          have goes : descend 0 (.node tags n) (i :: rest) vpp = descend 0 (n i) rest (vpp ++ [i]) := by
            simp [descend, Entry.stops, Entry.isNull]
          rcases ih (vpp ++ [i]) (wf.1 i) (Nat.succ.inj long) with
            ⟨x, there, ends⟩ | ⟨inner, more, split, left, empty, missing, ends⟩
          · exact Or.inl ⟨x, there, by rw [goes, ends, List.append_assoc]; rfl⟩
          · refine Or.inr ⟨i :: inner, more, by rw [split]; rfl, left, empty, missing, ?_⟩
            rw [goes, ends, List.append_assoc]
            rfl

theorem user?_of_wf (wf : Wf 0 e) : e.user? = some (e.leaf?.map (·.1)) := by
  cases e with
  | null tags => rfl
  | leaf tags p => rfl
  | node tags n => exact wf.elim

theorem getSlot_wf {vpp : Slot} {x : Entry P} (wf : Wf (h + vpp.length) e) (there : getSlot e vpp = some x)
    : Wf h x := by
  obtain ⟨ctx, rfl, rfl⟩ := exists_plug there
  rw [length_route] at wf
  exact wf.parts.2

/-- A lookup returns what the map holds. -/
theorem radixTreeLookupNode_eq (wf : t.Wf) (idx : UInt64)
    : radixTreeLookupNode t idx = some ((contents t idx).map (·.1)) := by
  rw [radixTreeLookupNode, lookupPath_eq wf, contents]
  by_cases fits : idx.toNat < 16 ^ t.tHeight
  · rw [if_pos fits, if_pos fits]
    rcases descend_cases [] wf.root (length_path t.tHeight idx) with
      ⟨x, there, ends⟩ | ⟨inner, more, -, -, -, missing, ends⟩
    · have bottom : Radix.Wf 0 x :=
        getSlot_wf (by rw [length_path, Nat.zero_add]; exact wf.root) there
      rw [ends, leafAt, there]
      simp only [Option.bind_eq_bind, Option.bind_some, List.nil_append, there]
      exact user?_of_wf bottom
    · rw [ends, leafAt, missing]
      rfl
  · rw [if_neg fits, if_neg fits]
    rfl

/-- The slot of an index that is there. -/
theorem presentSlot_eq (wf : t.Wf) {leaf : P × Tags} (there : contents t idx = some leaf)
    : ∃ ctx, t.tRoot = plug ctx (.leaf leaf.2 leaf.1) ∧ route ctx = path t.tHeight idx
      ∧ ctx.length = t.tHeight
      ∧ presentSlot t idx = some (route ctx, .leaf leaf.2 leaf.1) := by
  rw [contents] at there
  split at there
  · next fits =>
      rw [leafAt, Option.bind_eq_some_iff] at there
      obtain ⟨x, slot, leafed⟩ := there
      have entry : x = .leaf leaf.2 leaf.1 := by
        cases x with
        | null tags => cases leafed
        | leaf tags p =>
            cases leafed
            rfl
        | node tags n => cases leafed
      subst entry
      obtain ⟨ctx, whole, way⟩ := exists_plug slot
      refine ⟨ctx, whole, way, by rw [← length_route, way, length_path], ?_⟩
      rw [presentSlot, lookupPath_eq wf, if_pos fits]
      rcases descend_cases [] wf.root (length_path t.tHeight idx) with
        ⟨y, -, ends⟩ | ⟨inner, more, -, -, -, missing, -⟩
      · rw [ends]
        simp [slot, Entry.isZero, Entry.isNull, way]
      · rw [missing] at slot
        cases slot
  · cases there

end BSDLibC.Radix
