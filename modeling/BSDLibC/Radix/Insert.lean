import BSDLibC.Radix.Updates

/-! Insertion, with allocations that may fail. -/

namespace BSDLibC.Radix

variable {P : Type} {t : Tree P} {idx : UInt64} {e : Entry P} {h : Nat} {ctx : List (Frame P)}

-----------------------------------------------------------------------------------------
-- Growing
-----------------------------------------------------------------------------------------

/-- A tree that is higher and holds the same. It may be empty. -/
structure Grown (t t' : Tree P) (newheight : Nat) : Prop where
  root : Wf newheight t'.tRoot
  height : t'.tHeight = newheight
  same : contents t' = contents t

/-- A node above the root, whose first slot holds it. -/
theorem wf_stacked (wf : Wf h e) (nonzero : e ≠ .null 0)
    : Wf (h + 1) (.node e.tagmask (Function.update emptyNode 0 e)) := by
  refine ⟨fun i => ?_, sumNonzero_iff.mpr ⟨0, by simpa using nonzero⟩, tags_ext fun b => ?_⟩
  · by_cases first : i = 0
    · rw [first, Function.update_self]
      exact wf
    · rw [Function.update_of_ne first]
      exact wf_null h
  · rw [getLsbD_sumTags]
    constructor
    · intro tagged
      exact ⟨0, by simpa [Entry.Tagged] using tagged⟩
    · rintro ⟨i, tagged⟩
      by_cases first : i = 0
      · rw [first, Function.update_self] at tagged
        exact tagged
      · rw [Function.update_of_ne first] at tagged
        simp [Entry.Tagged, emptyNode, Entry.tagmask] at tagged

theorem contents_stacked (tags : Tags) (e : Entry P) (h : Nat)
    : contents ⟨.node tags (Function.update emptyNode 0 e), h + 1⟩ = contents ⟨e, h⟩ := by
  funext j
  rw [contents, contents, path]
  by_cases fits : j.toNat < 16 ^ (h + 1)
  · rw [if_pos fits, leafAt_node]
    by_cases small : j.toNat < 16 ^ h
    · rw [if_pos small, (nibble_eq_zero_iff fits).mpr small, Function.update_self]
    · have other : nibble j h ≠ 0 := fun zero => small ((nibble_eq_zero_iff fits).mp zero)
      rw [if_neg small, Function.update_of_ne other, emptyNode, leafAt_null]
  · have large : ¬ j.toNat < 16 ^ h := by
      have := Nat.pow_le_pow_right (show 0 < 16 by decide) (Nat.le_succ h)
      omega
    rw [if_neg fits, if_neg large]

theorem radixTreeGrow.stack_cases (levels : Nat) (wf : Wf h e) (nonzero : e ≠ .null 0)
    (memory : List Bool)
    : (∃ memory', radixTreeGrow.stack e.tagmask levels e memory = (none, memory'))
      ∨ ∃ root memory', radixTreeGrow.stack e.tagmask levels e memory = (some root, memory')
        ∧ Wf (h + levels) root ∧ root ≠ .null 0 ∧ contents ⟨root, h + levels⟩ = contents ⟨e, h⟩ := by
  induction levels generalizing h e memory with
  | zero => exact Or.inr ⟨e, memory, rfl, wf, nonzero, rfl⟩
  | succ levels ih =>
      rw [radixTreeGrow.stack]
      rcases radixTreeAllocNode memory with ⟨success, memory⟩
      cases success with
      | false => exact Or.inl ⟨memory, rfl⟩
      | true =>
          rcases ih (wf_stacked wf nonzero) (by simp) memory with
            ⟨memory', fails⟩ | ⟨root, memory', grows, wf', nonzero', same⟩
          · exact Or.inl ⟨memory', fails⟩
          · refine Or.inr ⟨root, memory', grows, ?_, nonzero', ?_⟩
            · rwa [Nat.add_comm levels, ← Nat.add_assoc]
            · rw [Nat.add_comm levels, ← Nat.add_assoc, same, contents_stacked]

theorem radixTreeGrow_cases (wf : t.Wf) {newheight : Nat} (higher : t.tHeight ≤ newheight)
    (memory : List Bool)
    : (∃ memory', radixTreeGrow t newheight memory = (none, memory'))
      ∨ ∃ t' memory', radixTreeGrow t newheight memory = (some t', memory')
        ∧ Grown t t' newheight := by
  rw [radixTreeGrow]
  by_cases zero : t.tRoot.isZero = true
  · have null := Entry.isZero_iff.mp zero
    rw [if_pos zero]
    refine Or.inr ⟨_, memory, rfl, ?_, rfl, ?_⟩
    · simp only [null]
      exact wf_null newheight
    · obtain ⟨root, height⟩ := t
      obtain rfl : root = .null 0 := null
      funext j
      rw [contents_null, contents_null]
  · have nonzero : t.tRoot ≠ .null 0 := fun null => zero (Entry.isZero_iff.mpr null)
    rw [if_neg zero]
    rcases radixTreeGrow.stack_cases (newheight - t.tHeight) wf.root nonzero memory with
      ⟨memory', fails⟩ | ⟨root, memory', grows, wf', -, same⟩
    · rw [fails]
      exact Or.inl ⟨memory', rfl⟩
    · rw [Nat.add_sub_cancel' higher] at wf' same
      rw [grows]
      refine Or.inr ⟨_, memory', rfl, wf', Nat.max_eq_right higher, ?_⟩
      simp only [Nat.max_eq_right higher]
      exact same

-----------------------------------------------------------------------------------------
-- Lookups that allocate
-----------------------------------------------------------------------------------------

/-- A frame of a node that has just been allocated. -/
def Frame.Fresh (f : Frame P) : Prop := f.tags = 0 ∧ f.n = emptyNode

theorem fill_fresh (i : Fin 16) : Frame.fill ⟨0, emptyNode, i⟩ (.null 0) = (.node 0 emptyNode : Entry P) := by
  rw [Frame.fill, Frame.put]
  congr 1
  exact Function.update_eq_self i emptyNode

/-- The nodes below an empty slot are new, as far as there is memory for them. -/
theorem radixTreeLookupPtr.loop_fresh {vpp : Slot} (way : route ctx = vpp) (height : h ≤ t.tHeight)
    (whole : t.tRoot = plug ctx (.null 0)) (memory : List Bool)
    : ∃ fresh found memory', (∀ f ∈ fresh, Frame.Fresh f)
      ∧ radixTreeLookupPtr.loop idx true 0 h t vpp memory
        = some (found, ⟨plug (fresh ++ ctx) (.null 0), t.tHeight⟩, memory')
      ∧ ((route fresh = path h idx ∧ found = .slot (vpp ++ path h idx))
        ∨ ∃ i more lastidx, path h idx = route fresh ++ i :: more ∧ found = .stopped lastidx) := by
  induction h generalizing t ctx vpp memory with
  | zero =>
      refine ⟨[], .slot vpp, memory, by simp, ?_, Or.inl ⟨rfl, by simp [path]⟩⟩
      have here : getSlot t.tRoot vpp = some (.null 0) := by rw [whole, ← way, getSlot_route]
      rw [radixTreeLookupPtr.loop, if_pos rfl, here, List.nil_append, ← whole]
      rfl
  | succ h ih =>
      have low : ¬ t.tHeight ≤ h := by omega
      have here : getSlot t.tRoot vpp = some (.null 0) := by rw [whole, ← way, getSlot_route]
      rw [radixTreeLookupPtr.loop]
      simp only [low, decide_false, Bool.false_and, Bool.false_eq_true, if_false]
      rw [radixTreeLookupPtr.next, here]
      simp only [Option.bind_eq_bind, Option.bind_some, Entry.isNull, Bool.true_or, if_true,
        Bool.not_true, Bool.false_eq_true, if_false]
      rcases radixTreeAllocNode memory with ⟨success, memory⟩
      cases success with
      | false =>
          refine ⟨[], .stopped (some vpp), memory, by simp, ?_,
            Or.inr ⟨nibble idx h, path h idx, _, rfl, rfl⟩⟩
          rw [List.nil_append, ← whole]
          rfl
      | true =>
          -- The new node is the first frame around the next slot.
          have filled : setSlot (.node 0 emptyNode) t.tRoot vpp
              = plug (⟨0, emptyNode, nibble idx h⟩ :: ctx) (.null 0) := by
            rw [whole, ← way, setSlot_route, plug_cons, fill_fresh]
          have deeper : route (⟨0, emptyNode, nibble idx h⟩ :: ctx) = vpp ++ [nibble idx h] := by
            rw [route_cons, way]
          obtain ⟨fresh, found, memory', new, run, ends⟩ :=
            ih (t := ⟨setSlot (.node 0 emptyNode) t.tRoot vpp, t.tHeight⟩) deeper
              (show h ≤ t.tHeight by omega) filled memory
          refine ⟨fresh ++ [⟨0, emptyNode, nibble idx h⟩], found, memory', ?_, ?_, ?_⟩
          · intro f member
            rcases List.mem_append.mp member with inside | last
            · exact new f inside
            · rw [List.mem_singleton.mp last]
              exact ⟨rfl, rfl⟩
          · rw [List.append_assoc]
            exact run
          · have ways : route (fresh ++ [⟨0, emptyNode, nibble idx h⟩]) = nibble idx h :: route fresh := by
              simp [route]
            rw [ways, path]
            rcases ends with ⟨same, slot⟩ | ⟨i, more, lastidx, split, stopped⟩
            · exact Or.inl ⟨by rw [same], by rw [slot, List.append_assoc]; rfl⟩
            · exact Or.inr ⟨i, more, lastidx, by rw [split]; rfl, stopped⟩

/-- The way to an index that is not there leads through nodes that are there, and then through
new ones.
-/
theorem radixTreeLookupPtr.loop_alloc {vpp : Slot} (way : route ctx = vpp) (height : h ≤ t.tHeight)
    (whole : t.tRoot = plug ctx e) (wf : Radix.Wf h e) (absent : leafAt e (path h idx) = none)
    (memory : List Bool)
    : ∃ fresh old found memory', e = plug old (.null 0) ∧ (∀ f ∈ fresh, Frame.Fresh f)
      ∧ radixTreeLookupPtr.loop idx true 0 h t vpp memory
        = some (found, ⟨plug (fresh ++ old ++ ctx) (.null 0), t.tHeight⟩, memory')
      ∧ ((route (fresh ++ old) = path h idx ∧ found = .slot (vpp ++ path h idx))
        ∨ ∃ i more lastidx, path h idx = route (fresh ++ old) ++ i :: more
          ∧ found = .stopped lastidx) := by
  induction h generalizing e ctx vpp with
  | zero =>
      cases e with
      | null tags =>
          obtain rfl : tags = 0 := wf
          obtain ⟨fresh, found, memory', new, run, ends⟩ := loop_fresh way height whole memory
          exact ⟨fresh, [], found, memory', rfl, new, by simpa using run, by simpa using ends⟩
      | leaf tags p => cases absent
      | node tags n => exact wf.elim
  | succ h ih =>
      cases e with
      | null tags =>
          obtain rfl : tags = 0 := wf
          obtain ⟨fresh, found, memory', new, run, ends⟩ := loop_fresh way height whole memory
          exact ⟨fresh, [], found, memory', rfl, new, by simpa using run, by simpa using ends⟩
      | leaf tags p => exact wf.elim
      | node tags n =>
          have low : ¬ t.tHeight ≤ h := by omega
          have here : getSlot t.tRoot vpp = some (.node tags n) := by rw [whole, ← way, getSlot_route]
          have same : Frame.fill ⟨tags, n, nibble idx h⟩ (n (nibble idx h)) = .node tags n := by
            rw [Frame.fill, Frame.put, Function.update_eq_self]
          have deeper : route (⟨tags, n, nibble idx h⟩ :: ctx) = vpp ++ [nibble idx h] := by
            rw [route_cons, way]
          obtain ⟨fresh, old, found, memory', below, new, run, ends⟩ :=
            ih deeper (by omega) (by rw [plug_cons, same, whole]) (wf.1 (nibble idx h)) absent
          refine ⟨fresh, old ++ [⟨tags, n, nibble idx h⟩], found, memory', ?_, new, ?_, ?_⟩
          · rw [plug_append, ← below, plug_cons, plug_nil, same]
          · rw [radixTreeLookupPtr.loop]
            simp only [low, decide_false, Bool.false_and, Bool.false_eq_true, if_false]
            rw [radixTreeLookupPtr.next, here]
            simp only [Option.bind_eq_bind, Option.bind_some, Entry.isNull, bne_self_eq_false,
              Bool.false_and, Bool.false_or, Bool.false_eq_true, if_false]
            rw [List.append_assoc, List.append_assoc, List.singleton_append, ← List.append_assoc]
            exact run
          · have ways : route (fresh ++ (old ++ [⟨tags, n, nibble idx h⟩]))
                = nibble idx h :: route (fresh ++ old) := by
              simp [route]
            rw [ways, path]
            rcases ends with ⟨reached, slot⟩ | ⟨i, more, lastidx, split, stopped⟩
            · exact Or.inl ⟨by rw [reached], by rw [slot, List.append_assoc]; rfl⟩
            · exact Or.inr ⟨i, more, lastidx, by rw [split]; rfl, stopped⟩

/-- A lookup that allocates begins with the growth of the tree, if it has to. -/
theorem radixTreeLookupPtr.loop_grow (wf : t.Wf) (k : Nat) (fits : idx.toNat < 16 ^ (t.tHeight + k))
    (memory : List Bool)
    : (∃ memory', ¬ idx.toNat < 16 ^ t.tHeight
        ∧ radixTreeLookupPtr.loop idx true 0 (t.tHeight + k) t [] memory
          = some (.stopped none, t, memory'))
      ∨ ∃ newheight t' memory', newheight ≤ t.tHeight + k ∧ Grown t t' newheight
        ∧ idx.toNat < 16 ^ newheight
        ∧ radixTreeLookupPtr.loop idx true 0 (t.tHeight + k) t [] memory
          = radixTreeLookupPtr.loop idx true 0 newheight t' [] memory' := by
  induction k with
  | zero =>
      exact Or.inr ⟨t.tHeight, t, memory, le_rfl, ⟨wf.root, rfl, rfl⟩, fits, rfl⟩
  | succ k ih =>
      rw [← Nat.add_assoc] at fits ⊢
      have high : t.tHeight ≤ t.tHeight + k := Nat.le_add_right _ _
      by_cases zero : nibble idx (t.tHeight + k) = 0
      · have skips : radixTreeLookupPtr.loop idx true 0 (t.tHeight + k + 1) t [] memory
            = radixTreeLookupPtr.loop idx true 0 (t.tHeight + k) t [] memory := by
          rw [radixTreeLookupPtr.loop]
          simp [high, zero]
        rw [skips]
        rcases ih ((nibble_eq_zero_iff fits).mp zero) with
          ⟨memory', large, fails⟩ | ⟨newheight, t', memory', le, grown, small, same⟩
        · exact Or.inl ⟨memory', large, fails⟩
        · exact Or.inr ⟨newheight, t', memory', Nat.le_succ_of_le le, grown, small, same⟩
      · have large : ¬ idx.toNat < 16 ^ t.tHeight := by
          intro small
          exact zero ((nibble_eq_zero_iff fits).mpr
            (Nat.lt_of_lt_of_le small (Nat.pow_le_pow_right (by decide) high)))
        rcases radixTreeGrow_cases wf (show t.tHeight ≤ t.tHeight + k + 1 by omega) memory with
          ⟨memory', fails⟩ | ⟨t', memory', grows, grown⟩
        · refine Or.inl ⟨memory', large, ?_⟩
          rw [radixTreeLookupPtr.loop]
          simp [high, zero, fails]
        · refine Or.inr ⟨t.tHeight + k + 1, t', memory', le_rfl, grown, fits, ?_⟩
          have low : ¬ t'.tHeight ≤ t.tHeight + k := by
            rw [grown.height]
            omega
          rw [radixTreeLookupPtr.loop, radixTreeLookupPtr.loop]
          simp [high, zero, grows, low]

-----------------------------------------------------------------------------------------
-- `radix_tree_insert_node`
-----------------------------------------------------------------------------------------

theorem Frame.Fresh.put {f : Frame P} (new : f.Fresh) (e : Entry P) (j : Fin 16)
    : f.put e j = if j = f.i then e else .null 0 := by
  rw [Frame.put, new.2, Function.update_apply, emptyNode]

theorem settle_fresh {f : Frame P} (new : f.Fresh) (nonzero : e ≠ .null 0) (untagged : e.tagmask = 0)
    : settle (f.put e) = f.fill e := by
  have none_tagged : sumTags (f.put e) = f.tags := by
    rw [new.1]
    refine tags_ext fun b => ?_
    rw [getLsbD_sumTags]
    simp only [BitVec.ofNat_eq_ofNat, BitVec.getLsbD_zero, Bool.false_eq_true, iff_false, not_exists]
    intro j
    rw [new.put, Entry.Tagged]
    split
    · simp [untagged]
    · simp [Entry.tagmask]
  have filled : sumNonzero (f.put e) = true := sumNonzero_iff.mpr ⟨f.i, by simpa using nonzero⟩
  rw [settle, if_pos filled, none_tagged, Frame.fill]

theorem sumNonzero_fresh {f : Frame P} (new : f.Fresh) : sumNonzero (f.put (.null 0)) = false := by
  rw [sumNonzero_false]
  intro j
  rw [new.put, ite_self]

/-- New nodes without a leaf are empty. -/
theorem rebuild_fresh_null {fresh : List (Frame P)} (new : ∀ f ∈ fresh, Frame.Fresh f)
    : rebuild fresh (.null 0) = .null 0 := by
  induction fresh with
  | nil => rfl
  | cons f fresh ih =>
      have zero : settle (f.put (.null 0)) = .null 0 := by
        rw [settle, sumNonzero_fresh (new f (by simp))]
        rfl
      rw [rebuild, zero]
      exact ih fun g member => new g (by simp [member])

/-- New nodes above a leaf without tags are as they should be. -/
theorem rebuild_fresh_leaf {fresh : List (Frame P)} (new : ∀ f ∈ fresh, Frame.Fresh f)
    (nonzero : e ≠ .null 0) (untagged : e.tagmask = 0)
    : rebuild fresh e = plug fresh e ∧ plug fresh e ≠ .null 0 ∧ (plug fresh e).tagmask = 0 := by
  induction fresh generalizing e with
  | nil => exact ⟨rfl, nonzero, untagged⟩
  | cons f fresh ih =>
      have first := new f (by simp)
      rw [rebuild, settle_fresh first nonzero untagged, plug_cons]
      exact ih (fun g member => new g (by simp [member])) (by simp [Frame.fill]) first.1

theorem around_fresh {fresh : List (Frame P)} (new : ∀ f ∈ fresh, Frame.Fresh f) (h : Nat)
    (old : Around (h + fresh.length) ctx)
    : Around h (fresh ++ ctx) := by
  induction fresh generalizing h with
  | nil => exact old
  | cons f fresh ih =>
      refine ⟨fun j _ => ?_, ih (fun g member => new g (by simp [member])) (h + 1) ?_⟩
      · rw [(new f (by simp)).2]
        exact wf_null h
      · rwa [List.length_cons, Nat.add_comm fresh.length, ← Nat.add_assoc] at old

/-- A tree with new nodes along the way still has its leafs at the bottom. -/
theorem Around.shaped (around : Around h ctx) (shape : Shaped h e)
    : Shaped (h + ctx.length) (plug ctx e) := by
  induction ctx generalizing h e with
  | nil => exact shape
  | cons f up ih =>
      rw [List.length_cons, Nat.add_comm up.length, ← Nat.add_assoc]
      refine ih around.2 fun j => ?_
      by_cases here : j = f.i
      · rw [here, Frame.put_self]
        exact shape
      · rw [Frame.put_ne here]
        exact (around.1 j here).shaped

theorem descend_stopped {inner : Slot} {tags : Tags} (empty : getSlot e inner = some (.null tags))
    (i : Fin 16) (more vpp : Slot)
    : descend 0 e (inner ++ i :: more) vpp = .stopped (some (vpp ++ inner)) := by
  induction inner generalizing e vpp with
  | nil =>
      rw [getSlot_nil] at empty
      obtain rfl := Option.some.inj empty
      simp [descend]
  | cons j inner ih =>
      cases e with
      | null tags => cases empty
      | leaf tags p => cases empty
      | node tags n =>
          have goes : descend 0 (.node tags n) (j :: inner ++ i :: more) vpp
              = descend 0 (n j) (inner ++ i :: more) (vpp ++ [j]) := by
            simp [descend, Entry.stops, Entry.isNull]
          rw [goes, ih empty, List.append_assoc]
          rfl

/-- The new nodes are freed again. -/
theorem freeEmpty_fresh {fresh : List (Frame P)} (new : ∀ f ∈ fresh, Frame.Fresh f)
    (ctx : List (Frame P)) (more : Slot)
    : freeEmpty (route (fresh ++ ctx) ++ more) (fresh ++ ctx).length (plug (fresh ++ ctx) (.null 0))
      = freeEmpty (route (fresh ++ ctx) ++ more) ctx.length (plug ctx (.null 0)) := by
  induction fresh generalizing more with
  | nil => rfl
  | cons f fresh ih =>
      have empty := sumNonzero_fresh (new f (by simp))
      have way : route (f :: fresh ++ ctx) ++ more = route (fresh ++ ctx) ++ (f.i :: more) := by simp
      rw [way, List.cons_append, List.length_cons, freeEmpty, take_way, plug_cons, getSlot_route]
      simp only [Option.bind_eq_bind, Option.bind_some, Frame.fill, Entry.nPtrs?, empty,
        Bool.false_eq_true, if_false, setSlot_route]
      exact ih (fun g member => new g (by simp [member])) (f.i :: more)

section
variable {t' : Tree P} {newheight : Nat} (grown : Grown t t' newheight) (max : newheight ≤ 16)
  (fits : idx.toNat < 16 ^ newheight) {fresh old : List (Frame P)}
  (whole : t'.tRoot = plug old (.null 0)) (new : ∀ f ∈ fresh, Frame.Fresh f)
include grown max fits whole new

/-- The slot of the index is there, and the leaf goes into it. -/
theorem insert_success (way : route (fresh ++ old) = path newheight idx) (p : P)
    : Tree.Wf ⟨plug (fresh ++ old) (.leaf 0 p), newheight⟩
      ∧ contents ⟨plug (fresh ++ old) (.leaf 0 p), newheight⟩
        = Function.update (contents t) idx (some (p, 0)) := by
  have length : 0 + (fresh ++ old).length = newheight := by
    rw [Nat.zero_add, ← length_route, way, length_path]
  have root := grown.root
  rw [whole, ← length, List.length_append, ← Nat.add_assoc] at root
  obtain ⟨above, nonzero, untagged⟩ := rebuild_fresh_leaf new (show Entry.leaf 0 p ≠ .null 0 by simp) rfl
  have same : rebuild (fresh ++ old) (.leaf 0 p) = plug (fresh ++ old) (.leaf 0 p) := by
    rw [rebuild_append, above, plug_append, rebuild_eq_plug root nonzero untagged]
  have before : contents ⟨plug (fresh ++ old) (.null 0), newheight⟩ = contents t := by
    rw [← grown.same]
    funext j
    obtain ⟨root', height'⟩ := t'
    obtain rfl : height' = newheight := grown.height
    obtain rfl : root' = plug old (.null 0) := whole
    rw [contents, contents, ← leafAt_rebuild, rebuild_append, rebuild_fresh_null new, leafAt_rebuild]
  rw [← same]
  refine ⟨⟨?_, max, fun null => absurd null (rebuild_ne_null (by simp))⟩, ?_⟩
  · rw [← length]
    exact (around_fresh new 0 root.parts.1).rebuild trivial
  · rw [contents_rebuild fits way (.null 0) (.leaf 0 p), before]
    rfl

/-- Some memory was missing, and the new nodes are taken out again. -/
theorem insert_failure {i : Fin 16} {more : Slot}
    (way : path newheight idx = route (fresh ++ old) ++ i :: more)
    : ∃ t'', radixTreeUndoInsertNode ⟨plug (fresh ++ old) (.null 0), newheight⟩ idx = some t''
      ∧ t''.Wf ∧ contents t'' = contents t := by
  have length : more.length + 1 + fresh.length + old.length = newheight := by
    have lengths := congrArg List.length way
    rw [length_path, List.length_append, length_route, List.length_cons, List.length_append] at lengths
    omega
  have root := grown.root
  rw [whole, ← length] at root
  have shape : Shaped newheight (plug (fresh ++ old) (.null 0)) := by
    have around := around_fresh new (more.length + 1) root.parts.1
    have shaped := around.shaped (e := .null 0) trivial
    rwa [List.length_append, ← Nat.add_assoc, length] at shaped
  have lookup : lookupPath ⟨plug (fresh ++ old) (.null 0), newheight⟩ idx 0
      = some (.stopped (some (route (fresh ++ old)))) := by
    rw [lookupPath_of_shaped shape max, if_pos fits, way, descend_stopped (getSlot_route _ _)]
    rfl
  have frees := freeEmpty_fresh new old []
  rw [List.append_nil, List.length_append, ← List.length_append] at frees
  rw [radixTreeUndoInsertNode, lookup]
  simp only [Option.bind_eq_bind, Option.bind_some, Found.path, length_route, frees]
  cases old with
  | nil =>
      refine ⟨⟨.null 0, 0⟩, rfl, ⟨rfl, Nat.zero_le 16, fun _ => rfl⟩, ?_⟩
      rw [← grown.same]
      funext j
      obtain ⟨root', height'⟩ := t'
      obtain rfl : root' = .null 0 := whole
      rw [contents_null, contents_null]
  | cons f up =>
      have filled : sumNonzero (f.put (.null 0)) = true := root.frame.1
      have stays : freeEmpty (route (fresh ++ f :: up)) (f :: up).length (plug (f :: up) (.null 0))
          = some (plug (f :: up) (.null 0), (f :: up).length) := by
        have ways : route (fresh ++ f :: up) = route up ++ (f.i :: route fresh) := by simp [route]
        rw [ways, List.length_cons, freeEmpty, take_way, plug_cons, getSlot_route]
        simp only [Option.bind_eq_bind, Option.bind_some, Frame.fill, Entry.nPtrs?]
        rw [if_pos filled]
        rfl
      obtain ⟨root', height'⟩ := t'
      obtain rfl : height' = newheight := grown.height
      obtain rfl : root' = plug (f :: up) (.null 0) := whole
      refine ⟨⟨plug (f :: up) (.null 0), height'⟩, ?_, ⟨grown.root, max, ?_⟩, grown.same⟩
      · rw [stays]
        simp [fixHeight]
      · intro null
        exact absurd null (plug_ne_null 0)

end

/-- An insertion at an index that is not there stores the pointer without tags, or fails and
changes nothing in the map.
-/
theorem radixTreeInsertNode_spec (wf : t.Wf) (absent : contents t idx = none) (p : P)
    (memory : List Bool)
    : ∃ errno t' memory', radixTreeInsertNode t idx p memory = some (errno, t', memory') ∧ t'.Wf
      ∧ ((errno = none ∧ contents t' = Function.update (contents t) idx (some (p, 0)))
        ∨ (errno = some .ENOMEM ∧ contents t' = contents t)) := by
  have levels : t.tHeight + (16 - t.tHeight) = 16 := Nat.add_sub_cancel' wf.height
  have start := radixTreeLookupPtr.loop_grow wf (16 - t.tHeight)
    (show idx.toNat < _ by rw [levels]; exact lt_of_idx idx) memory
  rw [levels] at start
  rcases start with ⟨memory', large, fails⟩ | ⟨newheight, t', memory', max, grown, fits, same⟩
  · refine ⟨some .ENOMEM, t, memory', ?_, wf, Or.inr ⟨rfl, rfl⟩⟩
    rw [radixTreeInsertNode, radixTreeLookupPtr, fails]
    simp only [Option.bind_eq_bind, Option.bind_some]
    rw [radixTreeUndoInsertNode, lookupPath_eq wf, if_neg large]
    rfl
  · have absent' : leafAt t'.tRoot (path newheight idx) = none := by
      rw [← grown.same, contents, grown.height, if_pos fits] at absent
      exact absent
    obtain ⟨fresh, old, found, memory'', whole, new, run, ends⟩ :=
      radixTreeLookupPtr.loop_alloc route_nil (le_of_eq grown.height.symm) rfl grown.root absent'
        memory'
    rw [List.append_nil, grown.height] at run
    rcases ends with ⟨way, rfl⟩ | ⟨i, more, lastidx, way, rfl⟩
    · obtain ⟨wf', changed⟩ := insert_success grown max fits whole new way p
      refine ⟨none, _, memory'', ?_, wf', Or.inl ⟨rfl, changed⟩⟩
      rw [radixTreeInsertNode, radixTreeLookupPtr, same, run]
      simp only [Option.bind_eq_bind, Option.bind_some, List.nil_append, ← way, getSlot_route,
        setSlot_route]
      rfl
    · obtain ⟨t'', undo, wf', unchanged⟩ := insert_failure grown max fits whole new way
      refine ⟨some .ENOMEM, t'', memory'', ?_, wf', Or.inr ⟨rfl, unchanged⟩⟩
      rw [radixTreeInsertNode, radixTreeLookupPtr, same, run]
      simp only [Option.bind_eq_bind, Option.bind_some, undo]
      rfl

end BSDLibC.Radix
