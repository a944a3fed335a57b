import BSDLibC.Radix.Lookup

/-! Replacement and removal as updates of a map. -/

namespace BSDLibC.Radix

variable {P : Type} {t : Tree P} {idx : UInt64} {e x : Entry P} {h : Nat} {f : Frame P}
  {up ctx : List (Frame P)}

theorem plug_append (inner ctx : List (Frame P)) (e : Entry P)
    : plug (inner ++ ctx) e = plug ctx (plug inner e) := by
  induction inner generalizing e with
  | nil => rfl
  | cons f inner ih => exact ih (f.fill e)

theorem rebuild_append (inner ctx : List (Frame P)) (e : Entry P)
    : rebuild (inner ++ ctx) e = rebuild ctx (rebuild inner e) := by
  induction inner generalizing e with
  | nil => rfl
  | cons f inner ih => exact ih (settle (f.put e))

theorem rebuild_ne_null (nonzero : e ≠ .null 0) : rebuild ctx e ≠ .null 0 := by
  induction ctx generalizing e with
  | nil => exact nonzero
  | cons f up ih =>
      refine ih ?_
      rw [settle, if_pos (sumNonzero_iff.mpr ⟨f.i, by simpa using nonzero⟩)]
      simp

theorem plug_ne_null (tags : Tags) : plug (f :: up) e ≠ .null tags := by
  induction up generalizing f e with
  | nil => simp [plug, Frame.fill]
  | cons g up ih => exact ih

-----------------------------------------------------------------------------------------
-- Contents of a changed tree
-----------------------------------------------------------------------------------------

theorem contents_null (h : Nat) (idx : UInt64) : contents (⟨.null 0, h⟩ : Tree P) idx = none := by
  rw [contents, leafAt_null, ite_self]

/-- A tree whose slot for an index holds something else has changed in this index only. -/
theorem contents_rebuild (fits : idx.toNat < 16 ^ h) (way : route ctx = path h idx) (e x : Entry P)
    : contents ⟨rebuild ctx x, h⟩ = Function.update (contents ⟨plug ctx e, h⟩) idx x.leaf? := by
  funext j
  by_cases here : j = idx
  · subst here
    rw [Function.update_self, contents, if_pos fits, leafAt_rebuild, ← way, leafAt, getSlot_route]
    rfl
  · rw [Function.update_of_ne here, contents, contents, leafAt_rebuild]
    split
    · next small =>
        refine leafAt_plug_other ?_ e
        rintro ⟨rest, whole⟩
        have none_left : rest = [] := by
          have lengths := congrArg List.length whole
          rw [List.length_append, way] at lengths
          simp only [length_path] at lengths
          exact List.length_eq_zero_iff.mp (by omega)
        rw [none_left, List.append_nil, way] at whole
        exact here (path_injective small fits whole.symm)
    · rfl

/-- The index of a leaf is in the range of the tree. -/
theorem lt_of_contents {leaf : P × Tags} (there : contents t idx = some leaf)
    : idx.toNat < 16 ^ t.tHeight := by
  rw [contents] at there
  split at there
  · assumption
  · cases there

/-- What a step does that puts an entry into the slot of an index. -/
theorem Tree.Wf.rebuild (wf : t.Wf) {leaf : P × Tags} (there : contents t idx = some leaf)
    (whole : t.tRoot = plug ctx e) (way : route ctx = path t.tHeight idx) {x : Entry P}
    (bottom : Radix.Wf 0 x) (nonzero : x ≠ .null 0)
    : Tree.Wf ⟨rebuild ctx x, t.tHeight⟩
      ∧ contents ⟨rebuild ctx x, t.tHeight⟩ = Function.update (contents t) idx x.leaf? := by
  have length : 0 + ctx.length = t.tHeight := by
    rw [Nat.zero_add, ← length_route, way, length_path]
  have root := wf.root
  rw [whole, ← length] at root
  refine ⟨⟨?_, wf.height, fun null => absurd null (rebuild_ne_null nonzero)⟩, ?_⟩
  · rw [← length]
    exact root.parts.1.rebuild bottom
  · rw [contents_rebuild (lt_of_contents there) way e x, ← whole]

theorem radixTreeReplaceNode_spec (wf : t.Wf) {leaf : P × Tags} (there : contents t idx = some leaf)
    (p : P)
    : ∃ t', radixTreeReplaceNode t idx p = some (leaf.1, t') ∧ t'.Wf
      ∧ contents t' = Function.update (contents t) idx (some (p, leaf.2)) := by
  obtain ⟨ctx, whole, way, length, present⟩ := presentSlot_eq wf there
  have root := wf.root
  rw [whole, ← length, ← Nat.zero_add ctx.length] at root
  have same : rebuild ctx (.leaf leaf.2 p) = plug ctx (.leaf leaf.2 p) :=
    rebuild_eq_plug root (by simp) rfl
  obtain ⟨wf', changed⟩ := wf.rebuild there whole way (show Wf 0 (.leaf leaf.2 p) from trivial) (by simp)
  refine ⟨_, ?_, wf', changed⟩
  rw [radixTreeReplaceNode, present]
  simp only [Option.bind_eq_bind, Option.bind_some, Entry.user?, Entry.tagmask]
  rw [whole, setSlot_route, same]
  rfl

-----------------------------------------------------------------------------------------
-- Removal
-----------------------------------------------------------------------------------------

theorem take_way (up : List (Frame P)) (more : Slot) : (route up ++ more).take up.length = route up := by
  rw [← length_route up, List.take_left]

/-- The nodes that are empty after a removal are gone, up to one that is not. -/
theorem freeEmpty_plug (ctx : List (Frame P)) (more : Slot)
    : ∃ gone rest, ctx = gone ++ rest
      ∧ freeEmpty (route ctx ++ more) ctx.length (plug ctx (.null 0))
        = some (plug rest (.null 0), rest.length)
      ∧ rebuild ctx (.null 0) = rebuild rest (.null 0)
      ∧ ∀ f up, rest = f :: up → sumNonzero (f.put (.null 0)) = true := by
  induction ctx generalizing more with
  | nil => exact ⟨[], [], rfl, rfl, rfl, by simp⟩
  | cons f up ih =>
      have way : route (f :: up) ++ more = route up ++ (f.i :: more) := by simp
      rw [way, List.length_cons, freeEmpty, take_way, plug_cons, getSlot_route]
      simp only [Option.bind_eq_bind, Option.bind_some, Frame.fill, Entry.nPtrs?]
      by_cases nonzero : sumNonzero (f.put (.null 0)) = true
      · refine ⟨[], f :: up, rfl, ?_, rfl, ?_⟩
        · rw [if_pos nonzero]
          rfl
        · rintro g above ⟨⟩
          exact nonzero
      · obtain ⟨gone, rest, split, frees, same, stops⟩ := ih (f.i :: more)
        refine ⟨f :: gone, rest, by rw [split]; rfl, ?_, ?_, stops⟩
        · rw [if_neg nonzero, setSlot_route, frees]
        · rw [rebuild, settle, if_neg nonzero, same]

/-- The tags are settled from a node up that is not empty. -/
theorem updateTags_plug (wf : Wf (h + ctx.length) (plug ctx e))
    (nonzero : ∀ f up, ctx = f :: up → sumNonzero (f.put x) = true) (more : Slot)
    : updateTags (route ctx ++ more) ctx.length (plug ctx x) = some (rebuild ctx x) := by
  induction ctx generalizing h e x more with
  | nil => rfl
  | cons f up ih =>
      have filled := nonzero f up rfl
      have way : route (f :: up) ++ more = route up ++ (f.i :: more) := by simp
      rw [way, List.length_cons, updateTags, take_way, plug_cons, getSlot_route]
      simp only [Option.bind_eq_bind, Option.bind_some, Frame.fill, Entry.nPtrs?, filled,
        Bool.not_true, Bool.false_eq_true, if_false, Entry.tagmask, beq_iff_eq]
      by_cases same : sumTags (f.put x) = f.tags
      · rw [if_pos same, rebuild_eq_plug_cons wf filled same]
        rfl
      · have settled : settle (f.put x) = .node (sumTags (f.put x)) (f.put x) := by
          rw [settle, if_pos filled]
        rw [if_neg same, setSlot_route, ← settled, rebuild]
        refine ih wf.above (fun g above _ => sumNonzero_iff.mpr ⟨g.i, ?_⟩) _
        rw [Frame.put_self, settled]
        simp

theorem radixTreeRemoveNode_spec (wf : t.Wf) {leaf : P × Tags} (there : contents t idx = some leaf)
    : ∃ t', radixTreeRemoveNode t idx = some (leaf.1, t') ∧ t'.Wf
      ∧ contents t' = Function.update (contents t) idx none := by
  obtain ⟨ctx, whole, way, length, present⟩ := presentSlot_eq wf there
  have root := wf.root
  rw [whole, ← length, ← Nat.zero_add ctx.length] at root
  obtain ⟨gone, rest, split, frees, same, stops⟩ := freeEmpty_plug ctx []
  rw [List.append_nil, length] at frees
  have removed : contents ⟨rebuild ctx (.null 0), t.tHeight⟩
      = Function.update (contents t) idx none := by
    rw [contents_rebuild (lt_of_contents there) way (.leaf leaf.2 leaf.1) (.null 0), ← whole]
    rfl
  have code (fixed : Tree P) (final : Entry P)
      (height : fixHeight t (plug rest (.null 0)) rest.length = some fixed)
      (tags : updateTags (route ctx) rest.length fixed.tRoot = some final)
      : radixTreeRemoveNode t idx = some (leaf.1, { fixed with tRoot := final }) := by
    rw [radixTreeRemoveNode, present]
    simp only [Option.bind_eq_bind, Option.bind_some, Entry.user?]
    rw [if_neg (by rw [length_route, length]; simp), whole, setSlot_route, frees]
    simp only [Option.bind_some]
    rw [height, Option.bind_some, tags]
    rfl
  cases rest with
  | nil =>
      refine ⟨⟨.null 0, 0⟩, code ⟨.null 0, 0⟩ (.null 0) rfl rfl, ⟨rfl, Nat.zero_le 16, fun _ => rfl⟩, ?_⟩
      rw [← removed, same]
      funext j
      rw [contents_null]
      exact (contents_null t.tHeight j).symm
  | cons f up =>
      have filled := stops f up rfl
      have parts : Wf (0 + gone.length + (f :: up).length) (plug (f :: up) (plug gone (.leaf leaf.2 leaf.1))) := by
        rw [← plug_append, ← split, Nat.add_assoc, ← List.length_append, ← split]
        exact root
      have tags := updateTags_plug parts (x := .null 0) (fun g above eq => by
        cases eq
        exact filled) (route gone)
      have ways : route (f :: up) ++ route gone = route ctx := by
        rw [split, route, route, route, List.map_append, List.reverse_append]
      rw [ways, ← same] at tags
      have height : fixHeight t (plug (f :: up) (.null 0)) (f :: up).length
          = some ⟨plug (f :: up) (.null 0), t.tHeight⟩ := by
        simp [fixHeight]
      refine ⟨_, code _ _ height tags, ⟨?_, wf.height, ?_⟩, removed⟩
      · rw [← length, ← Nat.zero_add ctx.length]
        exact root.parts.1.rebuild (wf_null 0)
      · intro null
        rw [same, rebuild, settle, if_pos filled] at null
        exact absurd null (rebuild_ne_null (by simp))

end BSDLibC.Radix
