import BSDLibC.Radix.Insert

/-! Runs of insertions, replacements and removals, whose allocations may fail, against a map from
indexes to pointers.
-/

namespace BSDLibC.Radix

variable {P : Type} {t : Tree P}

inductive Update (P : Type)
  | insert (idx : UInt64) (p : P)
  | replace (idx : UInt64) (p : P)
  | remove (idx : UInt64)

/-- What a call returns: 0 or an error, or the pointer that was stored. -/
inductive Result (P : Type)
  | inserted (errno : Option Errno)
  | pointer (p : P)

def Update.apply (t : Tree P) (memory : List Bool)
    : Update P → Option (Result P × Tree P × List Bool)
  | .insert idx p =>
      (radixTreeInsertNode t idx p memory).map (fun r => (.inserted r.1, r.2.1, r.2.2))
  | .replace idx p => (radixTreeReplaceNode t idx p).map (fun r => (.pointer r.1, r.2, memory))
  | .remove idx => (radixTreeRemoveNode t idx).map (fun r => (.pointer r.1, r.2, memory))

/-- The effect on a map to pointers with their tags. A new leaf has none. -/
def Update.tagged (leafs : UInt64 → Option (P × Tags)) (result : Result P)
    : Update P → UInt64 → Option (P × Tags)
  | .insert idx p =>
      match result with
      | .inserted none => Function.update leafs idx (some (p, 0))
      | _ => leafs
  | .replace idx p => Function.update leafs idx ((leafs idx).map (fun leaf => (p, leaf.2)))
  | .remove idx => Function.update leafs idx none

/-- Only what is absent is inserted, and only what is present is replaced or removed. -/
def Update.Legal {V : Type} (map : UInt64 → Option V) : Update P → Prop
  | .insert idx _ => map idx = none
  | .replace idx _ => map idx ≠ none
  | .remove idx => map idx ≠ none

theorem Update.apply_spec (wf : t.Wf) (memory : List Bool) (u : Update P) (legal : u.Legal (contents t))
    : ∃ result t' memory', u.apply t memory = some (result, t', memory') ∧ t'.Wf
      ∧ contents t' = u.tagged (contents t) result := by
  cases u with
  | insert idx p =>
      obtain ⟨errno, t', memory', run, wf', effect⟩ := radixTreeInsertNode_spec wf legal p memory
      refine ⟨.inserted errno, t', memory', by rw [Update.apply, run]; rfl, wf', ?_⟩
      rcases effect with ⟨rfl, changed⟩ | ⟨rfl, unchanged⟩
      · exact changed
      · exact unchanged
  | replace idx p =>
      obtain ⟨leaf, there⟩ := Option.ne_none_iff_exists'.mp legal
      obtain ⟨t', run, wf', changed⟩ := radixTreeReplaceNode_spec wf there p
      refine ⟨.pointer leaf.1, t', memory, by rw [Update.apply, run]; rfl, wf', ?_⟩
      rw [changed, Update.tagged, there]
      rfl
  | remove idx =>
      obtain ⟨leaf, there⟩ := Option.ne_none_iff_exists'.mp legal
      obtain ⟨t', run, wf', changed⟩ := radixTreeRemoveNode_spec wf there
      exact ⟨.pointer leaf.1, t', memory, by rw [Update.apply, run]; rfl, wf', changed⟩

-----------------------------------------------------------------------------------------
-- The map of the pointers
-----------------------------------------------------------------------------------------

/-- The effect of a call on the map, given its result. A failed insertion has none. -/
def Update.effect (map : UInt64 → Option P) (result : Result P) : Update P → UInt64 → Option P
  | .insert idx p =>
      match result with
      | .inserted none => Function.update map idx (some p)
      | _ => map
  | .replace idx p => Function.update map idx (some p)
  | .remove idx => Function.update map idx none

/-- The calls in order, with the map beside the tree. -/
def runUpdates : Tree P → List Bool → (UInt64 → Option P) → List (Update P)
    → Option (Tree P × (UInt64 → Option P))
  | t, _, map, [] => some (t, map)
  | t, memory, map, u :: rest =>
      match u.apply t memory with
      | none => none
      | some (result, t', memory') => runUpdates t' memory' (u.effect map result) rest

def LegalUpdates : Tree P → List Bool → (UInt64 → Option P) → List (Update P) → Prop
  | _, _, _, [] => True
  | t, memory, map, u :: rest =>
      u.Legal map
      ∧ ∀ result t' memory', u.apply t memory = some (result, t', memory')
        → LegalUpdates t' memory' (u.effect map result) rest

/-- The pointers of a map with tags. -/
def pointers (leafs : UInt64 → Option (P × Tags)) (idx : UInt64) : Option P := (leafs idx).map (·.1)

theorem pointers_update (leafs : UInt64 → Option (P × Tags)) (idx : UInt64) (leaf : Option (P × Tags))
    : pointers (Function.update leafs idx leaf)
      = Function.update (pointers leafs) idx (leaf.map (·.1)) := by
  funext j
  by_cases here : j = idx
  · rw [here, pointers, Function.update_self, Function.update_self]
  · rw [pointers, Function.update_of_ne here, Function.update_of_ne here, pointers]

theorem Update.legal_pointers {leafs : UInt64 → Option (P × Tags)} {u : Update P}
    (legal : u.Legal (pointers leafs))
    : u.Legal leafs := by
  cases u with
  | insert idx p => exact Option.map_eq_none_iff.mp legal
  | replace idx p => exact fun none => legal (Option.map_eq_none_iff.mpr none)
  | remove idx => exact fun none => legal (Option.map_eq_none_iff.mpr none)

theorem Update.effect_pointers {leafs : UInt64 → Option (P × Tags)} {u : Update P}
    (legal : u.Legal leafs) (result : Result P)
    : pointers (u.tagged leafs result) = u.effect (pointers leafs) result := by
  cases u with
  | insert idx p =>
      rcases result with ⟨_ | errno⟩ | q
      · exact pointers_update leafs idx (some (p, 0))
      · rfl
      · rfl
  | replace idx p =>
      obtain ⟨leaf, there⟩ := Option.ne_none_iff_exists'.mp legal
      rw [Update.tagged, Update.effect, pointers_update, there]
      rfl
  | remove idx => exact pointers_update leafs idx none

theorem contents_init : contents (radixTreeInitTree : Tree P) = fun _ => none := by
  funext idx
  exact contents_null 0 idx

theorem wf_init : (radixTreeInitTree : Tree P).Wf := ⟨rfl, Nat.zero_le 16, fun _ => rfl⟩

/-- A tree that is not empty holds a leaf. -/
theorem Tree.Wf.exists_index (wf : t.Wf) (nonzero : t.tRoot ≠ .null 0)
    : ∃ idx leaf, contents t idx = some leaf := by
  obtain ⟨vpp, leaf, length, below⟩ := wf.root.exists_leaf nonzero
  obtain ⟨idx, fits, way⟩ := Radix.exists_index vpp (by rw [length]; exact wf.height)
  rw [length] at fits way
  exact ⟨idx, leaf, by rw [contents, if_pos fits, way, below]⟩

/-- No intermediate node has only `NULL` entries. -/
def Entry.NoEmptyNode : Entry P → Prop
  | .null _ => True
  | .leaf _ _ => True
  | .node _ n => (∃ i, (n i).isNull = false) ∧ ∀ i, (n i).NoEmptyNode

theorem Wf.noEmptyNode {h : Nat} {e : Entry P} (wf : Wf h e) : e.NoEmptyNode := by
  induction h generalizing e with
  | zero =>
      cases e with
      | null tags => trivial
      | leaf tags p => trivial
      | node tags n => exact wf.elim
  | succ h ih =>
      cases e with
      | null tags => trivial
      | leaf tags p => trivial
      | node tags n =>
          obtain ⟨kids, nonzero, -⟩ := wf
          obtain ⟨i, filled⟩ := sumNonzero_iff.mp nonzero
          refine ⟨⟨i, ?_⟩, fun j => ih (kids j)⟩
          have kid := kids i
          cases entry : n i with
          | null tags =>
              rw [entry] at kid filled
              have untagged : tags = 0 := by
                cases h <;> exact kid
              exact absurd (by rw [untagged]) filled
          | leaf tags p => rfl
          | node tags n => rfl

/-- The tree agrees with the map after any run from a tree that does. -/
theorem runUpdates_spec {map : UInt64 → Option P} (updates : List (Update P)) (wf : t.Wf)
    (agrees : pointers (contents t) = map) (memory : List Bool)
    (legal : LegalUpdates t memory map updates)
    : ∃ t' map', runUpdates t memory map updates = some (t', map') ∧ t'.Wf
      ∧ pointers (contents t') = map' := by
  induction updates generalizing t map memory with
  | nil => exact ⟨t, map, rfl, wf, agrees⟩
  | cons u rest ih =>
      subst agrees
      obtain ⟨legal, later⟩ := legal
      have legal' := Update.legal_pointers legal
      obtain ⟨result, t', memory', run, wf', changed⟩ := u.apply_spec wf memory legal'
      have agrees' : pointers (contents t') = u.effect (pointers (contents t)) result := by
        rw [changed, Update.effect_pointers legal']
      obtain ⟨t'', map', runs, wf'', same⟩ := ih wf' agrees' memory' (later result t' memory' run)
      refine ⟨t'', map', ?_, wf'', same⟩
      rw [runUpdates, run]
      exact runs

/-- After every legal run from an empty tree, with any allocations failing, a lookup returns what
the map holds, no intermediate node is empty, and a tree without a root has height 0. No assertion
fails in the run.
-/
theorem radixTree_map (updates : List (Update P)) (memory : List Bool)
    (legal : LegalUpdates radixTreeInitTree memory (fun _ => none) updates)
    : ∃ t map, runUpdates radixTreeInitTree memory (fun _ => none) updates = some (t, map)
      ∧ (∀ idx, radixTreeLookupNode t idx = some (map idx))
      ∧ t.tRoot.NoEmptyNode
      ∧ ((∀ idx, map idx = none) → t.tHeight = 0) := by
  have agrees : pointers (contents (radixTreeInitTree : Tree P)) = fun _ => none := by
    rw [contents_init]
    rfl
  obtain ⟨t, map, run, wf, same⟩ := runUpdates_spec updates wf_init agrees memory legal
  refine ⟨t, map, run, fun idx => ?_, wf.root.noEmptyNode, fun empty => ?_⟩
  · rw [radixTreeLookupNode_eq wf, ← same]
    rfl
  · refine wf.empty ?_
    by_contra nonzero
    obtain ⟨idx, leaf, there⟩ := wf.exists_index nonzero
    have present : pointers (contents t) idx = some leaf.1 := by rw [pointers, there, Option.map_some]
    rw [same, empty] at present
    cases present

/-- Witness: index 0 in the root, an insertion at index 16 that gets one node of two, and a removal. -/
theorem radixTree_map_enomem
    : ∃ t map, runUpdates (radixTreeInitTree : Tree Nat) [true] (fun _ => none)
          [.insert 0 7, .insert 16 8, .replace 0 9, .remove 0] = some (t, map)
      ∧ (∀ idx, radixTreeLookupNode t idx = some (map idx)) ∧ t.tRoot.NoEmptyNode
      ∧ ((∀ idx, map idx = none) → t.tHeight = 0) := by
  have first : Update.apply (radixTreeInitTree : Tree Nat) [true] (.insert 0 7)
      = some (.inserted none, ⟨.leaf 0 7, 0⟩, [true]) := rfl
  have second : Update.apply (⟨.leaf 0 7, 0⟩ : Tree Nat) [true] (.insert 16 8)
      = some (.inserted (some .ENOMEM), ⟨.leaf 0 7, 0⟩, []) := rfl
  have third : Update.apply (⟨.leaf 0 7, 0⟩ : Tree Nat) [] (.replace 0 9)
      = some (.pointer 7, ⟨.leaf 0 9, 0⟩, []) := rfl
  refine radixTree_map _ _ ⟨rfl, fun result t' memory' run => ?_⟩
  rw [first] at run
  cases run
  refine ⟨rfl, fun result t' memory' run => ?_⟩
  rw [second] at run
  cases run
  refine ⟨by simp [Update.effect, Update.Legal], fun result t' memory' run => ?_⟩
  rw [third] at run
  cases run
  exact ⟨by simp [Update.effect, Update.Legal], fun _ _ _ _ => trivial⟩

end BSDLibC.Radix
