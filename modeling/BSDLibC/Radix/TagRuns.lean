import BSDLibC.Radix.Tagging

/-! Runs of all calls, with tags, against a map from indexes to pointers and their tags. -/

namespace BSDLibC.Radix

variable {P : Type} {t : Tree P} {e : Entry P} {h : Nat}

-----------------------------------------------------------------------------------------
-- Tags of the entries
-----------------------------------------------------------------------------------------

/-- An entry has the tags of the leafs below it. -/
theorem Wf.tagged_iff (wf : Wf h e) (b : Nat)
    : e.Tagged b ↔ ∃ vpp leaf, vpp.length = h ∧ leafAt e vpp = some leaf
        ∧ leaf.2.getLsbD b = true := by
  induction h generalizing e with
  | zero =>
      cases e with
      | null tags =>
          obtain rfl : tags = 0 := wf
          simp [Entry.Tagged, Entry.tagmask]
      | leaf tags p =>
          constructor
          · exact fun tagged => ⟨[], (p, tags), rfl, rfl, tagged⟩
          · rintro ⟨vpp, leaf, length, below, tagged⟩
            rw [List.length_eq_zero_iff.mp length] at below
            cases below
            exact tagged
      | node tags n => exact wf.elim
  | succ h ih =>
      cases e with
      | null tags =>
          obtain rfl : tags = 0 := wf
          simp [Entry.Tagged, Entry.tagmask]
      | leaf tags p => exact wf.elim
      | node tags n =>
          obtain ⟨kids, -, sums⟩ := wf
          rw [Entry.Tagged, Entry.tagmask, sums, getLsbD_sumTags]
          constructor
          · rintro ⟨i, tagged⟩
            obtain ⟨vpp, leaf, length, below, has⟩ := (ih (kids i)).mp tagged
            exact ⟨i :: vpp, leaf, by rw [List.length_cons, length], below, has⟩
          · rintro ⟨vpp, leaf, length, below, has⟩
            obtain _ | ⟨i, vpp⟩ := vpp
            · simp at length
            · exact ⟨i, (ih (kids i)).mpr ⟨vpp, leaf, Nat.succ.inj length, below, has⟩⟩

/-- The entries of a tree are well-formed for the height that is left. -/
theorem Wf.at_slot (wf : Wf h e) {vpp : Slot} {x : Entry P} (slot : getSlot e vpp = some x)
    : ∃ k, k + vpp.length = h ∧ Wf k x := by
  induction vpp generalizing e h with
  | nil =>
      rw [getSlot_nil] at slot
      obtain rfl := Option.some.inj slot
      exact ⟨h, rfl, wf⟩
  | cons i vpp ih =>
      cases e with
      | null tags => cases slot
      | leaf tags p => cases slot
      | node tags n =>
          obtain _ | h := h
          · exact wf.elim
          · obtain ⟨k, height, wf'⟩ := ih (wf.1 i) slot
            exact ⟨k, by rw [List.length_cons]; omega, wf'⟩

/-- Leafs are at the bottom. -/
theorem Wf.length_of_leaf (wf : Wf h e) {vpp : Slot} {leaf : P × Tags}
    (below : leafAt e vpp = some leaf)
    : vpp.length = h := by
  obtain ⟨x, slot, leafed⟩ := Option.bind_eq_some_iff.mp below
  obtain ⟨k, height, wf'⟩ := wf.at_slot slot
  cases x with
  | null tags => cases leafed
  | node tags n => cases leafed
  | leaf tags p =>
      obtain _ | k := k
      · omega
      · exact wf'.elim

theorem Wf.and_eq_zero {m : Tags} (wf : Wf h e) (none_common : e.tagmask &&& m = 0) {vpp : Slot}
    (length : vpp.length = h) {leaf : P × Tags} (below : leafAt e vpp = some leaf)
    : leaf.2 &&& m = 0 := by
  rw [and_eq_zero_iff] at none_common ⊢
  exact fun b tagged => none_common b ((wf.tagged_iff b).mpr ⟨vpp, leaf, length, below, tagged⟩)

/-- A lookup with tags ends at the slot of a leaf, unless the leaf has none of them. -/
theorem descend_leaf (m : Tags) (wf : Wf h e) {rest : Slot} (length : rest.length = h)
    {leaf : P × Tags} (below : leafAt e rest = some leaf) (vpp : Slot)
    : descend m e rest vpp = .slot (vpp ++ rest)
      ∨ ((∃ lastidx, descend m e rest vpp = .stopped lastidx) ∧ leaf.2 &&& m = 0) := by
  induction rest generalizing e h vpp with
  | nil => exact Or.inl (by simp [descend])
  | cons i rest ih =>
      obtain _ | h := h
      · simp at length
      cases e with
      | null tags => simp at below
      | leaf tags p => cases below
      | node tags n =>
          rw [descend]
          by_cases stops : (Entry.node tags n).stops m = true
          · have common : tags &&& m = 0 := by
              simp only [Entry.stops, Entry.isNull, Bool.false_or, Bool.and_eq_true, beq_iff_eq] at stops
              exact stops.2
            rw [if_pos stops]
            exact Or.inr ⟨⟨_, rfl⟩, wf.and_eq_zero common length below⟩
          · rw [if_neg stops]
            rcases ih (wf.1 i) (Nat.succ.inj length) below (vpp ++ [i]) with ends | stopped
            · exact Or.inl (by rw [ends, List.append_assoc]; rfl)
            · exact Or.inr stopped

theorem radixTreeGetTag_eq (wf : t.Wf) {idx : UInt64} {leaf : P × Tags}
    (there : contents t idx = some leaf) (m : Tags)
    : radixTreeGetTag t idx m = some (leaf.2 &&& m) := by
  have fits := lt_of_contents there
  obtain ⟨ctx, whole, way, -, -⟩ := presentSlot_eq wf there
  rw [contents, if_pos fits] at there
  rw [radixTreeGetTag, lookupPath_eq wf, if_pos fits]
  rcases descend_leaf m wf.root (length_path t.tHeight idx) there [] with ends | ⟨⟨lastidx, ends⟩, none_common⟩
  · rw [ends, List.nil_append, ← way, whole]
    simp [Entry.isZero, Entry.isNull, Entry.tagmask]
  · rw [ends, none_common]
    rfl

/-- A tree has a tag if and only if one of its leafs has. -/
theorem radixTreeEmptyTaggedTreeP_iff (wf : t.Wf) (m : Tags)
    : radixTreeEmptyTaggedTreeP t m = true
      ↔ ∀ idx leaf, contents t idx = some leaf → leaf.2 &&& m = 0 := by
  rw [radixTreeEmptyTaggedTreeP, beq_iff_eq]
  constructor
  · intro none_common idx leaf there
    have fits := lt_of_contents there
    rw [contents, if_pos fits] at there
    exact wf.root.and_eq_zero none_common (length_path t.tHeight idx) there
  · intro all
    rw [and_eq_zero_iff]
    intro b tagged inMask
    obtain ⟨vpp, leaf, length, below, has⟩ := (wf.root.tagged_iff b).mp tagged
    obtain ⟨idx, fits, way⟩ := exists_index vpp (by rw [length]; exact wf.height)
    rw [length] at fits way
    have none_common := all idx leaf (by rw [contents, if_pos fits, way, below])
    exact and_eq_zero_iff.mp none_common b has inMask

-----------------------------------------------------------------------------------------
-- Runs
-----------------------------------------------------------------------------------------

inductive Call (P : Type)
  | update (u : Update P)
  | setTag (idx : UInt64) (tagmask : Tags)
  | clearTag (idx : UInt64) (tagmask : Tags)

def Call.apply (t : Tree P) (memory : List Bool)
    : Call P → Option (Option (Result P) × Tree P × List Bool)
  | .update u => (u.apply t memory).map (fun r => (some r.1, r.2.1, r.2.2))
  | .setTag idx m => (radixTreeSetTag t idx m).map (fun t => (none, t, memory))
  | .clearTag idx m => (radixTreeClearTag t idx m).map (fun t => (none, t, memory))

/-- The effect on the map. Tags are set and cleared for one index only. -/
def Call.effect (leafs : UInt64 → Option (P × Tags)) (result : Option (Result P))
    : Call P → UInt64 → Option (P × Tags)
  | .update u =>
      match result with
      | some result => u.tagged leafs result
      | none => leafs
  | .setTag idx m => Function.update leafs idx ((leafs idx).map (fun leaf => (leaf.1, leaf.2 ||| m)))
  | .clearTag idx m =>
      Function.update leafs idx ((leafs idx).map (fun leaf => (leaf.1, leaf.2 &&& ~~~m)))

def Call.Legal (leafs : UInt64 → Option (P × Tags)) : Call P → Prop
  | .update u => u.Legal leafs
  | .setTag idx m => leafs idx ≠ none ∧ m ≠ 0
  | .clearTag idx m => leafs idx ≠ none ∧ m ≠ 0

/-- No loop over tags stops too soon. -/
def Call.Meets (t : Tree P) : Call P → Prop
  | .update _ => True
  | .setTag idx m => SetMeets t idx m
  | .clearTag idx m => ClearMeets t idx m

def runCalls : Tree P → List Bool → (UInt64 → Option (P × Tags)) → List (Call P)
    → Option (Tree P × (UInt64 → Option (P × Tags)))
  | t, _, leafs, [] => some (t, leafs)
  | t, memory, leafs, call :: rest =>
      match call.apply t memory with
      | none => none
      | some (result, t', memory') => runCalls t' memory' (call.effect leafs result) rest

/-- Each call of a run is legal for the map, and meets the condition in the tree. -/
def MeetsCalls : Tree P → List Bool → (UInt64 → Option (P × Tags)) → List (Call P) → Prop
  | _, _, _, [] => True
  | t, memory, leafs, call :: rest =>
      call.Legal leafs ∧ call.Meets t
      ∧ ∀ result t' memory', call.apply t memory = some (result, t', memory')
        → MeetsCalls t' memory' (call.effect leafs result) rest

theorem Call.apply_spec (wf : t.Wf) (memory : List Bool) (call : Call P)
    (legal : call.Legal (contents t)) (meets : call.Meets t)
    : ∃ result t' memory', call.apply t memory = some (result, t', memory') ∧ t'.Wf
      ∧ contents t' = call.effect (contents t) result := by
  cases call with
  | update u =>
      obtain ⟨result, t', memory', run, wf', changed⟩ := u.apply_spec wf memory legal
      exact ⟨some result, t', memory', by rw [Call.apply, run]; rfl, wf', changed⟩
  | setTag idx m =>
      obtain ⟨leaf, there⟩ := Option.ne_none_iff_exists'.mp legal.1
      obtain ⟨t', run, wf', changed⟩ := radixTreeSetTag_spec wf there legal.2 meets
      refine ⟨none, t', memory, by rw [Call.apply, run]; rfl, wf', ?_⟩
      rw [changed, Call.effect, there]
      rfl
  | clearTag idx m =>
      obtain ⟨leaf, there⟩ := Option.ne_none_iff_exists'.mp legal.1
      obtain ⟨t', run, wf', changed⟩ := radixTreeClearTag_spec wf there legal.2 meets
      refine ⟨none, t', memory, by rw [Call.apply, run]; rfl, wf', ?_⟩
      rw [changed, Call.effect, there]
      rfl

theorem runCalls_spec (calls : List (Call P)) (wf : t.Wf) (memory : List Bool)
    (meets : MeetsCalls t memory (contents t) calls)
    : ∃ t', runCalls t memory (contents t) calls = some (t', contents t') ∧ t'.Wf := by
  induction calls generalizing t memory with
  | nil => exact ⟨t, rfl, wf⟩
  | cons call rest ih =>
      obtain ⟨legal, here, later⟩ := meets
      obtain ⟨result, t', memory', run, wf', changed⟩ := call.apply_spec wf memory legal here
      obtain ⟨t'', runs, wf''⟩ := ih wf' memory' (by
        rw [changed]
        exact later result t' memory' run)
      refine ⟨t'', ?_, wf''⟩
      rw [runCalls, run]
      simp only
      rw [← changed, runs]

/-- After every run that meets the condition the tags are those of the map, the entries have
exactly the tags of the leafs below them, and a tree is empty for a mask if no leaf has a tag
of it.
-/
theorem radixTree_tags (calls : List (Call P)) (memory : List Bool)
    (meets : MeetsCalls radixTreeInitTree memory (fun _ => none) calls)
    : ∃ t leafs, runCalls radixTreeInitTree memory (fun _ => none) calls = some (t, leafs)
      ∧ (∀ idx p tags, leafs idx = some (p, tags)
        → ∀ m, radixTreeGetTag t idx m = some (tags &&& m))
      ∧ (∀ vpp entry, getSlot t.tRoot vpp = some entry
        → ∀ b, entry.tagmask.getLsbD b = true
          ↔ ∃ rest leaf, leafAt entry rest = some leaf ∧ leaf.2.getLsbD b = true)
      ∧ ∀ m, radixTreeEmptyTaggedTreeP t m = true
          ↔ ∀ idx p tags, leafs idx = some (p, tags) → tags &&& m = 0 := by
  rw [← contents_init] at meets ⊢
  obtain ⟨t, run, wf⟩ := runCalls_spec calls wf_init memory meets
  refine ⟨t, contents t, run, fun idx p tags there m => radixTreeGetTag_eq wf there m, ?_, fun m => ?_⟩
  · intro vpp entry slot b
    obtain ⟨k, -, wf'⟩ := wf.root.at_slot slot
    refine (wf'.tagged_iff b).trans ⟨?_, ?_⟩
    · rintro ⟨rest, leaf, -, below, tagged⟩
      exact ⟨rest, leaf, below, tagged⟩
    · rintro ⟨rest, leaf, below, tagged⟩
      exact ⟨rest, leaf, wf'.length_of_leaf below, below, tagged⟩
  · rw [radixTreeEmptyTaggedTreeP_iff wf]
    exact ⟨fun all idx p tags => all idx (p, tags), fun all idx leaf => all idx leaf.1 leaf.2⟩

/-- Witness: a tag is set and cleared, and another one set. -/
theorem radixTree_tags_one_leaf
    : ∃ t leafs, runCalls (radixTreeInitTree : Tree Nat) [] (fun _ => none)
          [.update (.insert 0 7), .setTag 0 3, .clearTag 0 1] = some (t, leafs)
      ∧ ∀ idx p tags, leafs idx = some (p, tags) → ∀ m, radixTreeGetTag t idx m = some (tags &&& m) := by
  have first : Call.apply (radixTreeInitTree : Tree Nat) [] (.update (.insert 0 7))
      = some (some (.inserted none), ⟨.leaf 0 7, 0⟩, []) := rfl
  have second : Call.apply (⟨.leaf 0 7, 0⟩ : Tree Nat) [] (.setTag 0 3)
      = some (none, ⟨.leaf 3 7, 0⟩, []) := rfl
  have meets : MeetsCalls (radixTreeInitTree : Tree Nat) [] (fun _ => none)
      [.update (.insert 0 7), .setTag 0 3, .clearTag 0 1] := by
    refine ⟨rfl, trivial, fun result t' memory' run => ?_⟩
    rw [first] at run
    cases run
    refine ⟨⟨by simp [Call.effect, Update.tagged], by decide⟩, ?_, fun result t' memory' run => ?_⟩
    · rintro tags ⟨⟩
    · rw [second] at run
      cases run
      refine ⟨⟨by simp [Call.effect, Update.tagged], by decide⟩, ?_, fun _ _ _ _ => trivial⟩
      rintro leaf there tags ⟨⟩
  obtain ⟨t, leafs, run, tags, -, -⟩ := radixTree_tags _ _ meets
  exact ⟨t, leafs, run, tags⟩

/-- The tags of a leaf after tag 1 is set and then tags 1 and 2 at once. -/
def setTwice : Option Tags := do
  let (_, t, _) ← radixTreeInsertNode (radixTreeInitTree : Tree Nat) 0 7 []
  let t ← radixTreeSetTag t 0 1
  let t ← radixTreeSetTag t 0 3
  radixTreeGetTag t 0 3

/-- Whether there is tag 2 in a tree whose only leaf with this tag has lost both tags at once, beside
one with tag 1.
-/
def clearBoth : Option Bool := do
  let (_, t, memory) ← radixTreeInsertNode (radixTreeInitTree : Tree Nat) 1 7 [true]
  let (_, t, _) ← radixTreeInsertNode t 2 8 memory
  let t ← radixTreeSetTag t 1 1
  let t ← radixTreeSetTag t 1 2
  let t ← radixTreeSetTag t 2 1
  let t ← radixTreeClearTag t 1 3
  return radixTreeEmptyTaggedTreeP t 2

/-- A leaf with one tag does not get the other one, and a tag that no leaf has stays in the root. -/
theorem tags_stop_too_soon : setTwice = some 1 ∧ clearBoth = some false := by
  refine ⟨?_, ?_⟩ <;> decide +kernel

end BSDLibC.Radix
