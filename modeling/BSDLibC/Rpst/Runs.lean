import BSDLibC.Rpst.Enlarge

/-! Runs of insertions and removals from an empty tree. -/

namespace BSDLibC.Rpst
open BSDLibC.ColorTree BSDLibC.LinkedTree BSDLibC.PriorityTree

/-- The coordinates of the nodes that are in the tree. -/
abbrev Held := Addr → Option (UInt64 × UInt64)

/-- The user sets the coordinates of a node before it is inserted. -/
inductive Call
  | insert (n : Addr) (x y : UInt64)
  | remove (n : Addr)

def State.assign (s : State) (n : Addr) (x y : UInt64) : State :=
  { s with node := Function.update s.node n { s.node n with nX := x, nY := y } }

def Call.apply (fuel : Nat) (s : State) : Call → Option (Option Addr × State)
  | .insert n x y => rpstInsertNode fuel (s.assign n x y) n
  | .remove n => (rpstRemoveNode fuel s n).map (fun s => (none, s))

/-- Nodes are inserted when they are not in the tree, and removed when they are. -/
def Call.Allowed (held : Held) : Call → Prop
  | .insert n _ _ => held n = none
  | .remove n => held n ≠ none

/-- The nodes in the tree after a call that has returned something. -/
def Call.update (held : Held) (result : Option Addr) : Call → Held
  | .insert n x y => if result = none then Function.update held n (some (x, y)) else held
  | .remove n => Function.update held n none

/-- The linked nodes are a tree of the held ones: their parents are the nodes that link them, no child
has a smaller `y` than its parent, and from bit `t_height` of `x` on the bits lead down to a node.
-/
def Represents (s : State) (held : Held) : Prop :=
  ∃ T, At s.links [] T ∧ ParentsAt s.parent none T ∧ HeapOrdered s.rank T
    ∧ Placed s.side (s.tHeight + 1) T ∧ (∀ a, T.Has a ↔ held a ≠ none)
    ∧ ∀ a x y, held a = some (x, y) → (s.node a).nX = x ∧ (s.node a).nY = y

/-- An insertion returns the node with the same coordinates and has done nothing, or there is none. -/
def Call.Right (s : State) (held : Held) (result : Option Addr) (s' : State) : Call → Prop
  | .insert n x y =>
      (result = none ∧ ∀ a, held a ≠ some (x, y))
      ∨ ∃ a, result = some a ∧ held a = some (x, y) ∧ s' = s.assign n x y
  | .remove _ => result = none

/-- Every call has a result and does what it should, and the nodes are represented between them. -/
def Correct (fuel : Nat) : State → Held → List Call → Prop
  | s, held, [] => Represents s held
  | s, held, call :: rest =>
      Represents s held
      ∧ ∃ result s', call.apply fuel s = some (result, s') ∧ call.Right s held result s'
        ∧ Correct fuel s' (call.update held result) rest

def AllowedCalls (fuel : Nat) : State → Held → List Call → Prop
  | _, _, [] => True
  | s, held, call :: rest =>
      call.Allowed held
      ∧ ∀ result s', call.apply fuel s = some (result, s')
        → AllowedCalls fuel s' (call.update held result) rest

/-- A tree with a single node is not made to grow. -/
def Call.Safe (s : State) : Call → Prop
  | .insert _ x _ => Single s → x.toNat < 2 ^ (s.tHeight + 1)
  | .remove _ => True

def SafeCalls (fuel : Nat) : State → List Call → Prop
  | _, [] => True
  | s, call :: rest =>
      call.Safe s ∧ ∀ result s', call.apply fuel s = some (result, s') → SafeCalls fuel s' rest

variable {s s' : State} {held : Held} {T : CTree Addr} {n a : Addr} {x y : UInt64} {fuel : Nat}

/-- The held nodes are those of a tree. -/
structure Keeps (s : State) (held : Held) (T : CTree Addr) : Prop where
  holds : Holds s T
  members : ∀ a, T.Has a ↔ held a ≠ none
  points : ∀ a x y, held a = some (x, y) → (s.node a).nX = x ∧ (s.node a).nY = y

theorem Keeps.represents (h : Keeps s held T) : Represents s held :=
  ⟨T, h.holds.layout, h.holds.parents, h.holds.heap, h.holds.placed, h.members, h.points⟩

theorem Keeps.alike (h : Keeps s held T) (found : held a = some (x, y))
    : s.Alike n a ↔ (s.node n).nX = x ∧ (s.node n).nY = y := by
  obtain ⟨atX, atY⟩ := h.points a x y found
  rw [State.Alike, atX, atY, and_comm]

-----------------------------------------------------------------------------------------
-- Insertion
-----------------------------------------------------------------------------------------

theorem assign_ne (s : State) (x y : UInt64) {b : Addr} (ne : b ≠ n) : (s.assign n x y).node b = s.node b :=
  Function.update_of_ne ne _ _

/-- The coordinates of a node that is not linked do not matter. -/
theorem Keeps.assign (h : Keeps s held T) (free : held n = none) (x y : UInt64)
    : Keeps (s.assign n x y) held T := by
  have apart {b : Addr} (inside : T.Has b) : b ≠ n := by
    rintro rfl
    exact (h.members b).mp inside free
  have same {b : Addr} (inside : T.Has b) : (s.assign n x y).node b = s.node b := assign_ne s x y (apart inside)
  have held_ {b : Addr} {p : UInt64 × UInt64} (found : held b = some p) : T.Has b :=
    (h.members b).mpr (by simp [found])
  obtain ⟨layout, parents, heap, placed, low, fits, unique⟩ := h.holds
  refine ⟨⟨?_, ?_, ?_, ?_, low, fun b inside => ?_, fun a b inA inB alike => ?_⟩, h.members, fun b x' y' found => ?_⟩
  · refine layout.congr rfl fun b inside => ?_
    exact congrArg Node.nChildren (same inside)
  · exact parents.congr fun b inside => congrArg Node.nParent (same inside)
  · exact heap.congr fun b inside => by rw [State.rank, State.rank, same inside]
  · exact placed.congr fun k b inside => by rw [State.side, State.side, same inside]
  · rw [same inside]
    exact fits b inside
  · rw [State.Alike, same inA, same inB] at alike
    exact unique a b inA inB alike
  · rw [same (held_ found)]
    exact h.points b x' y' found

theorem Keeps.length_le {T' : CTree Addr} {s' : State} (h : Keeps s held T) (h' : Keeps s' held T')
    : (T'.traverse .right).length ≤ (T.traverse .right).length :=
  List.Nodup.length_le_of_subset h'.holds.layout.distinct fun a inside =>
    (h.members a).mpr ((h'.members a).mp inside)

/-- `rpst_enlarge_tree` keeps the nodes, unless there is just one and the index does not fit. -/
theorem Keeps.enlarge (h : Keeps s held T) (x : UInt64) (enough : (T.traverse .right).length ≤ fuel)
    (turns : 64 ≤ fuel)
    : (Single s ∧ ¬ x.toNat < 2 ^ (s.tHeight + 1) ∧ rpstEnlargeTree fuel s x = none)
      ∨ (Single s → x.toNat < 2 ^ (s.tHeight + 1))
        ∧ ∃ s' T', rpstEnlargeTree fuel s x = some s' ∧ Keeps s' held T' ∧ SamePoints s s'
          ∧ x.toNat < 2 ^ (s'.tHeight + 1) ∧ (x.toNat < 2 ^ (s.tHeight + 1) → s' = s) := by
  obtain ⟨stays, fails, goes⟩ := enlargeLoop_spec h.holds x enough (show 64 ≤ s.tHeight + fuel by omega)
  by_cases fits : x.toNat < 2 ^ (s.tHeight + 1)
  · exact Or.inr ⟨fun _ => fits, s, T, stays fits, h, fun b => ⟨rfl, rfl⟩, fits, fun _ => rfl⟩
  · by_cases single : Single s
    · exact Or.inl ⟨single, fits, fails single fits⟩
    · obtain ⟨s', T', run, holds, points, members, fits'⟩ := goes single
      refine Or.inr ⟨fun h => absurd h single, s', T', run, ⟨holds, fun a => (members a).trans (h.members a), ?_⟩,
        points, fits', fun small => absurd small fits⟩
      intro a x' y' found
      rw [(points a).1, (points a).2]
      exact h.points a x' y' found

section
variable (h : Keeps s held T) (fits : (s.node n).nX.toNat < 2 ^ (s.tHeight + 1))
include h fits

/-- The start of `rpst_insert_node1`. -/
theorem insertNode1_eq (fuel : Nat)
    : (do rpstInsertNode1 fuel s .top n (← rpstStartmask s))
      = rpstInsertNode1.next fuel s .top n (mask (s.tHeight + 1)) none := by
  rw [rpstStartmask_eq s h.holds.low]
  simp only [Option.bind_eq_bind, Option.bind_some, rpstInsertNode1, guard_of (and_neg_mask h.holds.low fits)]

theorem insertNode1_found (enough : (T.traverse .right).length ≤ fuel)
    (found : held a = some ((s.node n).nX, (s.node n).nY))
    : (do rpstInsertNode1 fuel s .top n (← rpstStartmask s)) = some (some a, s) := by
  have inside : T.Has a := (h.members a).mpr (by simp [found])
  have alike : s.Alike n a := (h.alike found).mpr ⟨rfl, rfl⟩
  rw [insertNode1_eq h fits]
  refine insertNext_alike (by have := h.holds.low; omega) h.holds.root ⟨h.holds.layout.tree, h.holds.parents⟩
    h.holds.heap h.holds.placed inside alike (fun b inB same => ?_) enough
  refine h.holds.unique b a inB inside ⟨?_, ?_⟩
  · exact same.1.symm.trans alike.1
  · exact same.2.symm.trans alike.2

theorem insertNode1_new (free : held n = none) (enough : (T.traverse .right).length < fuel)
    (absent : ∀ a, held a ≠ some ((s.node n).nX, (s.node n).nY))
    : ∃ s' T', (do rpstInsertNode1 fuel s .top n (← rpstStartmask s)) = some (none, s')
      ∧ Keeps s' (Function.update held n (some ((s.node n).nX, (s.node n).nY))) T'
      ∧ (T'.traverse .right).length ≤ (T.traverse .right).length + 1 := by
  have new : ¬ T.Has n := fun inside => (h.members n).mp inside free
  have differ : ∀ a b, Touches n T a → Touches n T b → s.Alike a b → a = b := by
    have other {b : Addr} (inside : T.Has b) : ¬ s.Alike n b := by
      intro alike
      cases found : held b with
      | none => exact (h.members b).mp inside found
      | some p =>
          obtain ⟨sameX, sameY⟩ := (h.alike found).mp alike
          refine absent b ?_
          rw [found, sameX, sameY]
    rintro a b (rfl | inA) (rfl | inB) alike
    · rfl
    · exact absurd alike (other inB)
    · exact absurd ⟨alike.1.symm, alike.2.symm⟩ (other inA)
    · exact h.holds.unique a b inA inB alike
  obtain ⟨s', run, fills⟩ := insertNext_new (w := .top) (by have := h.holds.low; omega) h.holds.root
    ⟨h.holds.layout.tree, h.holds.parents⟩ h.holds.layout.distinct new trivial h.holds.heap h.holds.placed
    differ enough
  have points := fills.kept.points
  have height := fills.kept.height
  have distinct : (insertAt s.rank s.side (s.tHeight + 1) n T).Distinct :=
    distinct_insertAt h.holds.layout.distinct new
  refine ⟨s', _, by rw [insertNode1_eq h fits, run], ⟨⟨?_, fills.lies.parents, ?_, ?_, ?_, fun b inside => ?_,
    fun a b inA inB alike => ?_⟩, fun a => ?_, fun a x y found => ?_⟩, ?_⟩
  · exact ⟨fills.kept.get trivial, fills.lies.tree, distinct⟩
  · rw [points.rank_eq]
    exact heapOrdered_insertAt h.holds.heap
  · rw [points.side_eq, height]
    exact placed_insertAt h.holds.placed
  · rw [height]
    exact h.holds.low
  · rw [(points b).1, height]
    rcases has_insertAt.mp inside with rfl | old
    · exact fits
    · exact h.holds.fits b old
  · exact differ a b (has_insertAt.mp inA) (has_insertAt.mp inB) (points.alike.mp alike)
  · rw [has_insertAt, Function.update_apply]
    by_cases here : a = n <;> simp [here, h.members]
  · rw [(points a).1, (points a).2]
    by_cases here : a = n
    · subst here
      rw [Function.update_self] at found
      cases found
      exact ⟨rfl, rfl⟩
    · rw [Function.update_of_ne here] at found
      exact h.points a x y found
  · have bound := List.Nodup.length_le_of_subset distinct
      (show (insertAt s.rank s.side (s.tHeight + 1) n T).traverse .right ⊆ n :: T.traverse .right from
        fun a inside => List.mem_cons.mpr (has_insertAt.mp inside))
    rwa [List.length_cons] at bound

end

/-- What `rpst_insert_node` does with a node that is not in the tree. -/
theorem Keeps.insert (h : Keeps s held T) (free : held n = none) (x y : UInt64)
    (enough : (T.traverse .right).length < fuel) (turns : 64 ≤ fuel)
    : (¬ (Call.insert n x y).Safe s ∧ (Call.insert n x y).apply fuel s = none)
      ∨ (Call.insert n x y).Safe s
        ∧ ∃ result s' T', (Call.insert n x y).apply fuel s = some (result, s')
          ∧ (Call.insert n x y).Right s held result s'
          ∧ Keeps s' ((Call.insert n x y).update held result) T'
          ∧ (T'.traverse .right).length ≤ (T.traverse .right).length + 1 := by
  have h₀ := h.assign free x y
  have notLinked : ∀ r, s.tRoot = some r → (s.assign n x y).node r = s.node r := by
    intro r root
    refine assign_ne s x y ?_
    rintro rfl
    exact (h.members r).mp (has_of_link (h.holds.root.symm.trans root)) free
  have single : Single (s.assign n x y) ↔ Single s := by
    constructor
    · rintro ⟨r, root, children⟩
      rw [notLinked r root] at children
      exact ⟨r, root, children⟩
    · rintro ⟨r, root, children⟩
      refine ⟨r, root, ?_⟩
      rw [notLinked r root]
      exact children
  have here : (s.assign n x y).node n = { s.node n with nX := x, nY := y } := Function.update_self n _ _
  have coordX : ((s.assign n x y).node n).nX = x := by rw [here]
  have coordY : ((s.assign n x y).node n).nY = y := by rw [here]
  rcases h₀.enlarge x enough.le turns with ⟨one, wide, fails⟩ | ⟨safe, s₁, T₁, grown, h₁, points, fits, stays⟩
  · refine Or.inl ⟨fun safe => wide (safe (single.mp one)), ?_⟩
    rw [Call.apply, rpstInsertNode, coordX, fails]
    rfl
  · refine Or.inr ⟨fun one => safe (single.mpr one), ?_⟩
    have run : (Call.insert n x y).apply fuel s = (do rpstInsertNode1 fuel s₁ .top n (← rpstStartmask s₁)) := by
      rw [Call.apply, rpstInsertNode, coordX, grown]
      rfl
    have atX : (s₁.node n).nX = x := (points n).1.trans coordX
    have atY : (s₁.node n).nY = y := (points n).2.trans coordY
    have fits₁ : (s₁.node n).nX.toNat < 2 ^ (s₁.tHeight + 1) := by rwa [atX]
    have length₁ := h₀.length_le h₁
    rw [run]
    by_cases present : ∃ a, held a = some (x, y)
    · obtain ⟨a, found⟩ := present
      have small : x.toNat < 2 ^ (s.tHeight + 1) := by
        have inside : T.Has a := (h.members a).mpr (by simp [found])
        rw [← (h.points a x y found).1]
        exact h.holds.fits a inside
      have same : s₁ = s.assign n x y := stays small
      refine ⟨some a, s₁, T₁, insertNode1_found h₁ fits₁ (length₁.trans enough.le) (by rw [atX, atY, found]),
        Or.inr ⟨a, rfl, found, same⟩, ?_, by omega⟩
      rw [Call.update, if_neg (by simp)]
      exact h₁
    · have absent : ∀ a, held a ≠ some (x, y) := fun a found => present ⟨a, found⟩
      obtain ⟨s', T', done, keeps, bound⟩ := insertNode1_new h₁ fits₁ free (lt_of_le_of_lt length₁ enough)
        (by rw [atX, atY]; exact absent)
      rw [atX, atY] at keeps
      refine ⟨none, s', T', done, Or.inl ⟨rfl, absent⟩, ?_, by omega⟩
      rw [Call.update, if_pos rfl]
      exact keeps

-----------------------------------------------------------------------------------------
-- Removal
-----------------------------------------------------------------------------------------

theorem exists_focus {T : CTree Addr} (inside : T.Has a)
    : ∃ ctx red kids, T = plug ctx (.node red a kids) := by
  induction T with
  | nil => exact absurd inside CTree.not_has_nil
  | node red b kids ih =>
      have deeper {d : Dir} (below : (kids d).Has a)
          : ∃ ctx red' kids', CTree.node red b kids = plug ctx (.node red' a kids') := by
        obtain ⟨ctx, red', kids', same⟩ := ih d below
        refine ⟨ctx ++ [⟨d, red, b, kids d.other⟩], red', kids', ?_⟩
        rw [plug_append, ← same, plug_child, plug_nil]
      rcases (CTree.has_node .left).mp inside with rfl | left | right
      · exact ⟨[], red, kids, rfl⟩
      · exact deeper left
      · exact deeper right

/-- What `rpst_remove_node` does with a node of the tree. -/
theorem Keeps.remove (h : Keeps s held T) (linked : held n ≠ none)
    (enough : (T.traverse .right).length ≤ fuel)
    : ∃ s' T', rpstRemoveNode fuel s n = some s' ∧ Keeps s' (Function.update held n none) T'
      ∧ (T'.traverse .right).length ≤ (T.traverse .right).length := by
  obtain ⟨ctx, red, kids, rfl⟩ := exists_focus ((h.members n).mpr linked)
  obtain ⟨s', run, layout, parents, height, points⟩ :=
    rpstRemoveNode_spec h.holds.layout h.holds.parents enough
  have fewer {b : Addr} (inside : (plug ctx (dropRoot s.rank (.node red n kids))).Has b)
      : (plug ctx (.node red n kids)).Has b := by
    rw [has_plug] at inside ⊢
    exact inside.imp_left has_of_dropRoot
  refine ⟨s', _, run, ⟨⟨layout, parents, ?_, ?_, ?_, fun b inside => ?_, fun a b inA inB alike => ?_⟩,
    fun a => ?_, fun a x y found => ?_⟩, ?_⟩
  · rw [points.rank_eq]
    exact h.holds.heap.replace (fun b => has_of_dropRoot) heapOrdered_dropRoot
  · rw [points.side_eq, height]
    exact h.holds.placed.replace (fun b => has_of_dropRoot) fun k => placed_dropRoot
  · rw [height]
    exact h.holds.low
  · rw [(points b).1, height]
    exact h.holds.fits b (fewer inside)
  · exact h.holds.unique a b (fewer inA) (fewer inB) (points.alike.mp alike)
  · obtain ⟨distinct, -, apart⟩ := (distinct_plug ctx _).mp h.holds.layout.distinct
    obtain ⟨-, -, notLeft, notRight, -⟩ := (CTree.distinct_node .left).mp distinct
    have known := h.members a
    rw [has_plug, CTree.has_node .left] at known
    rw [has_plug, has_dropRoot, Function.update_apply]
    by_cases here : a = n
    · subst here
      have around := apart a CTree.has_root
      simp only [if_true, ne_eq, not_true_eq_false, iff_false]
      rintro ((left | right) | outer)
      · exact notLeft left
      · exact notRight right
      · exact around outer
    · rw [if_neg here, ← known]
      simp [here, Dir.other]
  · by_cases here : a = n
    · subst here
      rw [Function.update_self] at found
      cases found
    · rw [Function.update_of_ne here] at found
      rw [(points a).1, (points a).2]
      exact h.points a x y found
  · exact List.Nodup.length_le_of_subset layout.distinct fun a inside => fewer inside

-----------------------------------------------------------------------------------------
-- Runs
-----------------------------------------------------------------------------------------

/-- One call: it has no result exactly when it is an insertion that is not safe. -/
theorem Call.apply_spec (h : Keeps s held T) (enough : (T.traverse .right).length < fuel) (turns : 64 ≤ fuel)
    (call : Call) (allowed : call.Allowed held)
    : (¬ call.Safe s ∧ call.apply fuel s = none)
      ∨ call.Safe s
        ∧ ∃ result s' T', call.apply fuel s = some (result, s') ∧ call.Right s held result s'
          ∧ Keeps s' (call.update held result) T'
          ∧ (T'.traverse .right).length ≤ (T.traverse .right).length + 1 := by
  cases call with
  | insert n x y => exact h.insert allowed x y enough turns
  | remove n =>
      obtain ⟨s', T', run, keeps, bound⟩ := h.remove allowed enough.le
      exact Or.inr ⟨trivial, none, s', T', by rw [Call.apply, run]; rfl, rfl, keeps, by omega⟩

theorem correct_iff_safe (calls : List Call) (h : Keeps s held T)
    (enough : (T.traverse .right).length + calls.length < fuel) (turns : 64 ≤ fuel)
    (allowed : AllowedCalls fuel s held calls)
    : Correct fuel s held calls ↔ SafeCalls fuel s calls := by
  induction calls generalizing s held T with
  | nil => exact ⟨fun _ => trivial, fun _ => h.represents⟩
  | cons call rest ih =>
      obtain ⟨here, later⟩ := allowed
      rw [List.length_cons] at enough
      rcases call.apply_spec h (by omega) turns here with
        ⟨unsafe_, fails⟩ | ⟨safe, result, s₁, T₁, run, right, h₁, bound⟩
      · constructor
        · rintro ⟨-, result, s', run, -⟩
          rw [fails] at run
          cases run
        · rintro ⟨safe, -⟩
          exact absurd safe unsafe_
      · have goesOn := ih h₁ (by omega) (later result s₁ run)
        constructor
        · rintro ⟨-, result', s', run', -, correct⟩
          refine ⟨safe, fun result'' s'' run'' => ?_⟩
          rw [run] at run' run''
          cases run'
          cases run''
          exact goesOn.mp correct
        · rintro ⟨-, after⟩
          exact ⟨h.represents, result, s₁, run, right, goesOn.mpr (after result s₁ run)⟩

theorem keeps_init (s : State) : Keeps (rpstInitTree s) (fun _ => none) .nil :=
  ⟨⟨⟨rfl, trivial, CTree.distinct_nil⟩, trivial, trivial, trivial, Nat.zero_lt_succ _, by simp, by simp⟩,
    by simp, by simp⟩

/-- Every run from `rpst_init_tree` is correct if and only if no insertion makes a tree of a single
node grow. Fuel for as many levels as there can be nodes, and for all heights, is enough.
-/
theorem rpst_correct_iff (s : State) (calls : List Call) (fuel : Nat) (enough : calls.length + 64 ≤ fuel)
    (allowed : AllowedCalls fuel (rpstInitTree s) (fun _ => none) calls)
    : Correct fuel (rpstInitTree s) (fun _ => none) calls ↔ SafeCalls fuel (rpstInitTree s) calls := by
  cases calls with
  | nil => exact ⟨fun _ => trivial, fun _ => (keeps_init s).represents⟩
  | cons call rest =>
      rw [List.length_cons] at enough
      refine correct_iff_safe (call :: rest) (keeps_init s) ?_ (by omega) allowed
      rw [CTree.traverse_nil, List.length_nil, List.length_cons]
      omega

/-- Nodes before anything has been written to them. -/
def State.blank : State := ⟨none, 0, fun _ => ⟨0, 0, none, fun _ => none⟩⟩

/-- Witness: two nodes, of which the second is put above the first, and a third that makes the tree
grow.
-/
theorem rpst_correct_three
    : Correct 67 (rpstInitTree .blank) (fun _ => none) [.insert 1 0 5, .insert 2 1 3, .insert 3 4 1] := by
  refine (rpst_correct_iff .blank _ 67 (by decide) ?_).mpr ?_
  · refine ⟨rfl, fun result s run => ?_⟩
    cases run
    refine ⟨rfl, fun result s run => ?_⟩
    cases run
    exact ⟨rfl, fun _ _ _ => trivial⟩
  · refine ⟨fun _ => by decide, fun result s run => ?_⟩
    cases run
    refine ⟨fun _ => by decide, fun result s run => ?_⟩
    cases run
    refine ⟨fun single => ?_, fun _ _ _ => trivial⟩
    obtain ⟨r, root, children⟩ := single
    cases root
    cases children .left

/-- The node with `x = 2` does not fit below the one that is there, and the root that
`rpst_enlarge_tree` takes off leaves nothing.
-/
theorem single_node_grows
    : AllowedCalls 66 (rpstInitTree .blank) (fun _ => none) [.insert 1 0 0, .insert 2 2 0]
      ∧ ¬ Correct 66 (rpstInitTree .blank) (fun _ => none) [.insert 1 0 0, .insert 2 2 0] := by
  constructor
  · refine ⟨rfl, fun result s run => ?_⟩
    cases run
    exact ⟨rfl, fun _ _ _ => trivial⟩
  · rintro ⟨-, result, s, run, -, -, result', s', run', -⟩
    cases run
    cases run'
end BSDLibC.Rpst
