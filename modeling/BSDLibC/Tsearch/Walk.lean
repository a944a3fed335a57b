import BSDLibC.Tsearch.Set

/-! Walks through a search tree by `twalk`. The action only looks at the tree. -/

namespace BSDLibC.Tsearch
open BSDLibC.ColorTree BSDLibC.LinkedTree

variable {K : Type}

inductive VISIT
  | preorder
  | postorder
  | endorder
  | leaf
deriving DecidableEq, Repr

/-- A call of the action. -/
structure Visit where
  root : Addr
  visit : VISIT
  level : Nat
deriving DecidableEq, Repr

/-- `if (root->llink != NULL)` and the same for `rlink` -/
def ifLinked (visits : Addr → Option (List Visit)) : Option Addr → Option (List Visit)
  | none => some []
  | some root => visits root

/-- The calls of the action, in their order. -/
def trecurse (s : State K) : Nat → Addr → Nat → Option (List Visit)
  | 0, _, _ => none
  | fuel + 1, root, level => do
      let node ← s.heap root
      if node.link .left = none ∧ node.link .right = none then
        return [⟨root, .leaf, level⟩]
      else
        let left ← ifLinked (fun llink => trecurse s fuel llink (level + 1)) (node.link .left)
        let right ← ifLinked (fun rlink => trecurse s fuel rlink (level + 1)) (node.link .right)
        return ⟨root, .preorder, level⟩ :: left ++ ⟨root, .postorder, level⟩ :: right
          ++ [⟨root, .endorder, level⟩]

def twalk (fuel : Nat) (s : State K) (vroot : Option Addr) : Option (List Visit) :=
  ifLinked (fun root => trecurse s fuel root 0) vroot

/-- The nodes of the visits of one kind, a leaf being visited once for all kinds. -/
def nodesOf (kind : VISIT) (visits : List Visit) : List Addr :=
  (visits.filter fun v => v.visit = kind ∨ v.visit = .leaf).map Visit.root

/-- A node that is so many links away from the root. -/
inductive State.Below (s : State K) : Nat → Addr → Prop
  | root {a : Addr} (top : s.root = some a) : s.Below 0 a
  | child {n : Nat} {a b : Addr} {node : Node K} {d : Dir} (above : s.Below n a)
      (found : s.heap a = some node) (linked : node.link d = some b)
      : s.Below (n + 1) b

/-- The visits tell a set: the visits between the subtrees meet its keys in ascending order, those
before and behind the subtrees meet the same nodes, and a level is the distance from the root.
-/
structure Tells (compar : K → K → Int) (s : State K) (S : Set K) (visits : List Visit) : Prop where
  ascending : ((nodesOf .postorder visits).filterMap fun a => (s.heap a).map Node.key).Pairwise
    fun x y => compar x y < 0
  complete : ∀ x, x ∈ S ↔ x ∈ (nodesOf .postorder visits).filterMap fun a => (s.heap a).map Node.key
  once : (nodesOf .postorder visits).Nodup
  before : (nodesOf .preorder visits).Perm (nodesOf .postorder visits)
  behind : (nodesOf .endorder visits).Perm (nodesOf .postorder visits)
  levels : ∀ v ∈ visits, s.Below v.level v.root

-----------------------------------------------------------------------------------------
-- The walk of a tree
-----------------------------------------------------------------------------------------

/-- The visits of a tree, by its structure. -/
def tour : CTree Addr → Nat → List Visit
  | .nil, _ => []
  | .node _ root kids, level =>
      if link (kids .left) = none ∧ link (kids .right) = none then
        [⟨root, .leaf, level⟩]
      else
        ⟨root, .preorder, level⟩ :: tour (kids .left) (level + 1) ++ ⟨root, .postorder, level⟩
          :: tour (kids .right) (level + 1) ++ [⟨root, .endorder, level⟩]

@[simp] theorem nodesOf_nil (kind : VISIT) : nodesOf kind [] = [] := rfl

theorem nodesOf_cons (kind : VISIT) (v : Visit) (visits : List Visit)
    : nodesOf kind (v :: visits)
      = if v.visit = kind ∨ v.visit = .leaf then v.root :: nodesOf kind visits else nodesOf kind visits := by
  simp only [nodesOf, List.filter_cons, decide_eq_true_eq]
  split <;> rfl

theorem nodesOf_append (kind : VISIT) (xs ys : List Visit)
    : nodesOf kind (xs ++ ys) = nodesOf kind xs ++ nodesOf kind ys := by
  rw [nodesOf, List.filter_append, List.map_append]
  rfl

/-- The walk between the subtrees is the traversal of the tree. -/
theorem nodesOf_postorder (T : CTree Addr) (level : Nat)
    : nodesOf .postorder (tour T level) = T.traverse .right := by
  induction T generalizing level with
  | nil => rfl
  | node red root kids ih =>
      rw [tour, CTree.traverse, show Dir.right.other = .left from rfl]
      split
      case isTrue ends =>
        rw [link_eq_none.mp ends.1, link_eq_none.mp ends.2]
        rfl
      case isFalse inner => simp [nodesOf_append, nodesOf_cons, ih]

/-- The other visits of a node with subtrees come to the same nodes. -/
theorem nodesOf_perm {kind : VISIT} (other : kind ≠ .leaf) (T : CTree Addr) (level : Nat)
    : (nodesOf kind (tour T level)).Perm (T.traverse .right) := by
  induction T generalizing level with
  | nil => rfl
  | node red root kids ih =>
      rw [tour, CTree.traverse, show Dir.right.other = .left from rfl]
      split
      case isTrue ends =>
        rw [link_eq_none.mp ends.1, link_eq_none.mp ends.2, nodesOf_cons, if_pos (Or.inr rfl)]
        rfl
      case isFalse inner =>
        have left := ih .left (level + 1)
        have right := ih .right (level + 1)
        cases kind with
        | leaf => exact absurd rfl other
        | preorder =>
            simp only [nodesOf_append, nodesOf_cons]
            simpa using ((left.append right).cons root).trans List.perm_middle.symm
        | postorder =>
            simp only [nodesOf_append, nodesOf_cons]
            simpa using left.append (right.cons root)
        | endorder =>
            simp only [nodesOf_append, nodesOf_cons]
            simpa using left.append ((List.perm_append_singleton root _).trans (right.cons root))

section

variable {s : State K} {T : CTree Addr}

/-- The recursion visits the tree that lies below a node. -/
theorem trecurse_eq (layout : TreeAt s.links.child T) (allocated : ∀ a, T.Has a → s.heap a ≠ none)
    {root : Addr} (here : link T = some root) (level : Nat)
    : ∃ enough, ∀ fuel ≥ enough, trecurse s fuel root level = some (tour T level) := by
  induction T generalizing root level with
  | nil => cases here
  | node red a kids ih =>
      cases here
      obtain ⟨node, found⟩ := Option.ne_none_iff_exists'.mp (allocated a CTree.has_root)
      have linked (d : Dir) : node.link d = link (kids d) := by
        rw [← (layout d).1, State.links_child found]
      -- a subtree, whether or not it is empty
      have child (d : Dir)
          : ∃ enough, ∀ fuel ≥ enough,
              ifLinked (fun b => trecurse s fuel b (level + 1)) (node.link d)
                = some (tour (kids d) (level + 1)) := by
        rw [linked]
        cases empty : link (kids d) with
        | none =>
            rw [link_eq_none.mp empty]
            exact ⟨0, fun _ _ => rfl⟩
        | some b => exact ih d (layout d).2 (fun c inside => allocated c (CTree.has_child inside)) empty _
      obtain ⟨left, runLeft⟩ := child .left
      obtain ⟨right, runRight⟩ := child .right
      refine ⟨max left right + 1, fun fuel enough => ?_⟩
      obtain ⟨fuel, rfl⟩ := Nat.exists_eq_add_of_le' (Nat.one_le_of_lt enough)
      rw [trecurse, found, tour, ← linked, ← linked]
      simp only [Option.bind_eq_bind, Option.bind_some]
      split
      · rfl
      · rw [runLeft fuel (by omega), runRight fuel (by omega)]
        rfl

/-- The levels of a subtree count the links from the root. -/
theorem tour_levels (layout : TreeAt s.links.child T) (allocated : ∀ a, T.Has a → s.heap a ≠ none)
    {root : Addr} (here : link T = some root) {level : Nat} (below : s.Below level root)
    : ∀ v ∈ tour T level, s.Below v.level v.root := by
  induction T generalizing root level with
  | nil => cases here
  | node red a kids ih =>
      cases here
      obtain ⟨node, found⟩ := Option.ne_none_iff_exists'.mp (allocated a CTree.has_root)
      have child (d : Dir) : ∀ v ∈ tour (kids d) (level + 1), s.Below v.level v.root := by
        cases empty : link (kids d) with
        | none =>
            rw [link_eq_none.mp empty]
            exact fun v inside => absurd inside List.not_mem_nil
        | some b =>
            refine ih d (layout d).2 (fun c inside => allocated c (CTree.has_child inside)) empty
              (below.child (d := d) found ?_)
            rw [← empty, ← (layout d).1, State.links_child found]
      intro v inside
      rw [tour] at inside
      split at inside
      · rw [List.mem_singleton.mp inside]
        exact below
      · simp only [List.cons_append, List.mem_cons, List.mem_append, List.not_mem_nil, or_false] at inside
        rcases inside with rfl | (left | rfl | right) | rfl
        · exact below
        · exact child .left v left
        · exact below
        · exact child .right v right
        · exact below

end

-----------------------------------------------------------------------------------------
-- Walks in runs
-----------------------------------------------------------------------------------------

section

variable {compar : K → K → Int} {s : State K} {S : Set K}

/-- A walk of a tree that represents a set tells this set. -/
theorem Represents.twalk (represents : Represents compar s S)
    : ∃ visits enough, (∀ fuel ≥ enough, twalk fuel s s.root = some visits) ∧ Tells compar s S visits := by
  obtain ⟨T, layout, allocated, sorted, keys⟩ := represents
  have live (a : Addr) (inside : T.Has a) : s.heap a ≠ none := (allocated a).mpr inside
  have top : s.root = link T := layout.context
  refine ⟨tour T 0, ?_⟩
  have tells : Tells compar s S (tour T 0) := by
    refine ⟨?_, fun x => ?_, ?_, ?_, ?_, ?_⟩
    · rw [nodesOf_postorder, List.pairwise_filterMap]
      refine sorted.imp fun {a b} apart x atA y atB => ?_
      obtain ⟨p, foundP, rfl⟩ := Option.map_eq_some_iff.mp atA
      obtain ⟨q, foundQ, rfl⟩ := Option.map_eq_some_iff.mp atB
      exact apart p foundP q foundQ
    · rw [keys, nodesOf_postorder, List.mem_filterMap]
      constructor
      · rintro ⟨a, stored⟩
        obtain ⟨node, found, -⟩ := Option.map_eq_some_iff.mp stored
        exact ⟨a, (allocated a).mp (by simp [found]), stored⟩
      · rintro ⟨a, -, stored⟩
        exact ⟨a, stored⟩
    · rw [nodesOf_postorder]
      exact layout.distinct
    · rw [nodesOf_postorder]
      exact nodesOf_perm (by decide) T 0
    · rw [nodesOf_postorder]
      exact nodesOf_perm (by decide) T 0
    · cases empty : link T with
      | none =>
          rw [link_eq_none.mp empty]
          exact fun v inside => absurd inside List.not_mem_nil
      | some root => exact tour_levels layout.tree live empty (.root (top.trans empty))
  rw [top]
  cases empty : link T with
  | none =>
      rw [link_eq_none.mp empty] at tells ⊢
      exact ⟨0, fun _ _ => rfl, tells⟩
  | some root =>
      obtain ⟨enough, run⟩ := trecurse_eq layout.tree live empty 0
      exact ⟨enough, run, tells⟩

theorem represents_empty : Represents compar (.empty : State K) ∅ :=
  ⟨.nil, ⟨rfl, trivial, by simp [CTree.Distinct]⟩, by simp [State.empty], by simp, by simp [State.empty]⟩

end

end BSDLibC.Tsearch
