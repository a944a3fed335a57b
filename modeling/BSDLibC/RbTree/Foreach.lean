import BSDLibC.RbTree.Iterate
import BSDLibC.RbTree.Runs

/-! The loops `RB_TREE_FOREACH` and `RB_TREE_FOREACH_REVERSE` over `rb_tree_iterate`, and the
cached extremes they start from.
-/

namespace BSDLibC.RbTree
open BSDLibC.ColorTree

variable (rbt : Ptr)

/-- The nodes met from `p` on by applying `rb_tree_iterate(t, p, d)` until it returns `NULL`. -/
def iterateFrom (fuel : Nat) (m : Mem) (d : Dir) : Nat → Ptr → Option (List Ptr)
  | 0, _ => none
  | passes + 1, p =>
      if p = NULL then
        some []
      else do
        let next ← rbTreeIterate rbt fuel m p d
        let rest ← iterateFrom fuel m d passes next
        return p :: rest

/-- `RB_TREE_FOREACH` for `right`, which starts at `RB_TREE_MIN`, and
`RB_TREE_FOREACH_REVERSE` for `left`, which starts at `RB_TREE_MAX`.
-/
def rbTreeForeach (fuel : Nat) (m : Mem) (d : Dir) : Option (List Ptr) := do
  let first ← rbTreeIterate rbt fuel m NULL d.other
  iterateFrom rbt fuel m d fuel first

variable {rbt}
variable {compareNodes : Ptr → Ptr → Int} {m : Mem} {T : CTree Ptr} {fuel : Nat}

/-- The walk from a node meets the rest of the traversal. -/
theorem iterateFrom_spec (h : At rbt m [] T) {d : Dir} {passes : Nat} {before rest : List Ptr}
    (split : T.traverse d = before ++ rest) (enough : size T ≤ fuel)
    (passesEnough : rest.length < passes)
    : iterateFrom rbt fuel m d passes (rest.head?.getD NULL) = some rest := by
  induction rest generalizing before passes with
  | nil =>
      obtain ⟨passes, rfl⟩ := Nat.exists_eq_add_of_lt passesEnough
      simp [iterateFrom]
  | cons p rest ih =>
      cases passes with
      | zero => omega
      | succ passes =>
          have member : T.Has p := by
            rw [← CTree.mem_traverse (d := d), split]
            simp
          have next := rbTreeIterate_spec h split enough
          have tail := ih (show T.traverse d = (before ++ [p]) ++ rest by simp [split])
            (show rest.length < passes by simp only [List.length_cons] at passesEnough; omega)
          simp [iterateFrom, (h.tree.valid member).ne_null, next, tail]

/-- A cached extreme is the first node of the traversal in the other direction. -/
theorem Stored.head_eq_minmax (h : Stored rbt compareNodes m T) (nonempty : T ≠ .nil) (d : Dir)
    : (T.traverse d).head? = some (m.rbtMinmax d.other) := by
  have last : (T.traverse d.other).getLast? = (T.traverse d).head? := by
    rw [CTree.traverse_other, List.getLast?_reverse]
  cases hd : (T.traverse d).head? with
  | none =>
      have empty := List.head?_eq_none_iff.mp hd
      cases T with
      | nil => exact absurd rfl nonempty
      | node red p kids => simp at empty
  | some x => rw [h.extremes d.other x (last.trans hd)]

/-- `rb_tree_iterate(t, NULL, d)` starts at the cached extreme. -/
theorem Stored.iterate_null (h : Stored rbt compareNodes m T) (d : Dir)
    : rbTreeIterate rbt fuel m NULL d.other = some ((T.traverse d).head?.getD NULL) := by
  have root : m.rbtRoot = rootPtr T := h.layout.context
  by_cases empty : T = .nil
  · subst empty
    simp [rbTreeIterate, root]
  · have ne : rootPtr T ≠ NULL := by rwa [Ne, h.layout.tree.rootPtr_eq_null]
    rw [h.head_eq_minmax empty]
    simp [rbTreeIterate, root, ne]

/-- The loop visits the whole traversal. -/
theorem Stored.foreach (h : Stored rbt compareNodes m T) (d : Dir) (enough : size T < fuel)
    : rbTreeForeach rbt fuel m d = some (T.traverse d) := by
  have short : (T.traverse d).length = size T := by
    cases d with
    | right => rfl
    | left =>
        have flip : T.traverse .left = (T.traverse .right).reverse := T.traverse_other .right
        rw [flip, List.length_reverse, size]
  have walk := iterateFrom_spec h.layout (show T.traverse d = [] ++ T.traverse d from rfl)
    (Nat.le_of_lt enough) (short ▸ enough)
  simp [rbTreeForeach, h.iterate_null, walk]

/-- In every tree reached from `rb_tree_init`: an empty tree has no first node; otherwise the
cached extremes are the least and the greatest node. From the extreme of one direction,
`rb_tree_iterate` in the other direction visits every node once, in ascending order for `right`
and in descending order for `left`, and ends with `NULL`.
-/
theorem runUpdates_foreach (order : TotalOrder compareNodes) (rbtNe : rbt ≠ NULL) (m₀ : Mem)
    (updates : List Update) (enough : updates.length < fuel)
    (legal : LegalUpdates rbt compareNodes fuel (rbTreeInit m₀) updates)
    : ∃ m, runUpdates rbt compareNodes fuel (rbTreeInit m₀) updates = some m
        ∧ (m.rbtRoot = NULL → ∀ d, rbTreeIterate rbt fuel m NULL d = some NULL)
        ∧ (m.rbtRoot ≠ NULL
          → (m.Linked (m.rbtMinmax .left)
              ∧ ∀ x, m.Linked x → x = m.rbtMinmax .left ∨ compareNodes (m.rbtMinmax .left) x < 0)
            ∧ m.Linked (m.rbtMinmax .right)
              ∧ ∀ x, m.Linked x → x = m.rbtMinmax .right ∨ compareNodes x (m.rbtMinmax .right) < 0)
        ∧ ∀ d, ∃ visited, rbTreeForeach rbt fuel m d = some visited
          ∧ (∀ x, x ∈ visited ↔ m.Linked x)
          ∧ visited.Nodup
          ∧ visited.Pairwise (fun a b => facing d (compareNodes a b) < 0) := by
  obtain ⟨m, T, run, stored, small⟩ :=
    (stored_init rbtNe m₀).runUpdates order legal (by simpa [size] using enough)
  have linked {x : Ptr} : m.Linked x ↔ T.Has x := stored.layout.linked_iff
  have root : m.rbtRoot = rootPtr T := stored.layout.context
  have short : size T < fuel := Nat.lt_of_le_of_lt small (by simpa [size] using enough)
  refine ⟨m, run, fun empty d => by simp [rbTreeIterate, empty], ?_, ?_⟩
  · intro ne
    have nonempty : T ≠ .nil := by rwa [root, Ne, stored.layout.tree.rootPtr_eq_null] at ne
    -- The extreme of direction `d.other` precedes every other node in direction `d`.
    have extreme (d : Dir) : T.Has (m.rbtMinmax d.other)
        ∧ ∀ x, T.Has x
          → x = m.rbtMinmax d.other ∨ facing d (compareNodes (m.rbtMinmax d.other) x) < 0 := by
      obtain ⟨rest, split⟩ := List.head?_eq_some_iff.mp (stored.head_eq_minmax nonempty d)
      have sorted := pairwise_facing order stored.sorted d
      rw [split] at sorted
      constructor
      · rw [← CTree.mem_traverse (d := d), split]
        simp
      · intro x member
        rw [← CTree.mem_traverse (d := d), split, List.mem_cons] at member
        exact member.imp id (fun later => (List.pairwise_cons.mp sorted).1 x later)
    simp only [linked]
    refine ⟨extreme .right, (extreme .left).1, fun x member => ?_⟩
    refine ((extreme .left).2 x member).imp id (fun after => ?_)
    simp only [facing, Dir.other] at after
    exact (order.swap _ _).mpr (by omega)
  · intro d
    refine ⟨T.traverse d, stored.foreach d short, ?_, ?_, pairwise_facing order stored.sorted d⟩
    · intro x
      rw [linked, CTree.mem_traverse]
    · exact CTree.nodup_traverse.mpr stored.layout.distinct

/-- Witness: a tree of three nodes. -/
theorem runUpdates_foreach_three
    : ∃ m, runUpdates header compareAddresses 4 (rbTreeInit blank)
          [.insert (nodeNo 3), .insert (nodeNo 1), .insert (nodeNo 2)] = some m
        ∧ ∀ d, ∃ visited, rbTreeForeach header 4 m d = some visited
          ∧ ∀ x, x ∈ visited ↔ m.Linked x := by
  have ne : header ≠ NULL := by decide
  obtain ⟨m, run, -, -, all⟩ := runUpdates_foreach compareAddresses_order ne blank
    [.insert (nodeNo 3), .insert (nodeNo 1), .insert (nodeNo 2)] (show _ < 4 by decide)
    ((stored_init ne blank).legalUpdates compareAddresses_order (by decide) (by decide))
  refine ⟨m, run, fun d => ?_⟩
  obtain ⟨visited, walk, exact, -⟩ := all d
  exact ⟨visited, walk, exact⟩

/-- Starting at `rb_tree_iterate(t, NULL, d)` and going on in the same direction `d` does not
visit the tree: `rbt_minmax[RB_DIR_RIGHT]` is already the last node of the walk to the right.
-/
theorem iterate_same_direction_stops
    : (do
        let m ← runUpdates header compareAddresses 3 (rbTreeInit blank)
          [.insert (nodeNo 1), .insert (nodeNo 2)]
        let first ← rbTreeIterate header 3 m NULL .right
        let visited ← iterateFrom header 3 m .right 3 first
        return (visited, m.inorder 2 m.rbtRoot))
      = some ([nodeNo 2], [nodeNo 1, nodeNo 2]) := by
  decide

end BSDLibC.RbTree
