import BSDLibC.RbTree.Insert

/-! What the linked structure in memory is, read off the links alone: the nodes reached from
a pointer, the colours on the way to a sentinel, and the in-order list.
-/

namespace BSDLibC.RbTree
open BSDLibC.ColorTree

/-- The node reached from `p` along `path`; a sentinel leads nowhere. -/
def Mem.follow (m : Mem) : Ptr → List Dir → Ptr
  | p, [] => p
  | p, d :: path => if p = NULL then NULL else m.follow ((m.node p).rbNodes d) path

/-- The node `x` is reached from `p`. -/
def Mem.Below (m : Mem) (p x : Ptr) : Prop := x ≠ NULL ∧ ∃ path, m.follow p path = x

/-- The node `x` is currently linked into the tree. -/
def Mem.Linked (m : Mem) (x : Ptr) : Prop := m.Below m.rbtRoot x

/-- How many black nodes a path from `p` that ends at a sentinel meets. -/
def Mem.blackCount (m : Mem) : Ptr → List Dir → Option Nat
  | p, [] => if p = NULL then some 0 else none
  | p, d :: path =>
      if p = NULL then
        none
      else
        (m.blackCount ((m.node p).rbNodes d) path).map (· + weight (rbRed (m.node p).rbInfo))

/-- The nodes below `p` in order, down to a given depth. -/
def Mem.inorder (m : Mem) : Nat → Ptr → List Ptr
  | 0, _ => []
  | depth + 1, p =>
      if p = NULL then
        []
      else
        m.inorder depth ((m.node p).rbNodes .left)
          ++ p :: m.inorder depth ((m.node p).rbNodes .right)

/-- The conditions on a linked structure, each about links and words in memory. -/
structure WellFormed (rbt : Ptr) (compareNodes : Ptr → Ptr → Int) (m : Mem) : Prop where
  rootBlack : m.rbtRoot ≠ NULL → rbRed (m.node m.rbtRoot).rbInfo = false
  rootFather : m.rbtRoot ≠ NULL
    → rbFather (m.node m.rbtRoot).rbInfo = rbt ∧ rbPosition (m.node m.rbtRoot).rbInfo = .left
  noRedRed : ∀ p d, m.Linked p → (m.node p).rbNodes d ≠ NULL → rbRed (m.node p).rbInfo = true
    → rbRed (m.node ((m.node p).rbNodes d)).rbInfo = false
  balanced : ∃ n, ∀ path k, m.blackCount m.rbtRoot path = some k → k = n
  fathers : ∀ p d, m.Linked p → (m.node p).rbNodes d ≠ NULL
    → rbFather (m.node ((m.node p).rbNodes d)).rbInfo = p
      ∧ rbPosition (m.node ((m.node p).rbNodes d)).rbInfo = d
  ordered : ∀ p x, m.Linked p
    → (m.Below ((m.node p).rbNodes .left) x → compareNodes x p < 0)
      ∧ (m.Below ((m.node p).rbNodes .right) x → compareNodes p x < 0)
  finite : ∃ depth, ∀ path, depth ≤ path.length → m.follow m.rbtRoot path = NULL

variable {rbt : Ptr} {m : Mem} {T : CTree Ptr} {father : Ptr} {position : Dir}
variable {compareNodes : Ptr → Ptr → Int}

/-- The nodes reached from the pointer to a tree are the nodes of the tree. -/
theorem TreeAt.below_iff (h : TreeAt rbt m T father position) {x : Ptr}
    : m.Below (rootPtr T) x ↔ T.Has x := by
  constructor
  · rintro ⟨ne, path, reached⟩
    induction path generalizing T father position with
    | nil =>
        obtain rfl : rootPtr T = x := reached
        exact h.has_rootPtr ne
    | cons d path ih =>
        cases T with
        | nil => exact absurd reached.symm (by simpa [Mem.follow] using ne)
        | node red p kids =>
            rw [rootPtr_node, Mem.follow, if_neg h.1.valid.ne_null, h.1.links] at reached
            exact CTree.has_child (ih (h.2 d) reached)
  · intro member
    refine ⟨(h.valid member).ne_null, ?_⟩
    induction T generalizing father position with
    | nil => simp at member
    | node red p kids ih =>
        have child {d : Dir} (inside : (kids d).Has x) : ∃ path, m.follow p path = x := by
          obtain ⟨path, reached⟩ := ih d (h.2 d) inside
          refine ⟨d :: path, ?_⟩
          rw [Mem.follow, if_neg h.1.valid.ne_null, h.1.links]
          exact reached
        rcases (CTree.has_node .left).mp member with rfl | inside | inside
        · exact ⟨[], rfl⟩
        · exact child inside
        · exact child inside

theorem At.linked_iff (h : At rbt m [] T) {x : Ptr} : m.Linked x ↔ T.Has x := by
  rw [Mem.Linked, show m.rbtRoot = rootPtr T from h.context]
  exact h.tree.below_iff

theorem TreeAt.blackCount {n k : Nat} {path : List Dir} (h : TreeAt rbt m T father position)
    (balanced : T.Balanced n) (count : m.blackCount (rootPtr T) path = some k)
    : k = n := by
  induction path generalizing T father position n k with
  | nil =>
      cases T with
      | nil =>
          have zero : n = 0 := balanced
          simpa [Mem.blackCount, zero] using count.symm
      | node red p kids => simp [Mem.blackCount, h.1.valid.ne_null] at count
  | cons d path ih =>
      cases T with
      | nil => simp [Mem.blackCount] at count
      | node red p kids =>
          obtain ⟨j, rfl, below⟩ := balanced
          rw [rootPtr_node, Mem.blackCount, if_neg h.1.valid.ne_null, h.1.links, h.1.red,
            Option.map_eq_some_iff] at count
          obtain ⟨i, inner, rfl⟩ := count
          rw [ih (h.2 d) (below d) inner]

theorem TreeAt.follow_null {path : List Dir} (h : TreeAt rbt m T father position)
    (long : size T ≤ path.length)
    : m.follow (rootPtr T) path = NULL := by
  induction path generalizing T father position with
  | nil =>
      cases T with
      | nil => rfl
      | node red p kids => simp [size] at long
  | cons d path ih =>
      cases T with
      | nil => simp [Mem.follow]
      | node red p kids =>
          rw [rootPtr_node, Mem.follow, if_neg h.1.valid.ne_null, h.1.links]
          have shorter := size_node red p kids d
          simp only [List.length_cons] at long
          exact ih (h.2 d) (by omega)

theorem TreeAt.inorder {depth : Nat} (h : TreeAt rbt m T father position)
    (deep : size T ≤ depth)
    : m.inorder depth (rootPtr T) = T.traverse .right := by
  induction T generalizing depth father position with
  | nil => cases depth <;> simp [Mem.inorder]
  | node red p kids ih =>
      have smaller := size_node red p kids .left
      cases depth with
      | zero => omega
      | succ depth =>
          rw [rootPtr_node, Mem.inorder, if_neg h.1.valid.ne_null, h.1.links,
            ih .left (h.2 .left) (by omega), ih .right (h.2 .right) (by simp only [Dir.other] at smaller; omega)]
          rfl

/-- The children of a linked node, with the whole tree focused at it. -/
theorem At.exists_linked (h : At rbt m [] T) {p : Ptr} (linked : m.Linked p)
    : ∃ ctx red kids, plug ctx (.node red p kids) = T ∧ At rbt m ctx (.node red p kids) := by
  obtain ⟨ctx, red, kids, rfl⟩ := exists_focus (h.linked_iff.mp linked)
  exact ⟨ctx, red, kids, rfl, by simpa using h.unplug⟩

/-- A child that is not the sentinel is a laid-out node. -/
theorem TreeAt.exists_child (h : TreeAt rbt m T father position) (ne : rootPtr T ≠ NULL)
    : ∃ red kids, T = .node red (rootPtr T) kids := by
  cases T with
  | nil => simp at ne
  | node red p kids => exact ⟨red, kids, rfl⟩

theorem Stored.wellFormed (h : Stored rbt compareNodes m T) : WellFormed rbt compareNodes m := by
  have root : m.rbtRoot = rootPtr T := h.layout.context
  have tree := h.layout.tree
  have topNode (ne : m.rbtRoot ≠ NULL) : ∃ kids, T = .node false m.rbtRoot kids := by
    obtain ⟨red, kids, same⟩ := tree.exists_child (root ▸ ne)
    have black := h.redBlack.rootBlack
    rw [same, CTree.isRed_node] at black
    rw [black, ← root] at same
    exact ⟨kids, same⟩
  -- What holds between a linked node and a child of it.
  have edge {p : Ptr} {d : Dir} (linked : m.Linked p) (ne : (m.node p).rbNodes d ≠ NULL)
      : rbFather (m.node ((m.node p).rbNodes d)).rbInfo = p
        ∧ rbPosition (m.node ((m.node p).rbNodes d)).rbInfo = d
        ∧ (rbRed (m.node p).rbInfo = true
          → rbRed (m.node ((m.node p).rbNodes d)).rbInfo = false) := by
    obtain ⟨ctx, red, kids, same, focus⟩ := h.layout.exists_linked linked
    have child := focus.tree.2 d
    rw [focus.tree.1.links] at ne ⊢
    obtain ⟨redC, kidsC, node⟩ := child.exists_child ne
    have okP := ((redBlack_plug _ _).mp (same ▸ h.redBlack)).1
    have colour := (CTree.noRedRed_node.mp okP) d
    rw [node] at child colour
    refine ⟨child.1.father, child.1.position, ?_⟩
    rw [focus.tree.1.red, child.1.red]
    exact colour.1
  constructor
  case rootBlack =>
    intro ne
    obtain ⟨kids, same⟩ := topNode ne
    rw [same] at tree
    exact tree.1.red
  case rootFather =>
    intro ne
    obtain ⟨kids, same⟩ := topNode ne
    rw [same] at tree
    exact ⟨tree.1.father, tree.1.position⟩
  case noRedRed => exact fun p d linked ne red => (edge linked ne).2.2 red
  case balanced =>
    obtain ⟨n, balanced⟩ := h.redBlack.balanced
    exact ⟨n, fun path k count => tree.blackCount balanced (root ▸ count)⟩
  case fathers => exact fun p d linked ne => ⟨(edge linked ne).1, (edge linked ne).2.1⟩
  case ordered =>
    intro p x linked
    obtain ⟨ctx, red, kids, same, focus⟩ := h.layout.exists_linked linked
    have sorted := h.sorted
    rw [← same, traverse_plug, CTree.traverse_node] at sorted
    obtain ⟨lower, upper, across⟩ := List.pairwise_append.mp
      (List.pairwise_append.mp (List.pairwise_append.mp sorted).2.1).1
    rw [focus.tree.1.links, (focus.tree.2 _).below_iff, (focus.tree.2 _).below_iff]
    constructor
    · intro below
      exact across x (CTree.mem_traverse.mpr below) p (by simp)
    · intro below
      exact (List.pairwise_cons.mp upper).1 x (CTree.mem_traverse.mpr below)
  case finite =>
    exact ⟨_, fun path long => root ▸ tree.follow_null long⟩

end BSDLibC.RbTree
