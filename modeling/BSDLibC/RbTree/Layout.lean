import BSDLibC.ColorTree.Distinct
import BSDLibC.RbTree.Operations

/-! How a coloured tree lies in memory, focused at a subtree. Links, father words, position
and colour bits are fixed by the tree; everything else in memory is unconstrained.
-/

namespace BSDLibC.RbTree
open BSDLibC.ColorTree

/-- The pointer that leads to a tree. -/
def rootPtr : CTree Ptr → Ptr
  | .nil => NULL
  | .node _ p _ => p

@[simp] theorem rootPtr_nil : rootPtr .nil = NULL := rfl

@[simp] theorem rootPtr_node (red : Bool) (p : Ptr) (kids : Dir → CTree Ptr)
    : rootPtr (.node red p kids) = p := rfl

variable (rbt : Ptr)

/-- What `RB_FATHER` of the focused subtree's root must be. -/
def ctxFather : Context Ptr → Ptr
  | [] => rbt
  | f :: _ => f.root

/-- What `RB_POSITION` of the focused subtree's root must be. -/
def ctxPosition : Context Ptr → Dir
  | [] => .left
  | f :: _ => f.dir

@[simp] theorem ctxFather_nil : ctxFather rbt [] = rbt := rfl

@[simp] theorem ctxFather_cons (f : Frame Ptr) (up : Context Ptr)
    : ctxFather rbt (f :: up) = f.root := rfl

@[simp] theorem ctxPosition_nil : ctxPosition [] = .left := rfl

@[simp] theorem ctxPosition_cons (f : Frame Ptr) (up : Context Ptr)
    : ctxPosition (f :: up) = f.dir := rfl

structure NodeAt (m : Mem) (p : Ptr) (links : Dir → Ptr) (father : Ptr) (position : Dir)
    (red : Bool)
    : Prop where
  valid : Valid rbt p
  links : (m.node p).rbNodes = links
  father : rbFather (m.node p).rbInfo = father
  position : rbPosition (m.node p).rbInfo = position
  red : rbRed (m.node p).rbInfo = red

def TreeAt (m : Mem) : CTree Ptr → Ptr → Dir → Prop
  | .nil, _, _ => True
  | .node red p kids, father, position =>
      NodeAt rbt m p (fun d => rootPtr (kids d)) father position red
      ∧ ∀ d, TreeAt m (kids d) p d

/-- The frames lie in memory around a hole whose link holds `hole`. -/
def CtxAt (m : Mem) : Context Ptr → Ptr → Prop
  | [], hole => m.rbtRoot = hole
  | f :: up, hole =>
      NodeAt rbt m f.root (pair f.dir hole (rootPtr f.sibling)) (ctxFather rbt up)
        (ctxPosition up) f.red
      ∧ TreeAt rbt m f.sibling f.root f.dir.other
      ∧ CtxAt m up f.root

/-- The plugged tree lies in memory, and no node occurs twice in it. -/
structure At (m : Mem) (ctx : Context Ptr) (T : CTree Ptr) : Prop where
  rbt_ne : rbt ≠ NULL
  context : CtxAt rbt m ctx (rootPtr T)
  tree : TreeAt rbt m T (ctxFather rbt ctx) (ctxPosition ctx)
  distinct : (plug ctx T).Distinct

variable {rbt}
variable {m m' : Mem} {ctx : Context Ptr} {T : CTree Ptr}

theorem TreeAt.valid {father : Ptr} {position : Dir} (h : TreeAt rbt m T father position)
    {x : Ptr} (member : T.Has x)
    : Valid rbt x := by
  induction T generalizing father position with
  | nil => simp at member
  | node red p kids ih =>
      rcases (CTree.has_node .left).mp member with rfl | child | child
      · exact h.1.valid
      · exact ih _ (h.2 _) child
      · exact ih _ (h.2 _) child

theorem CtxAt.valid {hole : Ptr} (h : CtxAt rbt m ctx hole) {x : Ptr} (member : Has ctx x)
    : Valid rbt x := by
  induction ctx generalizing hole with
  | nil => simp at member
  | cons f up ih =>
      rcases has_cons.mp member with rfl | inside | above
      · exact h.1.valid
      · exact h.2.1.valid inside
      · exact ih h.2.2 above

/-- The pointer to a tree is null exactly when the tree is empty. -/
theorem TreeAt.rootPtr_eq_null {father : Ptr} {position : Dir}
    (h : TreeAt rbt m T father position)
    : rootPtr T = NULL ↔ T = .nil := by
  cases T with
  | nil => simp
  | node red p kids => simpa using h.1.valid.ne_null

theorem TreeAt.has_rootPtr {father : Ptr} {position : Dir}
    (h : TreeAt rbt m T father position) (ne : rootPtr T ≠ NULL)
    : T.Has (rootPtr T) := by
  cases T with
  | nil => simp at ne
  | node red p kids => exact CTree.has_root

/-- A node outside a tree is not what the link to the tree holds. -/
theorem TreeAt.ne_rootPtr {father x : Ptr} {position : Dir}
    (h : TreeAt rbt m T father position) (ne : x ≠ NULL) (absent : ¬ T.Has x)
    : x ≠ rootPtr T := by
  rintro rfl
  exact absent (h.has_rootPtr ne)

theorem ctxFather_has (ne : ctxFather rbt ctx ≠ rbt) : Has ctx (ctxFather rbt ctx) := by
  cases ctx with
  | nil => exact absurd rfl ne
  | cons f up => exact has_cons.mpr (Or.inl rfl)

/-- The father of the focus can always have its link towards the focus written. -/
theorem CtxAt.setNodes (rbtNe : rbt ≠ NULL) {hole : Ptr} (h : CtxAt rbt m ctx hole)
    (m' : Mem) (x : Ptr)
    : m'.setNodes rbt (ctxFather rbt ctx) (ctxPosition ctx) x
      = some (m'.putNodes rbt (ctxFather rbt ctx) (ctxPosition ctx) x) := by
  cases ctx with
  | nil => simp [Mem.setNodes, ctxFather, ctxPosition, rbtNe]
  | cons f up => exact Mem.setNodes_valid h.1.valid _ _

theorem NodeAt.congr {p father : Ptr} {links : Dir → Ptr} {position : Dir} {red : Bool}
    (h : NodeAt rbt m p links father position red) (agree : m'.node p = m.node p)
    : NodeAt rbt m' p links father position red := by
  obtain ⟨valid, hl, hf, hp, hr⟩ := h
  exact ⟨valid, agree ▸ hl, agree ▸ hf, agree ▸ hp, agree ▸ hr⟩

theorem TreeAt.congr {father : Ptr} {position : Dir} (h : TreeAt rbt m T father position)
    (agree : ∀ x, T.Has x → m'.node x = m.node x)
    : TreeAt rbt m' T father position := by
  induction T generalizing father position with
  | nil => trivial
  | node red p kids ih =>
      refine ⟨h.1.congr (agree p CTree.has_root), fun d => ih d (h.2 d) ?_⟩
      intro x hx
      exact agree x (CTree.has_child hx)

theorem CtxAt.congr {hole : Ptr} (h : CtxAt rbt m ctx hole)
    (root : m'.rbtRoot = m.rbtRoot) (agree : ∀ x, Has ctx x → m'.node x = m.node x)
    : CtxAt rbt m' ctx hole := by
  induction ctx generalizing hole with
  | nil => exact root.trans h
  | cons f up ih =>
      refine ⟨h.1.congr (agree _ (has_cons.mpr (Or.inl rfl))), h.2.1.congr ?_, ih h.2.2 ?_⟩
      · intro x hx
        exact agree x (has_cons.mpr (Or.inr (Or.inl hx)))
      · intro x hx
        exact agree x (has_cons.mpr (Or.inr (Or.inr hx)))

/-- Only the links, the words and the root pointer matter. -/
theorem At.congr (h : At rbt m ctx T) (nodes : m'.node = m.node)
    (root : m'.rbtRoot = m.rbtRoot)
    : At rbt m' ctx T where
  rbt_ne := h.rbt_ne
  context := h.context.congr root (fun x _ => congrFun nodes x)
  tree := h.tree.congr (fun x _ => congrFun nodes x)
  distinct := h.distinct

/-- Writing the link towards the hole fills the hole and touches nothing else. -/
theorem CtxAt.relink {hole : Ptr} (h : CtxAt rbt m ctx hole) (distinct : Distinct ctx)
    (x : Ptr)
    : CtxAt rbt (m.putNodes rbt (ctxFather rbt ctx) (ctxPosition ctx) x) ctx x := by
  cases ctx with
  | nil => exact Mem.putNodes_root_self
  | cons f up =>
      obtain ⟨node, sibling, above⟩ := h
      obtain ⟨-, absent, absent', -, -⟩ := distinct
      have ne := node.valid.ne_rbt
      refine ⟨⟨node.valid, ?_, ?_, ?_, ?_⟩, sibling.congr ?_, above.congr ?_ ?_⟩
      · simp only [ctxFather, ctxPosition, Mem.putNodes_rbNodes_self ne, node.links]
        funext e
        rcases f.dir.eq_or_other e with rfl | rfl <;> simp
      · rw [Mem.putNodes_rbInfo, node.father]
      · rw [Mem.putNodes_rbInfo, node.position]
      · rw [Mem.putNodes_rbInfo, node.red]
      · intro y hy
        exact Mem.putNodes_node_ne (by rintro rfl; exact absent hy)
      · exact Mem.putNodes_root_ne ne
      · intro y hy
        exact Mem.putNodes_node_ne (by rintro rfl; exact absent' hy)

/-- Focusing on a child reads the same memory. -/
theorem At.down {red : Bool} {p : Ptr} {kids : Dir → CTree Ptr}
    (h : At rbt m ctx (.node red p kids)) (d : Dir)
    : At rbt m (⟨d, red, p, kids d.other⟩ :: ctx) (kids d) where
  rbt_ne := h.rbt_ne
  context := by
    refine ⟨⟨h.tree.1.valid, ?_, h.tree.1.father, h.tree.1.position, h.tree.1.red⟩,
      h.tree.2 _, h.context⟩
    rw [h.tree.1.links, ← pair_comp, pair_eta]
  tree := h.tree.2 d
  distinct := plug_child ctx red p kids d ▸ h.distinct

/-- Focusing on the father reads the same memory. -/
theorem At.up {f : Frame Ptr} (h : At rbt m (f :: ctx) T) : At rbt m ctx (f.fill T) where
  rbt_ne := h.rbt_ne
  context := h.context.2.2
  tree := by
    obtain ⟨node, sibling, -⟩ := h.context
    refine ⟨⟨node.valid, ?_, node.father, node.position, node.red⟩, ?_⟩
    · rw [node.links, ← pair_comp]
    · rw [Dir.forall_iff f.dir, pair_self, pair_other]
      exact ⟨h.tree, sibling⟩
  distinct := h.distinct

theorem At.down_pair {red : Bool} {p : Ptr} {d : Dir} {X Y : CTree Ptr}
    (h : At rbt m ctx (.node red p (pair d X Y)))
    : At rbt m (⟨d, red, p, Y⟩ :: ctx) X := by
  simpa using h.down d

/-- Focusing on an enclosing subtree reads the same memory. -/
theorem At.enclose {inner : Context Ptr} (h : At rbt m (inner ++ ctx) T)
    : At rbt m ctx (plug inner T) := by
  induction inner generalizing T with
  | nil => exact h
  | cons f rest ih => exact ih h.up

/-- Focusing on the whole tree reads the same memory. -/
theorem At.top (h : At rbt m ctx T) : At rbt m [] (plug ctx T) :=
  At.enclose (by simpa using h)

/-- Any decomposition of the tree can be taken as the focus. -/
theorem At.unplug {up : Context Ptr} (h : At rbt m up (plug ctx T)) : At rbt m (ctx ++ up) T := by
  induction ctx generalizing T with
  | nil => exact h
  | cons f rest ih => exact (ih h).down_pair

/-- Every node of the tree can be brought into focus. -/
theorem exists_focus {x : Ptr} (member : T.Has x)
    : ∃ ctx red kids, plug ctx (.node red x kids) = T := by
  induction T with
  | nil => simp at member
  | node red p kids ih =>
      have child {d : Dir} (inside : (kids d).Has x)
          : ∃ ctx red' kids', plug ctx (.node red' x kids') = .node red p kids := by
        obtain ⟨ctx, red', kids', same⟩ := ih d inside
        refine ⟨ctx ++ [⟨d, red, p, kids d.other⟩], red', kids', ?_⟩
        rw [plug_append, same, plug_child]
        rfl
      rcases (CTree.has_node .left).mp member with rfl | inside | inside
      · exact ⟨[], red, kids, rfl⟩
      · exact child inside
      · exact child inside

theorem TreeAt.rbRedP {father : Ptr} {position : Dir} (h : TreeAt rbt m T father position)
    : m.rbRedP rbt (rootPtr T) = some T.isRed := by
  cases T with
  | nil => exact Mem.rbRedP_null
  | node red p kids =>
      rw [rootPtr_node, Mem.rbRedP_valid h.1.valid, h.1.red, CTree.isRed_node]

/-- The innermost frame's root, read through the pointer the focus has as its father. -/
theorem At.frame {f : Frame Ptr} (h : At rbt m (f :: ctx) T)
    : Valid rbt f.root
      ∧ (m.node f.root).rbNodes f.dir = rootPtr T
      ∧ (m.node f.root).rbNodes f.dir.other = rootPtr f.sibling
      ∧ rbFather (m.node f.root).rbInfo = ctxFather rbt ctx
      ∧ rbPosition (m.node f.root).rbInfo = ctxPosition ctx
      ∧ rbRed (m.node f.root).rbInfo = f.red := by
  obtain ⟨node, -, -⟩ := h.context
  refine ⟨node.valid, ?_, ?_, node.father, node.position, node.red⟩
  · rw [node.links, pair_self]
  · rw [node.links, pair_other]

/-- The child links of one node lead to different nodes unless both are null. -/
theorem At.siblings_ne {f : Frame Ptr} (h : At rbt m (f :: ctx) T) (ne : rootPtr T ≠ NULL)
    : rootPtr T ≠ rootPtr f.sibling := by
  have member := h.tree.has_rootPtr ne
  refine h.context.2.1.ne_rootPtr ne (fun inside => ?_)
  exact ((distinct_plug _ _).mp h.distinct).2.2 _ member (has_cons.mpr (Or.inr (Or.inl inside)))

/-- The focused root and the frames share no node. -/
theorem At.apart (h : At rbt m ctx T) {x : Ptr} (member : T.Has x) : ¬ Has ctx x :=
  ((distinct_plug ctx T).mp h.distinct).2.2 x member

theorem At.ne_of_has (h : At rbt m ctx T) {x y : Ptr} (outer : Has ctx x) (inner : T.Has y)
    : x ≠ y := by
  rintro rfl
  exact h.apart inner outer

theorem At.ctxDistinct (h : At rbt m ctx T) : Distinct ctx :=
  ((distinct_plug ctx T).mp h.distinct).2.1

theorem At.treeDistinct (h : At rbt m ctx T) : T.Distinct :=
  ((distinct_plug ctx T).mp h.distinct).1

/-- A node of the focus is not the father of the focus. -/
theorem At.ne_father (h : At rbt m ctx T) {x : Ptr} (member : T.Has x)
    : x ≠ ctxFather rbt ctx := by
  rintro rfl
  by_cases top : ctxFather rbt ctx = rbt
  · exact (h.tree.valid member).ne_rbt top
  · exact h.apart member (ctxFather_has top)

/-- Once the link towards the focus leads to another tree made of nodes of the old focus,
that tree is the focus.
-/
theorem At.replaceFocus {T' : CTree Ptr} (h : At rbt m ctx T)
    (sub : ∀ x, T'.Has x → T.Has x) (distinct : T'.Distinct)
    (root : m'.rbtRoot
      = (m.putNodes rbt (ctxFather rbt ctx) (ctxPosition ctx) (rootPtr T')).rbtRoot)
    (agree : ∀ x, Has ctx x
      → m'.node x = (m.putNodes rbt (ctxFather rbt ctx) (ctxPosition ctx) (rootPtr T')).node x)
    (tree : TreeAt rbt m' T' (ctxFather rbt ctx) (ctxPosition ctx))
    : At rbt m' ctx T' where
  rbt_ne := h.rbt_ne
  context := (h.context.relink h.ctxDistinct (rootPtr T')).congr root agree
  tree := tree
  distinct := (distinct_plug _ _).mpr ⟨distinct, h.ctxDistinct, fun x hx => h.apart (sub x hx)⟩

/-- Once the link towards the focus leads to one node of the old focus with null links, that
node is the focus.
-/
theorem At.focusLeaf {red : Bool} {t : Ptr} (h : At rbt m ctx T) (inside : T.Has t)
    (root : m'.rbtRoot
      = (m.putNodes rbt (ctxFather rbt ctx) (ctxPosition ctx) t).rbtRoot)
    (agree : ∀ x, Has ctx x
      → m'.node x = (m.putNodes rbt (ctxFather rbt ctx) (ctxPosition ctx) t).node x)
    (node : NodeAt rbt m' t (fun _ => NULL) (ctxFather rbt ctx) (ctxPosition ctx) red)
    : At rbt m' ctx (.node red t (fun _ => .nil)) := by
  refine h.replaceFocus ?_ (by simp [CTree.distinct_node .left]) root agree ⟨node, fun _ => trivial⟩
  intro x hx
  rcases (CTree.has_node .left).mp hx with rfl | hx | hx
  · exact inside
  · simp at hx
  · simp at hx

/-- The focused root is the tree's root exactly when no frame is left. -/
theorem At.root_iff (h : At rbt m ctx T) (ne : rootPtr T ≠ NULL)
    : m.rbtRoot = rootPtr T ↔ ctx = [] := by
  have member := h.tree.has_rootPtr ne
  constructor
  · intro same
    -- Climbing to the outermost frame, `rbt_root` is that frame's root, not ours.
    by_contra nonempty
    have outer : ∀ (ctx : Context Ptr) (hole : Ptr), CtxAt rbt m ctx hole → ctx ≠ []
        → Has ctx m.rbtRoot := by
      intro ctx
      induction ctx with
      | nil => intro _ _ ne; exact absurd rfl ne
      | cons f up ih =>
          intro hole held _
          cases up with
          | nil => exact has_cons.mpr (Or.inl held.2.2)
          | cons g rest => exact has_cons.mpr (Or.inr (Or.inr (ih _ held.2.2 (by simp))))
    exact h.apart member (same ▸ outer ctx _ h.context nonempty)
  · rintro rfl
    exact h.context

end BSDLibC.RbTree
