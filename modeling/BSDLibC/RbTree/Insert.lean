import BSDLibC.RbTree.InsertRebalance
import BSDLibC.RbTree.Search

/-! `rb_tree_insert_node`: linking a new leaf at the end of the search, keeping the cached
extremes, and rebalancing.
-/

namespace BSDLibC.RbTree
open BSDLibC.ColorTree

variable {rbt : Ptr} {m m' : Mem} {ctx : Context Ptr}

/-- A node outside the tree with a matching word and null links, once the father's link
leads to it, is a leaf at the focus.
-/
theorem At.linkLeaf {s : Ptr} {w : BitVec 64} (h : At rbt m ctx .nil) (valid : Valid rbt s)
    (fresh : ¬ Has ctx s) (father : rbFather w = ctxFather rbt ctx)
    (position : rbPosition w = ctxPosition ctx)
    : At rbt
        ((((m.putInfo s w).putNodes rbt s .left NULL).putNodes rbt s .right NULL).putNodes rbt
          (ctxFather rbt ctx) (ctxPosition ctx) s)
        ctx (.node (rbRed w) s (fun _ => .nil)) := by
  have away : s ≠ ctxFather rbt ctx := by
    rintro rfl
    exact fresh (ctxFather_has valid.ne_rbt)
  have context : CtxAt rbt (((m.putInfo s w).putNodes rbt s .left NULL).putNodes rbt s .right
      NULL) ctx NULL := by
    refine h.context.congr ?_ (fun x hx => ?_)
    · rw [Mem.putNodes_root_ne valid.ne_rbt, Mem.putNodes_root_ne valid.ne_rbt,
        Mem.putInfo_root]
    · have ne : x ≠ s := by rintro rfl; exact fresh hx
      rw [Mem.putNodes_node_ne ne, Mem.putNodes_node_ne ne, Mem.putInfo_node_ne ne]
  refine ⟨h.rbt_ne, context.relink h.ctxDistinct s, ⟨⟨valid, ?_, ?_, ?_, ?_⟩, fun _ => trivial⟩, ?_⟩
  · rw [Mem.putNodes_node_ne away, Mem.putNodes_rbNodes_self valid.ne_rbt,
      Mem.putNodes_rbNodes_self valid.ne_rbt]
    funext e
    cases e <;> simp
  · simp only [Mem.putNodes_rbInfo, Mem.putInfo_rbInfo_self, father]
  · simp only [Mem.putNodes_rbInfo, Mem.putInfo_rbInfo_self, position]
  · simp only [Mem.putNodes_rbInfo, Mem.putInfo_rbInfo_self]
  · refine (distinct_plug _ _).mpr ⟨?_, h.ctxDistinct, ?_⟩
    · rw [CTree.distinct_node .left]
      simp
    · intro x hx
      rcases (CTree.has_node .left).mp hx with rfl | hx | hx
      · exact fresh
      · simp at hx
      · simp at hx

/-- The first node becomes a black root and both extremes. -/
theorem rbTreeInsertNode_link_root {s : Ptr} (h : At rbt m [] .nil)
    (valid : Valid rbt s) (fuel : Nat)
    : ∃ m', rbTreeInsertNode.link rbt fuel m s rbt .left = some m'
        ∧ At rbt m' [] (.node false s (fun _ => .nil))
        ∧ m'.rbtMinmax = fun _ => s := by
  have null : m.rbtRoot = NULL := h.context
  have base : At rbt ((m.putMinmax .left s).putMinmax .right s) [] .nil := h.congr rfl rfl
  have leaf := base.linkLeaf (w := rbMarkBlack (rbSetPosition (rbSetFather (m.node s).rbInfo rbt)
    .left)) valid (by simp) (by simp [ctxFather]) (by simp [ctxPosition])
  refine ⟨_, ?_, by simpa using leaf, ?_⟩
  · have link := CtxAt.setNodes h.rbt_ne h.context
    simp only [ctxFather, ctxPosition] at link
    simp only [rbTreeInsertNode.link, Mem.rbSetFather_valid valid, Mem.rbSetPosition_valid valid,
      Mem.rbMarkBlack_valid valid, Mem.putInfo_putInfo, Mem.putInfo_rbInfo_self, if_true,
      Option.bind_eq_bind, Option.bind_some, Option.pure_def, Mem.putMinmax_putInfo,
      Mem.setNodes_valid valid, Mem.rbNodes_rbt h.rbt_ne, link, Mem.putNodes_root_ne valid.ne_rbt,
      Mem.putInfo_root, Mem.putMinmax_root, null, Bool.false_eq_true, if_false]
  · simp only [Mem.putNodes_minmax, Mem.putInfo_minmax]
    funext d
    cases d <;> simp [Mem.putMinmax]

/-- A later node becomes a red leaf, and an extreme if its father was one on that side. -/
theorem rbTreeInsertNode_link_child {s : Ptr} {f : Frame Ptr} (h : At rbt m (f :: ctx) .nil)
    (valid : Valid rbt s) (fresh : ¬ Has (f :: ctx) s) (fuel : Nat)
    : ∃ m₁, rbTreeInsertNode.link rbt fuel m s f.root f.dir
            = (if f.red then rbTreeInsertRebalance rbt fuel m₁ s else some m₁)
        ∧ At rbt m₁ (f :: ctx) (.node true s (fun _ => .nil))
        ∧ m₁.rbtMinmax
          = if f.root = m.rbtMinmax f.dir then
              Function.update m.rbtMinmax f.dir s
            else
              m.rbtMinmax := by
  obtain ⟨vf, near, -, -, -, red⟩ := h.frame
  have ne : f.root ≠ s := by
    rintro rfl
    exact fresh (has_cons.mpr (Or.inl rfl))
  -- The memory with the cache already updated; the other writes commute with that.
  obtain ⟨m₀, cache, base, nodes, minmax⟩ : ∃ m₀ : Mem,
      (∀ w, (if f.root = m.rbtMinmax f.dir then (m.putInfo s w).putMinmax f.dir s
          else m.putInfo s w) = m₀.putInfo s w)
      ∧ At rbt m₀ (f :: ctx) .nil
      ∧ m₀.node = m.node
      ∧ m₀.rbtMinmax
        = if f.root = m.rbtMinmax f.dir then Function.update m.rbtMinmax f.dir s
          else m.rbtMinmax := by
    refine ⟨if f.root = m.rbtMinmax f.dir then m.putMinmax f.dir s else m, ?_, h.congr ?_ ?_, ?_, ?_⟩
    · intro w
      split <;> rfl
    all_goals split <;> rfl
  have leaf := base.linkLeaf (w := rbMarkRed (rbSetPosition (rbSetFather (m.node s).rbInfo f.root)
    f.dir)) valid fresh (by simp [ctxFather]) (by simp [ctxPosition])
  refine ⟨_, ?_, by simpa using leaf, by simpa using minmax⟩
  have null : (m.node f.root).rbNodes f.dir = NULL := near
  simp only [rbTreeInsertNode.link, Mem.rbSetFather_valid valid, Mem.rbSetPosition_valid valid,
    Mem.rbMarkRed_valid valid, Mem.putInfo_putInfo, Mem.putInfo_rbInfo_self, vf.ne_rbt,
    if_false, Option.bind_eq_bind, Option.bind_some, Option.pure_def, Mem.putInfo_minmax, cache,
    Mem.rbRedP_valid vf, Mem.putInfo_node_ne ne, nodes, red, Mem.rbNodes_valid vf, null,
    Mem.setNodes_valid valid, Mem.setNodes_valid vf, Mem.putNodes_node_ne ne]

/-- `rbto_compare_nodes` orders the objects; different objects may compare equal. -/
structure TotalOrder (compareNodes : Ptr → Ptr → Int) : Prop where
  swap : ∀ a b, compareNodes a b < 0 ↔ 0 < compareNodes b a
  trans : ∀ a b c, compareNodes a b ≤ 0 → compareNodes b c ≤ 0 → compareNodes a c ≤ 0

/-- The cached extremes are the last nodes of both traversals. -/
def Extremes (minmax : Dir → Ptr) (T : CTree Ptr) : Prop :=
  ∀ d x, (T.traverse d).getLast? = some x → minmax d = x

theorem Extremes.congr {minmax : Dir → Ptr} {T T' : CTree Ptr} (h : Extremes minmax T)
    (same : T'.traverse .right = T.traverse .right)
    : Extremes minmax T' := by
  intro d x last
  rw [CTree.traverse_congr .right d same] at last
  exact h d x last

/-- The memory holds the red-black search tree `T`, with the right cached extremes. -/
structure Stored (rbt : Ptr) (compareNodes : Ptr → Ptr → Int) (m : Mem) (T : CTree Ptr)
    : Prop where
  layout : At rbt m [] T
  redBlack : T.RedBlack
  sorted : (T.traverse .right).Pairwise (fun a b => compareNodes a b < 0)
  extremes : Extremes m.rbtMinmax T

variable {compareNodes : Ptr → Ptr → Int}

/-- A repaired tree keeps what was stored before the repair began. -/
theorem Repaired.stored {T : CTree Ptr} {elements : List Ptr} (h : Repaired rbt m elements m')
    (same : T.traverse .right = elements)
    (sorted : elements.Pairwise (fun a b => compareNodes a b < 0))
    (extremes : Extremes m.rbtMinmax T)
    : ∃ T', Stored rbt compareNodes m' T' ∧ T'.traverse .right = elements := by
  obtain ⟨⟨T', layout, redBlack, elements'⟩, minmax⟩ := h
  refine ⟨T', ⟨layout, redBlack, elements' ▸ sorted, ?_⟩, elements'⟩
  rw [minmax]
  exact extremes.congr (elements'.trans same.symm)

/-- Comparing a sorted traversal with any object is a probe. -/
theorem TotalOrder.probes (order : TotalOrder compareNodes) {elements : List Ptr}
    (sorted : elements.Pairwise (fun a b => compareNodes a b < 0)) (object : Ptr)
    : Probes (compareNodes · object) elements := by
  refine sorted.imp ?_
  intro a b less reached
  by_contra behind
  dsimp only at reached behind
  have le : compareNodes object a ≤ 0 := by
    have := order.swap a object
    omega
  have back := order.trans b object a (by omega) le
  have := (order.swap a b).mp less
  omega

/-- The abstract insertion: the smaller elements, the new one, the larger ones. -/
def insertSorted (compareNodes : Ptr → Ptr → Int) (s : Ptr) (elements : List Ptr)
    : List Ptr :=
  elements.filter (fun x => compareNodes x s < 0)
    ++ s :: elements.filter (fun x => 0 < compareNodes x s)

/-- Inserting between the smaller and the larger elements is the abstract insertion. -/
theorem insertSorted_split {s : Ptr} {xs ys : List Ptr}
    (below : ∀ x ∈ xs, compareNodes x s < 0) (aboveS : ∀ y ∈ ys, 0 < compareNodes y s)
    : insertSorted compareNodes s (xs ++ ys) = xs ++ s :: ys := by
  have keepX : xs.filter (fun x => decide (compareNodes x s < 0)) = xs :=
    List.filter_eq_self.mpr (fun x hx => by simpa using below x hx)
  have dropY : ys.filter (fun x => decide (compareNodes x s < 0)) = [] :=
    List.filter_eq_nil_iff.mpr (fun y hy => by have := aboveS y hy; simp; omega)
  have dropX : xs.filter (fun x => decide (0 < compareNodes x s)) = [] :=
    List.filter_eq_nil_iff.mpr (fun x hx => by have := below x hx; simp; omega)
  have keepY : ys.filter (fun x => decide (0 < compareNodes x s)) = ys :=
    List.filter_eq_self.mpr (fun y hy => by simpa using aboveS y hy)
  simp only [insertSorted, List.filter_append, keepX, dropY, dropX, keepY, List.append_nil,
    List.nil_append]

theorem pairwise_insert {s : Ptr} {xs ys : List Ptr} (order : TotalOrder compareNodes)
    (sorted : (xs ++ ys).Pairwise (fun a b => compareNodes a b < 0))
    (below : ∀ x ∈ xs, compareNodes x s < 0) (aboveS : ∀ y ∈ ys, 0 < compareNodes y s)
    : (xs ++ s :: ys).Pairwise (fun a b => compareNodes a b < 0) := by
  obtain ⟨sortedX, sortedY, across⟩ := List.pairwise_append.mp sorted
  refine List.pairwise_append.mpr ⟨sortedX, List.pairwise_cons.mpr ⟨?_, sortedY⟩, ?_⟩
  · intro y hy
    exact (order.swap s y).mpr (aboveS y hy)
  · intro x hx y hy
    rcases List.mem_cons.mp hy with rfl | hy
    · exact below x hx
    · exact across x hx y hy

/-- The cached extremes follow a new leaf under the frame `f`. -/
theorem extremes_link {f : Frame Ptr} {s : Ptr} {minmax minmax' : Dir → Ptr}
    (distinct : (plug (f :: ctx) .nil).Distinct)
    (old : Extremes minmax (plug (f :: ctx) .nil))
    (new : minmax'
      = if f.root = minmax f.dir then Function.update minmax f.dir s else minmax)
    : Extremes minmax' (plug (f :: ctx) (.node true s (fun _ => .nil))) := by
  obtain ⟨e, red, p, S⟩ := f
  obtain ⟨-, ⟨-, -, absent, -, -⟩, -⟩ := (distinct_plug _ _).mp distinct
  rw [Extremes, Dir.forall_iff e] at old ⊢
  simp only [traverse_plug, beyond_cons_same, beyond_cons_other, CTree.traverse_nil,
    CTree.traverse_node, Dir.other_other, List.nil_append, List.getLast?_append] at old ⊢
  obtain ⟨oldE, oldO⟩ := old
  constructor
  · intro x last
    cases hb : (beyond e ctx).getLast? with
    | none =>
        have here : minmax e = p := oldE p (by simp [hb])
        have empty : beyond e ctx = [] := List.getLast?_eq_none_iff.mp hb
        simp only [empty] at last
        rw [new, if_pos here.symm]
        simpa using last
    | some y =>
        have kept : minmax e = y := oldE y (by simp [hb])
        have ne : p ≠ minmax e := by
          rintro rfl
          exact absent ⟨e, kept ▸ List.mem_of_getLast? hb⟩
        have same : y = x := by simpa [List.getLast?_cons, hb] using last
        rw [new, if_neg ne, kept, same]
  · intro x last
    have kept : minmax e.other = x := by
      refine oldO x ?_
      simpa [List.getLast?_cons] using last
    rw [new]
    split
    · simpa using kept
    · exact kept

/-- Linking and rebalancing a new node at the end of the search. -/
theorem Stored.link {T : CTree Ptr} {s : Ptr} {fuel : Nat} (order : TotalOrder compareNodes)
    (h : Stored rbt compareNodes m T) (valid : Valid rbt s) (fresh : ¬ T.Has s)
    (focus : At rbt m ctx .nil) (same : plug ctx .nil = T)
    (sides : ∀ d, ∀ x ∈ beyond d ctx, 0 < facing d (compareNodes x s))
    (enough : size T < fuel)
    : ∃ m' T', rbTreeInsertNode.link rbt fuel m s (ctxFather rbt ctx) (ctxPosition ctx) = some m'
        ∧ Stored rbt compareNodes m' T'
        ∧ T'.traverse .right = insertSorted compareNodes s (T.traverse .right) := by
  subst same
  have below : ∀ x ∈ (beyond .left ctx).reverse, compareNodes x s < 0 := by
    intro x hx
    have := sides .left x (List.mem_reverse.mp hx)
    simp only [facing] at this
    omega
  have aboveS : ∀ x ∈ beyond .right ctx, 0 < compareNodes x s := sides .right
  have split : (plug ctx .nil).traverse .right = (beyond .left ctx).reverse ++ beyond .right ctx := by
    simp [traverse_plug, Dir.other]
  have inserted : insertSorted compareNodes s ((plug ctx .nil).traverse .right)
      = (beyond .left ctx).reverse ++ s :: beyond .right ctx := by
    rw [split, insertSorted_split below aboveS]
  have sorted := pairwise_insert order (split ▸ h.sorted) below aboveS
  have absent : ¬ Has ctx s := by
    intro member
    refine fresh ?_
    rw [← CTree.mem_traverse (d := .right), split, List.mem_append, List.mem_reverse]
    exact ((has_iff .right).mp member).symm
  have leafOrder (c : Bool) : (plug ctx (.node c s (fun _ => .nil))).traverse .right
      = (beyond .left ctx).reverse ++ s :: beyond .right ctx := by
    simp [traverse_plug, Dir.other]
  rw [inserted]
  cases ctx with
  | nil =>
      obtain ⟨m', run, layout, minmax⟩ := rbTreeInsertNode_link_root focus valid fuel
      refine ⟨m', _, run, ⟨layout, ?_, ?_, ?_⟩, leafOrder false⟩
      · refine ⟨rfl, fun d => by simp, 1, ?_⟩
        exact CTree.balanced_black.mpr (fun _ => rfl)
      · rw [show (CTree.node false s (fun _ => .nil)).traverse .right = _ from leafOrder false]
        exact sorted
      · intro d x last
        rw [minmax]
        simpa using last
  | cons f up =>
      obtain ⟨m₁, run₁, at₁, minmax₁⟩ :=
        rbTreeInsertNode_link_child focus valid absent fuel
      have extremes := extremes_link focus.distinct h.extremes minmax₁
      obtain ⟨-, ⟨redF, okS, above⟩, n, rfl, balS, heights⟩ := (redBlack_plug _ _).mp h.redBlack
      have leafOk : (CTree.node true s (fun _ => .nil)).NoRedRed := fun d => by simp
      have leafFlat : (CTree.node true s (fun _ => .nil)).Balanced 0 :=
        CTree.balanced_red.mpr (fun _ => rfl)
      obtain ⟨e, red, p, S⟩ := f
      cases red with
      | false =>
          refine ⟨m₁, _, run₁, ⟨at₁.top, ?_, ?_, extremes⟩, leafOrder true⟩
          · exact (redBlack_plug _ _).mpr
              ⟨leafOk, ⟨by simp, okS, above⟩, 0, leafFlat, balS, heights⟩
          · rw [leafOrder true]
            exact sorted
      | true =>
          have short := length_le_size_plug (⟨e, true, p, S⟩ :: up) .nil
          obtain ⟨m', run, repaired⟩ :=
            rbTreeInsertRebalance_spec at₁ ⟨leafOk, leafFlat⟩
              ⟨(redF rfl).2, okS, balS⟩ above heights
              (show up.length ≤ fuel by simp only [List.length_cons] at short; omega)
          rw [leafOrder true] at repaired
          obtain ⟨T', stored, elements⟩ := repaired.stored (leafOrder true) sorted extremes
          exact ⟨m', T', run₁.trans run, stored, elements⟩

/-- `rb_tree_insert_node` of a node outside the tree: an equal stored object is returned
and nothing changes, otherwise exactly the new node is added.
-/
theorem Stored.insert {T : CTree Ptr} {s : Ptr} {fuel : Nat} (order : TotalOrder compareNodes)
    (h : Stored rbt compareNodes m T) (valid : Valid rbt s) (fresh : ¬ T.Has s)
    (enough : size T < fuel)
    : (∃ x, T.Has x
        ∧ compareNodes x s = 0
        ∧ rbTreeInsertNode rbt compareNodes fuel m s = some (m, x))
      ∨ (∀ x, T.Has x → compareNodes x s ≠ 0)
        ∧ ∃ m' T', rbTreeInsertNode rbt compareNodes fuel m s = some (m', s)
          ∧ Stored rbt compareNodes m' T'
          ∧ T'.traverse .right = insertSorted compareNodes s (T.traverse .right) := by
  have root : m.rbtRoot = rootPtr T := h.layout.context
  rcases rbTreeInsertNode_search_spec h.layout (order.probes h.sorted s) (by simp) enough with
    ⟨x, member, equal, found⟩ | ⟨ctx, focus, same, sides, found⟩
  · refine Or.inl ⟨x, member, equal, ?_⟩
    simp only [ctxFather_nil, ctxPosition_nil] at found
    simp [rbTreeInsertNode, root, found]
  · right
    simp only [ctxFather_nil, ctxPosition_nil] at found
    constructor
    · intro x member equal
      have place : x ∈ (plug ctx .nil).traverse .right := by
        rw [same]
        exact member
      simp only [traverse_plug, CTree.traverse_nil, List.nil_append, List.mem_append,
        List.mem_reverse] at place
      rcases place with place | place
      · simpa [facing, equal, Dir.other] using sides _ x place
      · simpa [facing, equal] using sides _ x place
    · obtain ⟨m', T', run, stored, traversal⟩ :=
        h.link order valid fresh focus same sides enough
      refine ⟨m', T', ?_, stored, traversal⟩
      simp [rbTreeInsertNode, root, found, run]

end BSDLibC.RbTree
