import BSDLibC.RbTree.Insert
import BSDLibC.RbTree.RemovalRebalance

/-! `rb_tree_prune_node` unlinks a leaf and `rb_tree_prune_blackred_branch` splices out a node
whose only child is a red leaf.
-/

namespace BSDLibC.RbTree
open BSDLibC.ColorTree

variable {rbt : Ptr} {m m' : Mem} {ctx : Context Ptr}
variable {compareNodes : Ptr → Ptr → Int} {fuel : Nat}

/-- The cached extremes after `rb_tree_prune_node` unlinks the leaf `p`. -/
theorem extremes_prune {p : Ptr} {red : Bool} {f : Frame Ptr} {minmax minmax' : Dir → Ptr}
    (distinct : (plug (f :: ctx) (.node red p (fun _ => .nil))).Distinct)
    (old : Extremes minmax (plug (f :: ctx) (.node red p (fun _ => .nil))))
    (new : minmax'
      = if minmax f.dir = p then Function.update minmax f.dir f.root else minmax)
    : Extremes minmax' (plug (f :: ctx) .nil) := by
  obtain ⟨e, redF, q, S⟩ := f
  obtain ⟨-, -, apart⟩ := (distinct_plug _ _).mp distinct
  have absent := apart p CTree.has_root
  rw [Extremes, Dir.forall_iff e] at old ⊢
  simp only [traverse_plug, beyond_cons_same, beyond_cons_other, CTree.traverse_nil,
    CTree.traverse_node, Dir.other_other, List.nil_append, List.getLast?_append] at old ⊢
  obtain ⟨oldE, oldO⟩ := old
  constructor
  · intro x last
    cases hb : (beyond e ctx).getLast? with
    | none =>
        have here : minmax e = p := oldE p (by simp [hb])
        have next : q = x := by simpa [List.getLast?_eq_none_iff.mp hb] using last
        simp [new, here, next]
    | some y =>
        have kept : minmax e = y := oldE y (by simp [hb])
        have ne : minmax e ≠ p := by
          rintro rfl
          exact absent ⟨e, by simpa [kept] using List.mem_of_getLast? hb⟩
        have same : y = x := by simpa [hb] using last
        rw [new, if_neg ne, kept, same]
  · intro x last
    have kept : minmax e.other = x := oldO x (by simpa [List.getLast?_cons] using last)
    rw [new]
    split
    · simpa using kept
    · exact kept

/-- The memory in which `rb_tree_prune_node` has unlinked a leaf. -/
theorem At.unlink {red : Bool} {p : Ptr} (h : At rbt m ctx (.node red p (fun _ => .nil)))
    (info : BitVec 64)
    : At rbt
        ((m.putNodes rbt (ctxFather rbt ctx) (ctxPosition ctx) NULL).putInfo p info) ctx .nil := by
  refine h.replaceFocus (by simp) (by simp) rfl ?_ trivial
  intro x hx
  exact Mem.putInfo_node_ne (h.ne_of_has hx CTree.has_root)

/-- `rb_tree_prune_node` up to its rebalancing. -/
theorem rbTreePruneNode_unlink {red : Bool} {p : Ptr}
    (h : At rbt m ctx (.node red p (fun _ => .nil))) (fuel : Nat) (rebalance : Bool)
    : ∃ m₁, rbTreePruneNode rbt fuel m p rebalance
          = (if rebalance then
              rbTreeRemovalRebalance rbt fuel m₁ (ctxFather rbt ctx) (ctxPosition ctx)
            else
              some m₁)
        ∧ At rbt m₁ ctx .nil
        ∧ (ctx ≠ [] → m₁.rbtMinmax
            = if m.rbtMinmax (ctxPosition ctx) = p then
                Function.update m.rbtMinmax (ctxPosition ctx) (ctxFather rbt ctx)
              else
                m.rbtMinmax) := by
  have valid := h.tree.1.valid
  have left : (m.node p).rbNodes .left = NULL := by simp [h.tree.1.links]
  have root := h.root_iff (by simpa using valid.ne_null)
  rw [rootPtr_node] at root
  simp only [rbTreePruneNode, Mem.rbPosition_valid valid, Mem.rbFather_valid valid,
    h.tree.1.position, h.tree.1.father, Mem.rbNodes_valid valid, left,
    CtxAt.setNodes h.rbt_ne h.context, Option.bind_eq_bind, Option.bind_some,
    Mem.putNodes_rbInfo, Mem.putNodes_minmax, Mem.rbSetFather_valid valid, root]
  refine ⟨_, rfl, ?_, ?_⟩
  · refine (h.unlink (rbSetFather (m.node p).rbInfo NULL)).congr ?_ ?_
    all_goals
      split
      · split <;> simp [Mem.putInfo, Mem.putMinmax, Mem.putNodes_rbInfo]
      · simp [Mem.putInfo, Mem.putNodes_rbInfo]
  · intro nonroot
    simp only [nonroot, decide_false, Bool.false_eq_true, if_false]
    split <;> simp [Mem.putMinmax]

/-- Removing a leaf. -/
theorem Stored.prune {red : Bool} {p : Ptr}
    (h : Stored rbt compareNodes m (plug ctx (.node red p (fun _ => .nil))))
    (enough : ctx.length < fuel)
    : ∃ m' T', rbTreePruneNode rbt fuel m p (!red && !decide (m.rbtRoot = p)) = some m'
        ∧ Stored rbt compareNodes m' T'
        ∧ T'.traverse .right = (plug ctx .nil).traverse .right := by
  have focus : At rbt m ctx (.node red p (fun _ => .nil)) := by simpa using h.layout.unplug
  have root := focus.root_iff focus.tree.1.valid.ne_null
  rw [rootPtr_node] at root
  have sorted : ((plug ctx .nil).traverse .right).Pairwise (fun a b => compareNodes a b < 0) := by
    refine h.sorted.sublist ?_
    rw [traverse_plug, traverse_plug]
    exact (List.Sublist.append_right (by simp) _).append_left _
  obtain ⟨-, above, n, flat, heights⟩ := (redBlack_plug _ _).mp h.redBlack
  obtain ⟨k, rfl, below⟩ := flat
  obtain rfl : k = 0 := below .left
  obtain ⟨m₁, run, layout, minmax⟩ :=
    rbTreePruneNode_unlink focus fuel (!red && !decide (m.rbtRoot = p))
  cases ctx with
  | nil =>
      refine ⟨m₁, .nil, ?_, ⟨layout, ⟨rfl, trivial, 0, rfl⟩, sorted, by simp [Extremes]⟩, rfl⟩
      simpa [root] using run
  | cons f up =>
      have extremes := extremes_prune focus.distinct h.extremes (minmax (by simp))
      cases red with
      | true =>
          refine ⟨m₁, _, by simpa using run, ⟨layout.top, ?_, sorted, extremes⟩, rfl⟩
          exact (redBlack_plug _ _).mpr ⟨trivial, above.black, 0, rfl, heights⟩
      | false =>
          obtain ⟨redF, okS, above⟩ := above
          obtain ⟨balS, heights⟩ := heights
          obtain ⟨m', repair, repaired⟩ := rbTreeRemovalRebalance_spec layout
            ⟨rfl, trivial, rfl⟩ ⟨fun red => (redF red).2, okS, balS⟩ above heights
            (show up.length < fuel by simp at enough; omega)
          obtain ⟨T', stored, same⟩ := repaired.stored rfl sorted extremes
          refine ⟨m', T', ?_, stored, same⟩
          simpa [root, repair] using run

/-- The cached extremes after `rb_tree_prune_blackred_branch` puts the leaf `t` in the place of
its father `p`.
-/
theorem extremes_splice {p t : Ptr} {red redT : Bool} {w : Dir} {f : Frame Ptr}
    {minmax minmax' : Dir → Ptr}
    (distinct : (plug (f :: ctx)
      (.node red p (pair w (.node redT t (fun _ => .nil)) .nil))).Distinct)
    (old : Extremes minmax
      (plug (f :: ctx) (.node red p (pair w (.node redT t (fun _ => .nil)) .nil))))
    (new : minmax' = if minmax f.dir = p then Function.update minmax f.dir t else minmax)
    : Extremes minmax' (plug (f :: ctx) (.node red t (fun _ => .nil))) := by
  obtain ⟨e, redF, q, S⟩ := f
  obtain ⟨inner, -, apart⟩ := (distinct_plug _ _).mp distinct
  have absent := apart p CTree.has_root
  have ne : t ≠ p := by
    rintro rfl
    simp [CTree.distinct_pair, CTree.has_node .left] at inner
  rw [Extremes, Dir.forall_iff e] at old ⊢
  simp only [traverse_plug, beyond_cons_same, beyond_cons_other, CTree.traverse_nil,
    CTree.traverse_node, Dir.other_other, List.nil_append, List.getLast?_append] at old ⊢
  obtain ⟨oldE, oldO⟩ := old
  constructor
  · intro x last
    cases hb : (beyond e ctx).getLast? with
    | none =>
        have next : t = x := by simpa [hb] using last
        rcases e.eq_or_other w with rfl | rfl
        · have here : minmax w = t := oldE t (by simp [hb])
          rw [new, if_neg (here ▸ ne), here, next]
        · have here : minmax e = p := oldE p (by simp [hb, pair_swap])
          simp [new, here, next]
    | some y =>
        have kept : minmax e = y := oldE y (by simp [hb])
        have ne : minmax e ≠ p := by
          rintro rfl
          exact absent ⟨e, by simpa [kept] using List.mem_of_getLast? hb⟩
        have same : y = x := by simpa [hb] using last
        rw [new, if_neg ne, kept, same]
  · intro x last
    have kept : minmax e.other = x := oldO x (by simpa [List.getLast?_cons] using last)
    rw [new]
    split
    · simpa using kept
    · exact kept

/-- `rb_tree_prune_blackred_branch` replaces a node by its only child, a leaf. -/
theorem rbTreePruneBlackredBranch_spec {p t : Ptr} {red redT : Bool} {w : Dir}
    (h : At rbt m ctx (.node red p (pair w (.node redT t (fun _ => .nil)) .nil)))
    : ∃ m', rbTreePruneBlackredBranch rbt m p w = some m'
        ∧ At rbt m' ctx (.node red t (fun _ => .nil))
        ∧ m'.rbtMinmax
          = if ctx = [] then
              Function.update m.rbtMinmax w.other t
            else if m.rbtMinmax (ctxPosition ctx) = p then
              Function.update m.rbtMinmax (ctxPosition ctx) t
            else
              m.rbtMinmax := by
  have nodeT := h.down_pair.tree.1
  have vp := h.tree.1.valid
  have vt := nodeT.valid
  have link : (m.node p).rbNodes w = t := by simp [h.tree.1.links]
  have hp : p ≠ ctxFather rbt ctx := h.ne_father CTree.has_root
  have inside : (CTree.node red p (pair w (.node redT t (fun _ => .nil)) .nil)).Has t :=
    CTree.has_pair.mpr (Or.inr (Or.inl CTree.has_root))
  have ht : t ≠ ctxFather rbt ctx := h.ne_father inside
  have pt : p ≠ t := by
    rintro rfl
    have distinct := h.treeDistinct
    simp [CTree.distinct_pair, CTree.has_node .left] at distinct
  have root := h.root_iff (by simpa using vp.ne_null)
  rw [rootPtr_node] at root
  simp only [rbTreePruneBlackredBranch, Mem.rbFather_valid vp, Mem.rbNodes_valid vp,
    h.tree.1.father, link, Mem.rbCopyProperties_valid vt vp, Mem.rbPosition_valid vt,
    Mem.rbPosition_valid vp, Mem.putInfo_rbInfo_self, rbPosition_copyProperties,
    h.tree.1.position, CtxAt.setNodes h.rbt_ne h.context, Mem.rbSetFather_valid vt,
    Mem.putNodes_rbInfo, Mem.putInfo_node_ne pt, Option.bind_eq_bind, Option.bind_some,
    Mem.rbSetFather_valid vp, root, decide_eq_true_eq, Mem.putInfo_minmax, Mem.putNodes_minmax]
  -- The cache is no part of the layout.
  have cache {a : Mem} {e : Dir}
      : (if ctx = [] then a.putMinmax w.other t
          else if m.rbtMinmax e = p then a.putMinmax e t else a).node = a.node
        ∧ (if ctx = [] then a.putMinmax w.other t
          else if m.rbtMinmax e = p then a.putMinmax e t else a).rbtRoot = a.rbtRoot := by
    constructor
    all_goals
      split
      · rfl
      · split <;> rfl
  refine ⟨_, rfl, ?_, ?_⟩
  · refine h.focusLeaf inside ?_ ?_ ⟨vt, ?_, ?_, ?_, ?_⟩
    · rw [Mem.putInfo_root, cache.2]
      exact Mem.putNodes_root_congr rfl
    · intro x hx
      have xt : x ≠ t := h.ne_of_has hx inside
      rw [Mem.putInfo_node_ne (h.ne_of_has hx CTree.has_root), cache.1, Mem.putInfo_node_ne xt]
      exact Mem.putNodes_congr (Mem.putInfo_node_ne xt)
    · simp [Mem.putInfo_rbNodes, cache.1, Mem.putNodes_node_ne ht, nodeT.links]
    · simp [Mem.putInfo_node_ne pt.symm, cache.1, Mem.putInfo_rbInfo_self]
    · simp [Mem.putInfo_node_ne pt.symm, cache.1, Mem.putInfo_rbInfo_self, h.tree.1.position]
    · simp [Mem.putInfo_node_ne pt.symm, cache.1, Mem.putInfo_rbInfo_self, h.tree.1.red]
  · split
    · simp [Mem.putMinmax]
    · split <;> simp [Mem.putMinmax]

/-- Removing a node whose only child is a leaf. -/
theorem Stored.splice {red redT : Bool} {p t : Ptr} {w : Dir}
    (h : Stored rbt compareNodes m
      (plug ctx (.node red p (pair w (.node redT t (fun _ => .nil)) .nil))))
    : ∃ m' T', rbTreePruneBlackredBranch rbt m p w = some m'
        ∧ Stored rbt compareNodes m' T'
        ∧ T'.traverse .right = (plug ctx (.node redT t (fun _ => .nil))).traverse .right := by
  have focus : At rbt m ctx (.node red p (pair w (.node redT t (fun _ => .nil)) .nil)) := by
    simpa using h.layout.unplug
  obtain ⟨m', run, layout, minmax⟩ := rbTreePruneBlackredBranch_spec focus
  have order : (plug ctx (.node red t (fun _ => .nil))).traverse .right
      = (plug ctx (.node redT t (fun _ => .nil))).traverse .right :=
    traverse_plug_congr .right .right ctx rfl
  refine ⟨m', _, run, ⟨layout.top, ?_, ?_, ?_⟩, order⟩
  · obtain ⟨-, above, n, flat, heights⟩ := (redBlack_plug _ _).mp h.redBlack
    obtain ⟨k, rfl, below⟩ := flat
    obtain rfl : k = 0 := by simpa using below w.other
    refine (redBlack_plug _ _).mpr ⟨by simp [CTree.noRedRed_node], above, _, ?_, heights⟩
    exact CTree.balanced_node.mpr (fun _ => rfl)
  · refine h.sorted.sublist ?_
    rw [traverse_plug, traverse_plug]
    refine (List.Sublist.append_right ?_ _).append_left _
    simpa using CTree.traverse_child_sublist red p (pair w (.node redT t (fun _ => .nil)) .nil) w
      .right
  · cases ctx with
    | nil =>
        have old := h.extremes w t (by simp)
        rw [minmax, if_pos rfl, Extremes, Dir.forall_iff w]
        simp [old]
    | cons f up =>
        refine extremes_splice focus.distinct h.extremes ?_
        rw [minmax, if_neg (by simp)]
        rfl

end BSDLibC.RbTree
