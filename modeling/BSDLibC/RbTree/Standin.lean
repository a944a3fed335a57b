import BSDLibC.RbTree.Insert
import BSDLibC.RbTree.RemovalRebalance

/-! `rb_tree_swap_prune_and_rebalance` up to its rebalancing: the neighbour of a node with two
children is cut out of its own place and put in the place of that node.
-/

namespace BSDLibC.RbTree
open BSDLibC.ColorTree

variable {rbt : Ptr} {m : Mem} {ctx : Context Ptr}

/-- `standin` takes over one son of `self`: the link and the son's father change. -/
theorem rbTreeSwapPruneAndRebalance_adopt_spec {p s : Ptr} {d : Dir} {O : CTree Ptr}
    (vp : Valid rbt p) (vs : Valid rbt s) (tree : TreeAt rbt m O p d)
    (link : (m.node p).rbNodes d = rootPtr O) (nonempty : O ≠ .nil) (distinct : O.Distinct)
    (fresh : ¬ O.Has s)
    : ∃ m', rbTreeSwapPruneAndRebalance.adopt rbt m p s d = some m'
        ∧ TreeAt rbt m' O s d
        ∧ (m'.node s).rbNodes = Function.update (m.node s).rbNodes d (rootPtr O)
        ∧ (∀ x, x ≠ s → ¬ O.Has x → m'.node x = m.node x)
        ∧ m'.rbtRoot = m.rbtRoot
        ∧ m'.rbtMinmax = m.rbtMinmax := by
  cases O with
  | nil => exact absurd rfl nonempty
  | node redO o kids =>
      rw [rootPtr_node] at link
      have vo := tree.1.valid
      have so : s ≠ o := tree.ne_rootPtr vs.ne_null fresh
      have written : ((m.putNodes rbt s d o).node s).rbNodes d = o := by
        simp [Mem.putNodes_rbNodes_self vs.ne_rbt]
      have other {x : Ptr} (xs : x ≠ s) (xo : x ≠ o)
          : ((m.putNodes rbt s d o).putInfo o (rbSetFather (m.node o).rbInfo s)).node x
            = m.node x := by
        rw [Mem.putInfo_node_ne xo, Mem.putNodes_node_ne xs]
      refine ⟨(m.putNodes rbt s d o).putInfo o (rbSetFather (m.node o).rbInfo s), ?_, ?_, ?_, ?_,
        Mem.putNodes_root_ne vs.ne_rbt, Mem.putNodes_minmax⟩
      · simp only [rbTreeSwapPruneAndRebalance.adopt, Mem.rbNodes_valid vp, link,
          Mem.setNodes_valid vs, Mem.rbNodes_valid vs, written, Mem.rbSetFather_valid vo,
          Mem.putNodes_rbInfo, Option.bind_eq_bind, Option.bind_some]
      · have ne {x : Ptr} (hx : (CTree.node redO o kids).Has x) : x ≠ s := by
          rintro rfl
          exact fresh hx
        refine tree.reparent distinct ?_ (fun x hx xo => other (ne hx) xo) ?_
        · intro x hx
          rw [Mem.putInfo_rbNodes, Mem.putNodes_node_ne (ne hx)]
        · intro _
          simp [Mem.putInfo_rbInfo_self, tree.1.position]
      · rw [Mem.putInfo_rbNodes, Mem.putNodes_rbNodes_self vs.ne_rbt, rootPtr_node]
      · intro x xs absent
        exact other xs (by rintro rfl; exact absent CTree.has_root)

/-- `standin` takes over colour, position and father of `self` and the link from above. -/
theorem rbTreeSwapPruneAndRebalance_replace_spec {p s : Ptr} {links : Dir → Ptr} {red : Bool}
    (rbtNe : rbt ≠ NULL) (context : CtxAt rbt m ctx p)
    (node : NodeAt rbt m p links (ctxFather rbt ctx) (ctxPosition ctx) red)
    (vs : Valid rbt s) (ps : p ≠ s) (outer : s ≠ ctxFather rbt ctx)
    (inner : m.rbtMinmax (ctxPosition ctx) ≠ p)
    : ∃ m', rbTreeSwapPruneAndRebalance.replace rbt m p s = some m'
        ∧ NodeAt rbt m' s (m.node s).rbNodes (ctxFather rbt ctx) (ctxPosition ctx) red
        ∧ (∀ x, x ≠ s → x ≠ p
            → m'.node x = (m.putNodes rbt (ctxFather rbt ctx) (ctxPosition ctx) s).node x)
        ∧ m'.rbtRoot = (m.putNodes rbt (ctxFather rbt ctx) (ctxPosition ctx) s).rbtRoot
        ∧ m'.rbtMinmax = m.rbtMinmax := by
  have vp := node.valid
  refine ⟨_, by
    simp only [rbTreeSwapPruneAndRebalance.replace, Mem.rbCopyProperties_valid vs vp,
      Mem.rbFather_valid vp, Mem.rbFather_valid vs, Mem.rbPosition_valid vs,
      Mem.rbPosition_valid vp, Mem.rbSetFather_valid vs, Mem.putInfo_putInfo,
      Mem.putInfo_rbInfo_self, Mem.putInfo_node_ne ps, Mem.putNodes_rbInfo, node.father,
      rbFather_setFather, rbPosition_setFather, rbPosition_copyProperties, node.position,
      CtxAt.setNodes rbtNe context, Mem.putInfo_minmax, Mem.putNodes_minmax, if_neg inner,
      Mem.rbSetFather_valid vp, Option.bind_eq_bind, Option.bind_some]; rfl,
    ⟨vs, ?_, ?_, ?_, ?_⟩, ?_, ?_, ?_⟩
  · rw [Mem.putInfo_rbNodes, Mem.putNodes_node_ne outer, Mem.putInfo_rbNodes]
  · simp [Mem.putInfo_node_ne ps.symm, Mem.putNodes_rbInfo, Mem.putInfo_rbInfo_self]
  · simp [Mem.putInfo_node_ne ps.symm, Mem.putNodes_rbInfo, Mem.putInfo_rbInfo_self,
      node.position]
  · simp [Mem.putInfo_node_ne ps.symm, Mem.putNodes_rbInfo, Mem.putInfo_rbInfo_self, node.red]
  · intro x xs xp
    rw [Mem.putInfo_node_ne xp]
    exact Mem.putNodes_congr (Mem.putInfo_node_ne xs)
  · exact Mem.putNodes_root_congr rfl
  · simp

/-- The last two steps together: `standin` takes over the son of `self` in direction
`w.other` and the place of `self`. The memory may already differ from `m₀` at the other son.
-/
theorem rbTreeSwapPruneAndRebalance_takeOver {m₀ : Mem} {p s : Ptr} {red : Bool} {w : Dir}
    {A O : CTree Ptr} (h : At rbt m₀ ctx (.node red p (pair w A O))) (nonempty : O ≠ .nil)
    (agree : ∀ x, x = p ∨ O.Has x ∨ Has ctx x → m.node x = m₀.node x)
    (root : m.rbtRoot = m₀.rbtRoot) (vs : Valid rbt s)
    (fresh : s ≠ p ∧ ¬ O.Has s ∧ ¬ Has ctx s) (inner : m.rbtMinmax (ctxPosition ctx) ≠ p)
    : ∃ m', (do
          let m ← rbTreeSwapPruneAndRebalance.adopt rbt m p s w.other
          rbTreeSwapPruneAndRebalance.replace rbt m p s) = some m'
        ∧ CtxAt rbt m' ctx s
        ∧ NodeAt rbt m' s (Function.update (m.node s).rbNodes w.other (rootPtr O))
            (ctxFather rbt ctx) (ctxPosition ctx) red
        ∧ TreeAt rbt m' O s w.other
        ∧ (∀ x, A.Has x → x ≠ s → m'.node x = m.node x)
        ∧ m'.rbtMinmax = m.rbtMinmax := by
  obtain ⟨sp, sO, sCtx⟩ := fresh
  obtain ⟨-, distinctO, pA, pO, apartA⟩ := CTree.distinct_pair.mp h.treeDistinct
  have outside {x : Ptr} (hx : Has ctx x) : x ≠ s ∧ x ≠ p ∧ ¬ O.Has x := by
    refine ⟨by rintro rfl; exact sCtx hx, h.ne_of_has hx CTree.has_root, fun inside => ?_⟩
    exact h.apart (CTree.has_pair.mpr (Or.inr (Or.inr inside))) hx
  have treeO : TreeAt rbt m₀ O p w.other := by simpa using h.tree.2 w.other
  have node : NodeAt rbt m p _ _ _ red := h.tree.1.congr (agree p (Or.inl rfl))
  obtain ⟨m₁, run₁, tree₁, links₁, rest₁, root₁, minmax₁⟩ :=
    rbTreeSwapPruneAndRebalance_adopt_spec node.valid vs
      (treeO.congr (fun x hx => agree x (Or.inr (Or.inl hx)))) (by simp [node.links]) nonempty
      distinctO sO
  have context₁ : CtxAt rbt m₁ ctx p := by
    refine (h.context.congr root (fun x hx => agree x (Or.inr (Or.inr hx)))).congr root₁ ?_
    intro x hx
    exact rest₁ x (outside hx).1 (outside hx).2.2
  have father {x : Ptr} (vx : Valid rbt x) (absent : ¬ Has ctx x) : x ≠ ctxFather rbt ctx := by
    rintro rfl
    exact absent (ctxFather_has vx.ne_rbt)
  obtain ⟨m₂, run₂, nodeS₂, rest₂, root₂, minmax₂⟩ :=
    rbTreeSwapPruneAndRebalance_replace_spec h.rbt_ne context₁ (node.congr (rest₁ p sp.symm pO))
      vs sp.symm (father vs sCtx) (minmax₁ ▸ inner)
  have inside {x : Ptr} (hx : (CTree.node red p (pair w A O)).Has x) (xs : x ≠ s) (xp : x ≠ p)
      : m₂.node x = m₁.node x := by
    rw [rest₂ x xs xp, Mem.putNodes_node_ne (h.ne_father hx)]
  refine ⟨m₂, by simp [run₁, run₂], ?_, links₁ ▸ nodeS₂, ?_, ?_, minmax₂.trans minmax₁⟩
  · refine (context₁.relink h.ctxDistinct s).congr root₂ (fun x hx => ?_)
    exact rest₂ x (outside hx).1 (outside hx).2.1
  · refine tree₁.congr (fun x hx => inside (CTree.has_pair.mpr (Or.inr (Or.inr hx))) ?_ ?_)
    · rintro rfl
      exact sO hx
    · rintro rfl
      exact pO hx
  · intro x hx xs
    rw [inside (CTree.has_pair.mpr (Or.inr (Or.inl hx))) xs (by rintro rfl; exact pA hx),
      rest₁ x xs (apartA x hx)]

/-- The neighbour is a son of the removed node. -/
theorem rbTreeSwapPruneAndRebalance_near {p s : Ptr} {red redS : Bool} {w : Dir}
    {son O : CTree Ptr}
    (h : At rbt m ctx (.node red p (pair w (.node redS s (pair w son .nil)) O)))
    (nonempty : O ≠ .nil) (inner : m.rbtMinmax (ctxPosition ctx) ≠ p)
    : ∃ m', (do
          let m ← rbTreeSwapPruneAndRebalance.adopt rbt m p s w.other
          rbTreeSwapPruneAndRebalance.replace rbt m p s) = some m'
        ∧ At rbt m' ctx (.node red s (pair w son O))
        ∧ m'.rbtMinmax = m.rbtMinmax := by
  obtain ⟨distinctS, -, pS, -, apartS⟩ := CTree.distinct_pair.mp h.treeDistinct
  obtain ⟨-, -, sSon, -, -⟩ := CTree.distinct_pair.mp distinctS
  have insideS : (CTree.node red p (pair w (.node redS s (pair w son .nil)) O)).Has s :=
    CTree.has_pair.mpr (Or.inr (Or.inl CTree.has_root))
  have lower := h.down_pair
  have fresh : s ≠ p ∧ ¬ O.Has s ∧ ¬ Has ctx s :=
    ⟨by rintro rfl; exact pS CTree.has_root, apartS s CTree.has_root, h.apart insideS⟩
  obtain ⟨m', run, context', node', treeO', rest, minmax⟩ :=
    rbTreeSwapPruneAndRebalance_takeOver h nonempty (fun _ _ => rfl) rfl lower.tree.1.valid fresh
      inner
  refine ⟨m', run, ⟨h.rbt_ne, context', ⟨?_, ?_⟩, ?_⟩, minmax⟩
  · rw [pair_comp]
    rw [lower.tree.1.links, pair_comp] at node'
    convert node' using 1
    funext e
    rcases w.eq_or_other e with rfl | rfl <;> simp
  · rw [Dir.forall_iff w, pair_self, pair_other]
    refine ⟨?_, treeO'⟩
    have treeSon : TreeAt rbt m son s w := by simpa using lower.tree.2 w
    refine treeSon.congr (fun x hx => rest x (CTree.has_pair.mpr (Or.inr (Or.inl hx))) ?_)
    rintro rfl
    exact sSon hx
  · rw [← CTree.nodup_traverse (d := w), traverse_plug]
    have nodup := CTree.nodup_traverse (d := w).mpr h.distinct
    rw [traverse_plug] at nodup
    refine nodup.sublist ((List.Sublist.append_right ?_ _).append_left _)
    simp

/-- The neighbour lies deeper and has been cut out already. -/
theorem rbTreeSwapPruneAndRebalance_far {p s : Ptr} {red : Bool} {w : Dir} {A O : CTree Ptr}
    (h : At rbt m ctx (.node red p (pair w A O))) (nonemptyA : A ≠ .nil)
    (nonempty : O ≠ .nil) (vs : Valid rbt s)
    (fresh : ¬ (plug ctx (.node red p (pair w A O))).Has s)
    (inner : m.rbtMinmax (ctxPosition ctx) ≠ p)
    : ∃ m', (do
          let m ← rbTreeSwapPruneAndRebalance.adopt rbt m p s w
          let m ← rbTreeSwapPruneAndRebalance.adopt rbt m p s w.other
          rbTreeSwapPruneAndRebalance.replace rbt m p s) = some m'
        ∧ At rbt m' ctx (.node red s (pair w A O))
        ∧ m'.rbtMinmax = m.rbtMinmax := by
  simp only [has_plug, CTree.has_pair, not_or] at fresh
  obtain ⟨⟨sp, sA, sO⟩, sCtx⟩ := fresh
  obtain ⟨distinctA, distinctO, pA, -, apartA⟩ := CTree.distinct_pair.mp h.treeDistinct
  have treeA : TreeAt rbt m A p w := by simpa using h.tree.2 w
  obtain ⟨m₁, run₁, tree₁, links₁, rest₁, root₁, minmax₁⟩ :=
    rbTreeSwapPruneAndRebalance_adopt_spec h.tree.1.valid vs treeA (by simp [h.tree.1.links])
      nonemptyA distinctA sA
  have agree : ∀ x, x = p ∨ O.Has x ∨ Has ctx x → m₁.node x = m.node x := by
    intro x place
    refine rest₁ x ?_ (fun hx => ?_)
    · rintro rfl
      tauto
    · rcases place with rfl | inside | outside
      · exact pA hx
      · exact apartA x hx inside
      · exact h.apart (CTree.has_pair.mpr (Or.inr (Or.inl hx))) outside
  obtain ⟨m', run, context', node', treeO', rest, minmax⟩ :=
    rbTreeSwapPruneAndRebalance_takeOver h nonempty agree root₁ vs ⟨sp, sO, sCtx⟩
      (minmax₁ ▸ inner)
  refine ⟨m', ?_, ⟨h.rbt_ne, context', ⟨?_, ?_⟩, ?_⟩, minmax.trans minmax₁⟩
  · simpa [run₁] using run
  · rw [pair_comp]
    rw [links₁] at node'
    convert node' using 1
    funext e
    rcases w.eq_or_other e with rfl | rfl <;> simp
  · rw [Dir.forall_iff w, pair_self, pair_other]
    refine ⟨tree₁.congr (fun x hx => rest x hx ?_), treeO'⟩
    rintro rfl
    exact sA hx
  · refine (distinct_plug _ _).mpr ⟨?_, h.ctxDistinct, ?_⟩
    · exact CTree.distinct_pair.mpr ⟨distinctA, distinctO, sA, sO, apartA⟩
    · intro x hx
      rcases CTree.has_pair.mp hx with rfl | inside
      · exact sCtx
      · exact h.apart (CTree.has_pair.mpr (Or.inr inside))

/-- A red node turned black. -/
def blacken : CTree Ptr → CTree Ptr
  | .nil => .nil
  | .node _ p kids => .node false p kids

theorem blacken_traverse (d : Dir) (T : CTree Ptr) : (blacken T).traverse d = T.traverse d := by
  cases T <;> rfl

/-- Cutting out the neighbour: its father's link leads to its son, which becomes black. -/
theorem At.sever {s t : Ptr} {redS : Bool} {w : Dir} {f : Frame Ptr}
    (h : At rbt m (f :: ctx) (.node redS s (pair w (.node true t (fun _ => .nil)) .nil)))
    : At rbt
        ((m.putInfo t (rbSetPosition (rbSetFather (RbTree.rbMarkBlack (m.node t).rbInfo) f.root)
          f.dir)).putNodes rbt f.root f.dir t)
        (f :: ctx) (.node false t (fun _ => .nil)) := by
  have nodeT := h.down_pair.tree.1
  have inside : (CTree.node redS s (pair w (.node true t (fun _ => .nil)) .nil)).Has t :=
    CTree.has_pair.mpr (Or.inr (Or.inl CTree.has_root))
  have father : t ≠ f.root := h.ne_father inside
  refine h.focusLeaf inside (Mem.putNodes_root_congr rfl) ?_ ⟨nodeT.valid, ?_, ?_, ?_, ?_⟩
  · intro x hx
    exact Mem.putNodes_congr (Mem.putInfo_node_ne (h.ne_of_has hx inside))
  · rw [Mem.putNodes_node_ne father, Mem.putInfo_rbNodes, nodeT.links]
    rfl
  all_goals simp [Mem.putNodes_rbInfo, Mem.putInfo_rbInfo_self]

/-- `rb_tree_swap_prune_and_rebalance` up to its rebalancing: the neighbour `s` of `p`, first
in its subtree, is cut out there and put in the place of `p`.
-/
theorem rbTreeSwapPruneAndRebalance_swap {p s : Ptr} {red redS : Bool} {w : Dir}
    {inner : Context Ptr} {son O : CTree Ptr}
    (h : At rbt m ctx (.node red p (pair w (plug inner (.node redS s (pair w son .nil))) O)))
    (dirs : ∀ f ∈ inner, f.dir = w.other)
    (leaf : son = .nil ∨ ∃ t, son = .node true t (fun _ => .nil)) (nonempty : O ≠ .nil)
    (uncached : m.rbtMinmax (ctxPosition ctx) ≠ p) (fuel : Nat)
    : ∃ m₁, rbTreeSwapPruneAndRebalance rbt fuel m p s
          = (if !redS && !son.isRed then
              rbTreeRemovalRebalance rbt fuel m₁
                (ctxFather rbt (inner ++ ⟨w, red, s, O⟩ :: ctx))
                (ctxPosition (inner ++ ⟨w, red, s, O⟩ :: ctx))
            else
              some m₁)
        ∧ At rbt m₁ (inner ++ ⟨w, red, s, O⟩ :: ctx) (blacken son)
        ∧ m₁.rbtMinmax = m.rbtMinmax := by
  have focus := h.down_pair.unplug
  have nodeS := focus.tree.1
  have redSon : m.rbRedP rbt (rootPtr son) = some son.isRed := focus.down_pair.tree.rbRedP
  have linkSon : (m.node s).rbNodes w = rootPtr son := by simp [nodeS.links]
  cases inner with
  | nil =>
      simp only [List.nil_append, plug_nil, ctxFather_cons, ctxPosition_cons] at *
      obtain ⟨m₁, mark, at₁, minmax₁⟩ : ∃ m₁,
          (if son.isRed = true then m.rbMarkBlack rbt (rootPtr son) else some m) = some m₁
          ∧ At rbt m₁ ctx (.node red p (pair w (.node redS s (pair w (blacken son) .nil)) O))
          ∧ m₁.rbtMinmax = m.rbtMinmax := by
        rcases leaf with rfl | ⟨t, rfl⟩
        · exact ⟨m, rfl, h, rfl⟩
        · obtain ⟨m₁, run₁, at₁, minmax₁⟩ := focus.rbMarkBlack_child
          exact ⟨m₁, by simpa using run₁, at₁.up, minmax₁⟩
      obtain ⟨m₂, run₂, at₂, minmax₂⟩ :=
        rbTreeSwapPruneAndRebalance_near at₁ nonempty (minmax₁ ▸ uncached)
      refine ⟨m₂, ?_, at₂.down_pair, minmax₂.trans minmax₁⟩
      obtain ⟨a, adopted, replaced⟩ := by
        simpa only [Option.bind_eq_bind, Option.bind_eq_some_iff] using run₂
      simp only [rbTreeSwapPruneAndRebalance, Mem.rbPosition_valid nodeS.valid,
        Mem.rbFather_valid nodeS.valid, Mem.rbRedP_valid nodeS.valid, nodeS.position, nodeS.father,
        nodeS.red, if_true, Mem.rbNodes_valid nodeS.valid, linkSon, redSon, Option.bind_eq_bind,
        Option.bind_some, Option.pure_def]
      cases colour : son.isRed with
      | true =>
          have mark : m.rbMarkBlack rbt (rootPtr son) = some m₁ := by simpa [colour] using mark
          simp only [if_true, mark, adopted, replaced, Option.bind_some, Bool.false_eq_true,
            if_false, Bool.not_true, Bool.and_false]
      | false =>
          obtain rfl : m = m₁ := by simpa [colour] using mark
          simp only [Bool.false_eq_true, if_false, adopted, replaced, Option.bind_some,
            Bool.not_false, Bool.and_true]
  | cons f rest =>
      have dir := dirs f (by simp)
      have other : f.dir.other = w := by rw [dir, Dir.other_other]
      have elder : f.root ≠ p := by
        rintro rfl
        refine (CTree.distinct_pair.mp h.treeDistinct).2.2.1 (has_plug.mpr (Or.inr ?_))
        exact has_cons.mpr (Or.inl rfl)
      have vf := focus.frame.1
      -- Memory and son after the cut, whether or not the neighbour has a son.
      obtain ⟨m₀, m₁, mark, cut, at₁, minmax₁⟩ : ∃ m₀ m₁,
          (if son.isRed = true then
            ((m.rbMarkBlack rbt (rootPtr son)).bind
              (fun m => m.rbSetFather rbt (rootPtr son) f.root)).bind
              (fun m => m.rbSetPosition rbt (rootPtr son) f.dir)
          else
            some m) = some m₀
          ∧ m₀.setNodes rbt f.root f.dir (rootPtr son) = some m₁
          ∧ At rbt m₁ ((f :: rest) ++ ⟨w, red, p, O⟩ :: ctx) (blacken son)
          ∧ m₁.rbtMinmax = m.rbtMinmax := by
        rcases leaf with rfl | ⟨t, rfl⟩
        · refine ⟨m, _, rfl, Mem.setNodes_valid vf _ _, ?_, Mem.putNodes_minmax⟩
          exact focus.replaceFocus (by simp [blacken]) (by simp [blacken]) rfl (fun _ _ => rfl)
            trivial
        · have vt := focus.down_pair.tree.1.valid
          refine ⟨_, _, ?_, Mem.setNodes_valid vf _ _, focus.sever, by simp⟩
          simp only [CTree.isRed_node, if_true, rootPtr_node, Mem.rbMarkBlack_valid vt,
            Mem.rbSetFather_valid vt, Mem.rbSetPosition_valid vt, Option.bind_some,
            Mem.putInfo_putInfo, Mem.putInfo_rbInfo_self]
      have fresh : ¬ (plug ctx (.node red p (pair w (plug (f :: rest) (blacken son)) O))).Has s := by
        have same : plug ctx (.node red p (pair w (plug (f :: rest) (blacken son)) O))
            = plug ((f :: rest) ++ ⟨w, red, p, O⟩ :: ctx) (blacken son) := by
          rw [plug_append]
          rfl
        rw [same, has_plug, not_or]
        refine ⟨?_, focus.apart CTree.has_root⟩
        obtain ⟨-, -, absent, -, -⟩ := CTree.distinct_pair.mp focus.treeDistinct
        rcases leaf with rfl | ⟨t, rfl⟩
        · simp [blacken]
        · exact absent
      have nonemptyA : plug (f :: rest) (blacken son) ≠ .nil := by
        intro empty
        have member : (plug (f :: rest) (blacken son)).Has f.root :=
          has_plug.mpr (Or.inr (has_cons.mpr (Or.inl rfl)))
        rw [empty] at member
        simp at member
      obtain ⟨m₂, run₂, at₂, minmax₂⟩ := rbTreeSwapPruneAndRebalance_far at₁.enclose.up nonemptyA
        nonempty nodeS.valid fresh (minmax₁ ▸ uncached)
      refine ⟨m₂, ?_, at₂.down_pair.unplug, minmax₂.trans minmax₁⟩
      rw [← dir] at run₂
      obtain ⟨a, adopted, b, adopted', replaced⟩ := by
        simpa only [Option.bind_eq_bind, Option.bind_eq_some_iff] using run₂
      simp only [rbTreeSwapPruneAndRebalance, Mem.rbPosition_valid nodeS.valid,
        Mem.rbFather_valid nodeS.valid, Mem.rbRedP_valid nodeS.valid, nodeS.position, nodeS.father,
        nodeS.red, List.cons_append, ctxFather_cons, ctxPosition_cons, if_neg elder, other,
        Mem.rbNodes_valid nodeS.valid, linkSon, redSon, Option.bind_eq_bind, Option.bind_some,
        Option.pure_def]
      cases colour : son.isRed with
      | true =>
          obtain ⟨x, ⟨y, black, father⟩, position⟩ := by
            simpa only [colour, if_true, Option.bind_eq_some_iff] using mark
          simp only [if_true, black, father, position, cut, adopted, adopted', replaced,
            Option.bind_some, Bool.false_eq_true, if_false, Bool.not_true, Bool.and_false]
      | false =>
          obtain rfl : m = m₀ := by simpa [colour] using mark
          simp only [Bool.false_eq_true, if_false, cut, adopted, adopted', replaced,
            Option.bind_some, Bool.not_false, Bool.and_true]

end BSDLibC.RbTree
