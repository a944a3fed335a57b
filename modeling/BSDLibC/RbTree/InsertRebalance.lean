import BSDLibC.ColorTree.Balance
import BSDLibC.RbTree.Rotation

/-! `rb_tree_insert_rebalance` repairs a red node under a red father. -/

namespace BSDLibC.RbTree
open BSDLibC.ColorTree

variable {rbt : Ptr} {m : Mem}

/-- A memory that holds a red-black tree with a given traversal and the old extremes. -/
structure Repaired (rbt : Ptr) (m : Mem) (elements : List Ptr) (m' : Mem) : Prop where
  tree : ∃ T, At rbt m' [] T ∧ T.RedBlack ∧ T.traverse .right = elements
  minmax : m'.rbtMinmax = m.rbtMinmax

theorem Repaired.of_focus {m' : Mem} {ctx : Context Ptr} {T : CTree Ptr}
    {elements : List Ptr} (h : At rbt m' ctx T) (balanced : (plug ctx T).RedBlack)
    (order : (plug ctx T).traverse .right = elements) (minmax : m'.rbtMinmax = m.rbtMinmax)
    : Repaired rbt m elements m' :=
  ⟨⟨_, h.top, balanced, order⟩, minmax⟩

/-- Case 3: one rotation at the grandfather ends the repair. -/
theorem rbTreeInsertRebalance_case3 {x g : Ptr} {w : Dir} {E B U : CTree Ptr}
    {up : Context Ptr} {n : Nat}
    (h : At rbt m up (.node false g (pair w (.node true x (pair w E B)) U)))
    (okE : E.NoRedRed ∧ E.Balanced n)
    (okB : B.isRed = false ∧ B.NoRedRed ∧ B.Balanced n)
    (okU : U.isRed = false ∧ U.NoRedRed ∧ U.Balanced n)
    (above : NoRedRedAt up false) (heights : BalancedAt up (n + 1))
    : ∃ m', (do
          let m ← rbTreeReparentNodes rbt m g w
          m.rbMarkBlack rbt m.rbtRoot) = some m'
        ∧ Repaired rbt m
            ((plug up (.node false g (pair w (.node true x (pair w E B)) U))).traverse .right)
            m' := by
  obtain ⟨m₁, run₁, at₁, minmax₁⟩ := rbTreeReparentNodes_spec h
  have balanced : (plug up (.node false x (pair w E (.node true g (pair w B U))))).RedBlack := by
    refine (redBlack_plug _ _).mpr ⟨?_, above, n + 1, ?_, heights⟩
    · rw [CTree.noRedRed_pair, CTree.noRedRed_pair]
      exact ⟨⟨by simp, okE.1⟩, by simp, ⟨fun _ => okB.1, okB.2.1⟩, fun _ => okU.1, okU.2.1⟩
    · exact CTree.balanced_pair.mpr
        ⟨okE.2, CTree.balanced_pair.mpr ⟨okB.2.2, okU.2.2⟩⟩
  have order : (plug up (.node false x (pair w E (.node true g (pair w B U))))).traverse .right
      = (plug up (.node false g (pair w (.node true x (pair w E B)) U))).traverse .right :=
    traverse_plug_congr w .right up (by simp)
  -- The root is black already, so the final marking changes nothing.
  have top := at₁.top
  generalize plug up (.node false x (pair w E (.node true g (pair w B U)))) = W at *
  cases W with
  | nil =>
      have nonempty := congrArg List.length order
      simp [traverse_plug] at nonempty
  | node red r kids =>
      have black : red = false := balanced.rootBlack
      subst black
      obtain ⟨m₂, run₂, at₂, minmax₂⟩ := top.rbMarkBlack
      refine ⟨m₂, ?_, ⟨_, at₂, balanced, order⟩, minmax₂.trans minmax₁⟩
      have root : m₁.rbtRoot = r := top.context
      simp only [run₁, Option.bind_eq_bind, Option.bind_some, root, run₂]

/-- Cases 2 and 3: at most two rotations repair a red pair under a black uncle. -/
theorem rbTreeInsertRebalance_rotate_spec {s f : Ptr} {e : Dir} {K : Dir → CTree Ptr}
    {S : CTree Ptr} {g : Frame Ptr} {up : Context Ptr} {n : Nat}
    (h : At rbt m (⟨e, true, f, S⟩ :: g :: up) (.node true s K))
    (okT : (CTree.node true s K).NoRedRed ∧ (CTree.node true s K).Balanced n)
    (okS : S.isRed = false ∧ S.NoRedRed ∧ S.Balanced n)
    (black : g.red = false)
    (okU : g.sibling.isRed = false ∧ g.sibling.NoRedRed ∧ g.sibling.Balanced n)
    (above : NoRedRedAt up false) (heights : BalancedAt up (n + 1))
    : ∃ m', rbTreeInsertRebalance.rotate rbt m s f g.root g.dir = some m'
        ∧ Repaired rbt m
            ((plug (⟨e, true, f, S⟩ :: g :: up) (.node true s K)).traverse .right) m' := by
  obtain ⟨dir, redG, r, U⟩ := g
  subst black
  obtain ⟨vf, near, far, -, -, -⟩ := h.frame
  rcases dir.eq_or_other e with rfl | rfl
  · -- Self lies on the outer side: the father's inner child is another node.
    have outer : s ≠ rootPtr S := h.siblings_ne (T := .node true s K) h.tree.1.valid.ne_null
    obtain ⟨m', run, repaired⟩ := rbTreeInsertRebalance_case3 h.up.up okT okS okU above heights
    refine ⟨m', ?_, repaired⟩
    simpa only [rbTreeInsertRebalance.rotate, Mem.rbNodes_valid vf, far, if_neg outer,
      Option.bind_eq_bind, Option.bind_some] using run
  · -- Self lies on the inner side: rotate at the father first.
    have kids := pair_eta dir.other K
    have focus := h.up
    simp only [Frame.fill] at focus
    rw [← kids] at focus
    obtain ⟨m₁, run₁, at₁, minmax₁⟩ := rbTreeReparentNodes_spec focus
    have outer := at₁.up
    simp only [Frame.fill, pair_swap] at outer
    rw [CTree.noRedRed_node, Dir.forall_iff dir, CTree.balanced_red, Dir.forall_iff dir] at okT
    obtain ⟨⟨⟨redN, okN⟩, redO, okO⟩, balN, balO⟩ := okT
    obtain ⟨m', run, ⟨W, atW, balancedW, orderW⟩, minmax⟩ :=
      rbTreeInsertRebalance_case3 outer
        ⟨by
          rw [CTree.noRedRed_pair]
          exact ⟨⟨fun _ => okS.1, okS.2.1⟩, fun _ => by simpa using redN rfl, by simpa using okN⟩,
          by
            rw [CTree.balanced_red, Dir.forall_iff dir, pair_self, pair_other, Dir.other_other]
            exact ⟨okS.2.2, balN⟩⟩
        ⟨redO rfl, okO, balO⟩ okU above heights
    refine ⟨m', ?_, ⟨W, atW, balancedW, orderW.trans ?_⟩, minmax.trans minmax₁⟩
    · have near' : (m.node f).rbNodes dir.other = s := near
      simpa only [rbTreeInsertRebalance.rotate, Mem.rbNodes_valid vf, near', if_true, run₁,
        Option.bind_eq_bind, Option.bind_some] using run
    · exact traverse_plug_congr dir .right up (by simp [Frame.fill, pair_swap])

/-- Case 1: father and uncle turn black. -/
theorem rbTreeInsertRebalance_case1 {f u g : Ptr} {red : Bool} {d : Dir}
    {KF KU : Dir → CTree Ptr} {up : Context Ptr}
    (h : At rbt m up (.node red g (pair d (.node true f KF) (.node true u KU))))
    : ∃ m₁, m.rbMarkBlack rbt u = some m₁
        ∧ ∃ m₂, m₁.rbMarkBlack rbt f = some m₂
            ∧ At rbt m₂ up (.node red g (pair d (.node false f KF) (.node false u KU)))
            ∧ m₂.rbtMinmax = m.rbtMinmax := by
  rw [← pair_swap] at h
  obtain ⟨m₁, run₁, at₁, minmax₁⟩ := h.rbMarkBlack_child
  rw [pair_swap] at at₁
  obtain ⟨m₂, run₂, at₂, minmax₂⟩ := at₁.rbMarkBlack_child
  exact ⟨m₁, run₁, m₂, run₂, at₂, minmax₂.trans minmax₁⟩

/-- The recoloured subtree is in order whatever colour its root takes. -/
theorem rbTreeInsertRebalance_case1_ok {f g s u : Ptr} {c : Bool} {d e : Dir}
    {K KU : Dir → CTree Ptr} {S : CTree Ptr} {n : Nat}
    (okT : (CTree.node true s K).NoRedRed ∧ (CTree.node true s K).Balanced n)
    (okS : S.NoRedRed ∧ S.Balanced n)
    (okU : (CTree.node true u KU).NoRedRed) (balU : (CTree.node true u KU).Balanced n)
    : (CTree.node c g (pair d (.node false f (pair e (.node true s K) S))
          (.node false u KU))).NoRedRed
      ∧ (CTree.node c g (pair d (.node false f (pair e (.node true s K) S))
          (.node false u KU))).Balanced (n + 1 + weight c) := by
  constructor
  · rw [CTree.noRedRed_pair, CTree.noRedRed_pair]
    refine ⟨⟨by simp, ⟨by simp, okT.1⟩, by simp, okS.1⟩, by simp, ?_⟩
    intro d
    exact ⟨by simp, (okU d).2⟩
  · rw [CTree.balanced_pair, CTree.balanced_black, CTree.balanced_black, Dir.forall_iff e,
      pair_self, pair_other]
    exact ⟨⟨okT.2, okS.2⟩, CTree.balanced_red.mp balU⟩

/-- The loop of `rb_tree_insert_rebalance` ends with a red-black tree. The invariant holds
a red node of black height `n` under a red father whose other conditions all hold; the
number of frames above the father bounds the number of passes.
-/
theorem rbTreeInsertRebalance_loop_spec {s f : Ptr} {e : Dir} {K : Dir → CTree Ptr}
    {S : CTree Ptr} {ctx : Context Ptr} {n fuel : Nat}
    (h : At rbt m (⟨e, true, f, S⟩ :: ctx) (.node true s K))
    (okT : (CTree.node true s K).NoRedRed ∧ (CTree.node true s K).Balanced n)
    (okS : S.isRed = false ∧ S.NoRedRed ∧ S.Balanced n)
    (above : NoRedRedAt ctx true) (heights : BalancedAt ctx n) (enough : ctx.length ≤ fuel)
    : ∃ m', rbTreeInsertRebalance.loop rbt fuel m s f = some m'
        ∧ Repaired rbt m
            ((plug (⟨e, true, f, S⟩ :: ctx) (.node true s K)).traverse .right) m' := by
  induction fuel generalizing m s f e K S ctx n with
  | zero =>
      have top : ctx = [] := List.length_eq_zero_iff.mp (Nat.le_zero.mp enough)
      subst top
      simp [NoRedRedAt] at above
  | succ fuel ih =>
      cases ctx with
      | nil => simp [NoRedRedAt] at above
      | cons g up =>
          obtain ⟨redG, okU, above⟩ := above
          have black : g.red = false := by
            cases hg : g.red with
            | false => rfl
            | true => simpa using (redG hg).1
          obtain ⟨dir, red, r, U⟩ := g
          subst black
          obtain ⟨balU, heights⟩ := heights
          obtain ⟨vf, near, far, father, -, -⟩ := h.frame
          obtain ⟨vg, nearG, farG, fatherG, -, -⟩ := h.up.frame
          have which : childIndex (decide (f = (m.node r).rbNodes .right)) = dir := by
            have apart := h.up.siblings_ne vf.ne_null
            cases dir with
            | left =>
                have right : (m.node r).rbNodes .right = rootPtr U := farG
                simp only [right, childIndex, decide_eq_true_eq]
                exact if_neg apart
            | right =>
                have right : (m.node r).rbNodes .right = f := nearG
                simp [right, childIndex]
          have uncle : m.rbRedP rbt (rootPtr U) = some U.isRed := h.up.context.2.1.rbRedP
          cases redU : U.isRed with
          | false =>
              obtain ⟨m', run, repaired⟩ := rbTreeInsertRebalance_rotate_spec h okT okS rfl
                ⟨redU, okU, balU⟩ above heights
              refine ⟨m', ?_, repaired⟩
              simpa only [rbTreeInsertRebalance.loop, Mem.rbFather_valid vf, father,
                Mem.rbNodes_valid vg, ctxFather, which, farG, uncle, redU, Bool.false_eq_true,
                if_false, Option.bind_eq_bind, Option.bind_some] using run
          | true =>
              cases U with
              | nil => simp at redU
              | node redU' u KU =>
              obtain rfl : redU' = true := redU
              obtain ⟨m₁, run₁, m₂, run₂, at₂, minmax₂⟩ := rbTreeInsertRebalance_case1 h.up.up
              have recoloured (c : Bool) := rbTreeInsertRebalance_case1_ok (c := c) (g := r)
                (f := f) (d := dir) (e := e) okT okS.2 okU balU
              have order (c : Bool) : (plug up (.node c r (pair dir (.node false f
                  (pair e (.node true s K) S)) (.node false u KU)))).traverse .right
                  = (plug (⟨e, true, f, S⟩ :: ⟨dir, false, r, .node true u KU⟩ :: up)
                      (.node true s K)).traverse .right :=
                traverse_plug_congr dir .right up (by simp [Frame.fill])
              have uncle' : m.rbRedP rbt u = some true := uncle
              simp only [rbTreeInsertRebalance.loop, Mem.rbFather_valid vf, father,
                Mem.rbNodes_valid vg, ctxFather, which, farG, uncle', if_true,
                Option.bind_eq_bind, Option.bind_some, rootPtr_node, run₁, run₂]
              have rootIff := at₂.root_iff vg.ne_null
              rw [rootPtr_node] at rootIff
              cases up with
              | nil =>
                  -- The grandfather is the root and stays black.
                  refine ⟨m₂, by rw [if_pos (rootIff.mpr rfl)]; rfl, ?_⟩
                  refine Repaired.of_focus at₂ ?_ (order false) minmax₂
                  exact ⟨rfl, (recoloured false).1, _, (recoloured false).2⟩
              | cons g' up' =>
                  rw [if_neg (by simp [rootIff])]
                  obtain ⟨m₃, run₃, at₃, minmax₃⟩ := at₂.rbMarkRed
                  obtain ⟨vg', -, -, -, -, redG'⟩ := at₃.frame
                  have father' := at₃.tree.1.father
                  simp only [run₃, Option.bind_some, Mem.rbFather_valid vg, father', ctxFather,
                    Mem.rbRedP_valid vg', redG']
                  obtain ⟨dir', red', r', U'⟩ := g'
                  obtain ⟨okU', okS', above'⟩ := above
                  obtain ⟨balU', heights'⟩ := heights
                  cases red' with
                  | false =>
                      refine ⟨m₃, by simp, ?_⟩
                      refine Repaired.of_focus at₃ ?_ (order true) (minmax₃.trans minmax₂)
                      refine (redBlack_plug _ _).mpr ⟨(recoloured true).1, ?_, _,
                        (recoloured true).2, balU', heights'⟩
                      exact ⟨by simp, okS', above'⟩
                  | true =>
                      -- The red pair has moved two frames up.
                      obtain ⟨m', run, repaired⟩ := ih at₃ (recoloured true)
                        ⟨(okU' rfl).2, okS', balU'⟩ above' heights' (by simp at enough; omega)
                      refine ⟨m', by simpa using run, ?_⟩
                      rw [order true] at repaired
                      exact ⟨repaired.tree, repaired.minmax.trans (minmax₃.trans minmax₂)⟩

/-- `rb_tree_insert_rebalance` on a new red node under a red father. -/
theorem rbTreeInsertRebalance_spec {s f : Ptr} {e : Dir} {K : Dir → CTree Ptr}
    {S : CTree Ptr} {ctx : Context Ptr} {n fuel : Nat}
    (h : At rbt m (⟨e, true, f, S⟩ :: ctx) (.node true s K))
    (okT : (CTree.node true s K).NoRedRed ∧ (CTree.node true s K).Balanced n)
    (okS : S.isRed = false ∧ S.NoRedRed ∧ S.Balanced n)
    (above : NoRedRedAt ctx true) (heights : BalancedAt ctx n) (enough : ctx.length ≤ fuel)
    : ∃ m', rbTreeInsertRebalance rbt fuel m s = some m'
        ∧ Repaired rbt m
            ((plug (⟨e, true, f, S⟩ :: ctx) (.node true s K)).traverse .right) m' := by
  obtain ⟨m', run, repaired⟩ := rbTreeInsertRebalance_loop_spec h okT okS above heights enough
  refine ⟨m', ?_, repaired⟩
  obtain ⟨vf, -, -, -, -, -⟩ := h.frame
  simpa only [rbTreeInsertRebalance, Mem.rbFather_valid h.tree.1.valid, h.tree.1.father,
    ctxFather, Mem.rbFather_valid vf, Option.bind_eq_bind, Option.bind_some] using run

end BSDLibC.RbTree
