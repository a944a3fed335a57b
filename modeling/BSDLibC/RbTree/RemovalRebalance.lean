import BSDLibC.RbTree.InsertRebalance

/-! `rb_tree_removal_rebalance` repairs a subtree that has become one black node short. -/

namespace BSDLibC.RbTree
open BSDLibC.ColorTree

variable {rbt : Ptr} {m : Mem} {up : Context Ptr}

theorem nephewsBlack_spec {red : Bool} {b father : Ptr} {K : Dir → CTree Ptr} {position : Dir}
    (h : TreeAt rbt m (.node red b K) father position) (d : Dir)
    : nephewsBlack rbt m b = some (!(K d).isRed && !(K d.other).isRed) := by
  have colour (e : Dir) := (h.2 e).rbRedP
  have step : nephewsBlack rbt m b = some (!(K .left).isRed && !(K .right).isRed) := by
    simp only [nephewsBlack, Mem.rbNodes_valid h.1.valid, h.1.links, colour,
      Option.bind_eq_bind, Option.bind_some, Option.pure_def]
    cases (K .left).isRed <;> simp
  rw [step]
  cases d with
  | left => rfl
  | right => rw [Bool.and_comm]; rfl

/-- What the terminal cases start from: the focus `X` under `parent` has black height `n`,
its black brother has height `n + 1`, and the frames above expect `n + 1` below `parent`.
-/
structure Deficit (rbt : Ptr) (m : Mem) (up : Context Ptr) (c : Bool) (parent b : Ptr)
    (which : Dir) (X : CTree Ptr) (K : Dir → CTree Ptr) (n : Nat)
    : Prop where
  layout : At rbt m up (.node c parent (pair which X (.node false b K)))
  okX : X.isRed = false ∧ X.NoRedRed ∧ X.Balanced n
  okK : ∀ d, (K d).NoRedRed ∧ (K d).Balanced n
  above : NoRedRedAt up c
  heights : BalancedAt up (n + 1 + weight c)

variable {c : Bool} {parent b : Ptr} {which : Dir} {X : CTree Ptr} {K : Dir → CTree Ptr} {n : Nat}

/-- The traversal that a repair must keep. -/
def Deficit.elements (_ : Deficit rbt m up c parent b which X K n) : List Ptr :=
  (plug up (.node c parent (pair which X (.node false b K)))).traverse .right

/-- Case 2b: father and brother exchange colours. -/
theorem Deficit.case2b (h : Deficit rbt m up true parent b which X K n)
    (black : ∀ d, (K d).isRed = false)
    : ∃ m', (do
          let m ← m.rbMarkBlack rbt parent
          m.rbMarkRed rbt b) = some m'
        ∧ Repaired rbt m h.elements m' := by
  obtain ⟨m₁, run₁, at₁, minmax₁⟩ := h.layout.rbMarkBlack
  rw [← pair_swap] at at₁
  obtain ⟨m₂, run₂, at₂, minmax₂⟩ := at₁.rbMarkRed_child
  rw [pair_swap] at at₂
  refine ⟨m₂, by simp [run₁, run₂], Repaired.of_focus at₂ ?_ ?_ (minmax₂.trans minmax₁)⟩
  · refine (redBlack_plug _ _).mpr ⟨?_, h.above.black, n + 1, ?_, by simpa using h.heights⟩
    · rw [CTree.noRedRed_pair]
      refine ⟨⟨by simp, h.okX.2.1⟩, by simp, fun d => ⟨fun _ => black d, (h.okK d).1⟩⟩
    · exact CTree.balanced_pair.mpr
        ⟨h.okX.2.2, CTree.balanced_red.mpr (fun d => (h.okK d).2)⟩
  · exact traverse_plug_congr which .right up (by simp)

/-- Case 4: a red far nephew is blackened and father and brother rotate. -/
theorem Deficit.case4 {f : Ptr} {KF : Dir → CTree Ptr}
    (h : Deficit rbt m up c parent b which X K n) (far : K which.other = .node true f KF)
    : ∃ m', (do
          let far ← m.rbNodes rbt b which.other
          let m ← m.rbMarkBlack rbt far
          rbTreeReparentNodes rbt m parent which.other) = some m'
        ∧ Repaired rbt m h.elements m' := by
  have focus := h.layout
  rw [← pair_swap, ← pair_eta which.other K, far, Dir.other_other] at focus
  have node := focus.down_pair
  have link : (m.node b).rbNodes which.other = f := by
    simp [node.tree.1.links]
  obtain ⟨m₁, run₁, at₁, minmax₁⟩ := node.rbMarkBlack_child
  obtain ⟨m₂, run₂, at₂, minmax₂⟩ := rbTreeReparentNodes_spec at₁.up
  refine ⟨m₂, ?_, Repaired.of_focus at₂ ?_ ?_ (minmax₂.trans minmax₁)⟩
  · simp only [Mem.rbNodes_valid node.tree.1.valid, link, run₁, run₂, Option.bind_eq_bind,
      Option.bind_some]
  · have okF := h.okK which.other
    rw [far, CTree.balanced_red] at okF
    refine (redBlack_plug _ _).mpr ⟨?_, h.above, n + 1 + weight c, ?_, h.heights⟩
    · rw [CTree.noRedRed_pair, CTree.noRedRed_pair]
      exact ⟨⟨fun _ => rfl, fun d => ⟨by simp, (okF.1 d).2⟩⟩, fun _ => rfl,
        ⟨by simp, (h.okK which).1⟩, by simp, h.okX.2.1⟩
    · refine CTree.balanced_pair.mpr ⟨CTree.balanced_black.mpr okF.2, ?_⟩
      exact CTree.balanced_pair.mpr ⟨(h.okK which).2, h.okX.2.2⟩
  · refine traverse_plug_congr which .right up ?_
    simp [pair_swap, far]

/-- Case 3: a red near nephew takes the brother's place and the brother becomes the red far
nephew.
-/
theorem Deficit.case3 {a : Ptr} {KA : Dir → CTree Ptr}
    (h : Deficit rbt m up c parent b which X K n) (near : K which = .node true a KA)
    (black : (K which.other).isRed = false)
    : ∃ m', rbTreeReparentNodes rbt m b which = some m'
        ∧ m'.rbtMinmax = m.rbtMinmax
        ∧ ∃ after : Deficit rbt m' up c parent a which X
            (pair which (KA which) (.node true b (pair which (KA which.other) (K which.other)))) n,
          after.elements = h.elements := by
  have focus := h.layout
  rw [← pair_swap] at focus
  have brother := focus.down_pair
  rw [← pair_eta which K, near, ← pair_eta which KA] at brother
  obtain ⟨m', run, at', minmax⟩ := rbTreeReparentNodes_spec brother
  have layout' := at'.up
  simp only [Frame.fill, pair_swap] at layout'
  have okA := h.okK which
  rw [near, CTree.noRedRed_node, CTree.balanced_red] at okA
  refine ⟨m', run, minmax, ⟨layout', h.okX, ?_, h.above, h.heights⟩, ?_⟩
  · rw [Dir.forall_iff which, pair_self, pair_other]
    refine ⟨⟨(okA.1 which).2, okA.2 which⟩, ?_, ?_⟩
    · rw [CTree.noRedRed_pair]
      exact ⟨okA.1 which.other, fun _ => black, (h.okK which.other).1⟩
    · exact CTree.balanced_pair.mpr ⟨okA.2 which.other, (h.okK which.other).2⟩
  · refine traverse_plug_congr which .right up ?_
    simp [near]

/-- Cases 2b, 3 and 4 end the repair unless father, brother and nephews are all black. -/
theorem Deficit.finish (h : Deficit rbt m up c parent b which X K n)
    (usable : c = true ∨ ∃ d, (K d).isRed = true)
    : ∃ m', rbTreeRemovalRebalance.finish rbt m parent b which = some m'
        ∧ Repaired rbt m h.elements m' := by
  have brother : TreeAt rbt m (.node false b K) parent which.other := by
    simpa using h.layout.tree.2 which.other
  have parentRed := h.layout.tree.rbRedP
  have brotherRed := brother.rbRedP
  have nephews := nephewsBlack_spec brother which
  have far := (brother.2 which.other).rbRedP
  have farLink : (m.node b).rbNodes which.other = rootPtr (K which.other) := by
    rw [brother.1.links]
  simp only [rootPtr_node, CTree.isRed_node] at parentRed brotherRed
  simp only [rbTreeRemovalRebalance.finish, parentRed, brotherRed, nephews, Option.bind_eq_bind,
    Option.bind_some, Bool.false_eq_true, if_false]
  cases redF : (K which.other).isRed with
  | true =>
      -- The far nephew is red, so case 2b does not apply and case 3 is skipped.
      obtain ⟨f, KF, farNode⟩ : ∃ f KF, K which.other = .node true f KF := by
        cases hk : K which.other with
        | nil => simp [hk] at redF
        | node red f KF => exact ⟨f, KF, by rw [show red = true by simpa [hk] using redF]⟩
      obtain ⟨m', run, repaired⟩ := h.case4 farNode
      refine ⟨m', ?_, repaired⟩
      simpa only [Bool.not_true, Bool.and_false, ite_self, Option.bind_some, Bool.false_eq_true, if_false,
        Mem.rbNodes_valid brother.1.valid, farLink, far, redF, if_true, Option.pure_def,
        Option.bind_eq_bind] using run
  | false =>
      cases redN : (K which).isRed with
      | false =>
          have black : ∀ d, (K d).isRed = false := (Dir.forall_iff which).mpr ⟨redN, redF⟩
          have red : c = true := by
            rcases usable with red | ⟨d, red⟩
            · exact red
            · simp [black d] at red
          subst red
          obtain ⟨m', run, repaired⟩ := h.case2b black
          refine ⟨m', ?_, repaired⟩
          simpa using run
      | true =>
          obtain ⟨a, KA, nearNode⟩ : ∃ a KA, K which = .node true a KA := by
            cases hk : K which with
            | nil => simp [hk] at redN
            | node red a KA => exact ⟨a, KA, by rw [show red = true by simpa [hk] using redN]⟩
          obtain ⟨m₁, run₁, minmax₁, after, same⟩ := h.case3 nearNode redF
          obtain ⟨m', run, repaired⟩ := after.case4 (pair_other _ _ _)
          refine ⟨m', ?_, same ▸ repaired.tree, repaired.minmax.trans minmax₁⟩
          have brother' : (m₁.node parent).rbNodes which.other = a := by
            simp [after.layout.tree.1.links]
          simpa only [Bool.not_true, Bool.false_and, ite_self, Option.bind_some,
            Bool.false_eq_true, if_false,
            Mem.rbNodes_valid brother.1.valid, farLink, far, redF, run₁,
            Mem.rbNodes_valid after.layout.tree.1.valid, brother', Option.pure_def,
            Option.bind_eq_bind] using run

/-- Case 1: a red brother changes places with the father; the new brother is black. -/
theorem rbTreeRemovalRebalance_case1
    (h : At rbt m up (.node false parent (pair which X (.node true b K))))
    (okX : X.isRed = false ∧ X.NoRedRed ∧ X.Balanced n)
    (okB : (CTree.node true b K).NoRedRed ∧ (CTree.node true b K).Balanced (n + 1))
    (above : NoRedRedAt up false) (heights : BalancedAt up (n + 1 + 1))
    : ∃ m', (do
          let m ← rbTreeReparentNodes rbt m parent which.other
          let brother ← m.rbNodes rbt parent which.other
          rbTreeRemovalRebalance.finish rbt m parent brother which) = some m'
        ∧ Repaired rbt m
            ((plug up (.node false parent (pair which X (.node true b K)))).traverse .right)
            m' := by
  have focus := h
  rw [← pair_swap, ← pair_eta which.other K, Dir.other_other] at focus
  obtain ⟨m₁, run₁, at₁, minmax₁⟩ := rbTreeReparentNodes_spec focus
  rw [← pair_swap, Dir.other_other] at at₁
  have lower := at₁.down_pair
  have tallK := CTree.balanced_red.mp okB.2
  obtain ⟨redS, s, KS, nephew⟩ := (tallK which).exists_root
  have black : redS = false := by
    have := (okB.1 which).1 rfl
    rwa [nephew] at this
  subst black
  rw [pair_swap, nephew] at lower
  have okS := okB.1 which
  have balS := tallK which
  rw [nephew, CTree.noRedRed_node] at okS
  rw [nephew, CTree.balanced_black] at balS
  have deficit : Deficit rbt m₁ (⟨which, false, b, K which.other⟩ :: up) true parent s which X
      KS n :=
    { layout := lower
      okX := okX
      okK := fun d => ⟨(okS.2 d).2, balS d⟩
      above := ⟨by simp, (okB.1 which.other).2, above⟩
      heights := ⟨tallK which.other, heights⟩ }
  obtain ⟨m', run, repaired⟩ := deficit.finish (Or.inl rfl)
  refine ⟨m', ?_, ?_, repaired.minmax.trans minmax₁⟩
  · have brother : (m₁.node parent).rbNodes which.other = s := by
      simp [lower.tree.1.links]
    simp only [run₁, Option.bind_eq_bind, Option.bind_some,
      Mem.rbNodes_valid lower.tree.1.valid, brother, run]
  · have same : deficit.elements
        = (plug up (.node false parent (pair which X (.node true b K)))).traverse .right :=
      traverse_plug_congr which .right up (by simp [Frame.fill, nephew])
    exact same ▸ repaired.tree

/-- The loop of `rb_tree_removal_rebalance` ends with a red-black tree. The invariant holds a
black focus one black node short of its brother; case 2a moves it one frame up.
-/
theorem rbTreeRemovalRebalance_spec {B : CTree Ptr} {fuel : Nat}
    (h : At rbt m (⟨which, c, parent, B⟩ :: up) X)
    (okX : X.isRed = false ∧ X.NoRedRed ∧ X.Balanced n)
    (okB : (c = true → B.isRed = false) ∧ B.NoRedRed ∧ B.Balanced (n + 1))
    (above : NoRedRedAt up c) (heights : BalancedAt up (n + 1 + weight c))
    (enough : up.length < fuel)
    : ∃ m', rbTreeRemovalRebalance rbt fuel m parent which = some m'
        ∧ Repaired rbt m ((plug (⟨which, c, parent, B⟩ :: up) X).traverse .right) m' := by
  induction fuel generalizing m up which c parent B X n with
  | zero => omega
  | succ fuel ih =>
      obtain ⟨redB, b, K, rfl⟩ := okB.2.2.exists_root
      obtain ⟨vp, near, far, -, -, parentRed⟩ := h.frame
      have childRed := h.tree.rbRedP
      have brother := h.context.2.1
      have brotherRed := brother.rbRedP
      have nephews := nephewsBlack_spec brother which
      simp only [rootPtr_node, CTree.isRed_node] at brotherRed far
      simp only [rbTreeRemovalRebalance, Mem.rbNodes_valid vp, near, far, childRed, okX.1,
        Mem.rbRedP_valid vp, parentRed, nephews, brotherRed, Option.bind_eq_bind,
        Option.bind_some, Bool.false_eq_true, if_false]
      obtain ⟨redC, okB, balB⟩ := okB
      cases c with
      | true =>
          obtain rfl : redB = false := redC rfl
          have deficit : Deficit rbt m up true parent b which X K n :=
            ⟨h.up, okX, fun d => ⟨(okB d).2, CTree.balanced_black.mp balB d⟩, above, heights⟩
          obtain ⟨m', run, repaired⟩ := deficit.finish (Or.inl rfl)
          exact ⟨m', by simpa using run, repaired⟩
      | false =>
          by_cases red : ∃ d, (K d).isRed = true
          · -- A red nephew: the brother is black and the repair ends here.
            have black : redB = false := by
              obtain ⟨d, red⟩ := red
              cases redB with
              | false => rfl
              | true => simp [(okB d).1 rfl] at red
            subst black
            have deficit : Deficit rbt m up false parent b which X K n :=
              ⟨h.up, okX, fun d => ⟨(okB d).2, CTree.balanced_black.mp balB d⟩, above, heights⟩
            obtain ⟨m', run, repaired⟩ := deficit.finish (Or.inr red)
            refine ⟨m', ?_, repaired⟩
            have some_red : (!(K which).isRed && !(K which.other).isRed) = false := by
              obtain ⟨d, red⟩ := red
              rcases which.eq_or_other d with rfl | rfl <;> simp [red]
            simpa [some_red] using run
          · simp only [not_exists, Bool.not_eq_true] at red
            simp only [red which, red which.other, Bool.not_false, Bool.and_self,
              Bool.false_eq_true, if_false, if_true]
            cases redB with
            | true =>
                obtain ⟨m', run, repaired⟩ :=
                  rbTreeRemovalRebalance_case1 h.up okX ⟨okB, balB⟩ above heights
                exact ⟨m', by simpa [Mem.rbNodes_valid vp] using run, repaired⟩
            | false =>
                -- Case 2a: the deficit moves to the father.
                have focus := h.up
                simp only [Frame.fill] at focus
                rw [← pair_swap] at focus
                obtain ⟨m₁, run₁, at₁, minmax₁⟩ := focus.rbMarkRed_child
                rw [pair_swap] at at₁
                have order : (plug up (.node false parent (pair which X (.node true b K)))).traverse
                      .right
                    = (plug (⟨which, false, parent, .node false b K⟩ :: up) X).traverse .right :=
                  traverse_plug_congr which .right up (by simp [Frame.fill])
                have okFocus : (CTree.node false parent (pair which X (.node true b K))).NoRedRed := by
                  rw [CTree.noRedRed_pair]
                  exact ⟨⟨by simp, okX.2.1⟩, by simp, fun d => ⟨fun _ => red d, (okB d).2⟩⟩
                have balFocus : (CTree.node false parent (pair which X (.node true b K))).Balanced
                    (n + 1) :=
                  CTree.balanced_pair.mpr
                    ⟨okX.2.2, CTree.balanced_red.mpr (CTree.balanced_black.mp balB)⟩
                have rootIff := at₁.root_iff vp.ne_null
                rw [rootPtr_node] at rootIff
                simp only [Bool.false_eq_true, if_false, run₁, Option.bind_some]
                cases up with
                | nil =>
                    refine ⟨m₁, by rw [if_pos (rootIff.mpr rfl)]; rfl, ?_⟩
                    exact Repaired.of_focus at₁ ⟨rfl, okFocus, n + 1, balFocus⟩ order minmax₁
                | cons f up' =>
                    rw [if_neg (by simp [rootIff])]
                    obtain ⟨dir, red', r, S⟩ := f
                    obtain ⟨redR, okS, above'⟩ := above
                    obtain ⟨balS, heights'⟩ := heights
                    obtain ⟨m', run, repaired⟩ := ih at₁ ⟨rfl, okFocus, balFocus⟩
                      ⟨fun red => (redR red).2, okS, balS⟩ above' heights'
                      (by simp at enough; omega)
                    refine ⟨m', ?_, ?_, repaired.minmax.trans minmax₁⟩
                    · simp only [Mem.rbPosition_valid vp, Mem.rbFather_valid vp,
                        at₁.tree.1.position, at₁.tree.1.father, ctxFather_cons, ctxPosition_cons,
                        Option.bind_some, run]
                    · rw [order] at repaired
                      exact repaired.tree

end BSDLibC.RbTree
