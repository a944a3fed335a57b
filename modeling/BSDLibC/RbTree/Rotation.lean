import BSDLibC.RbTree.Layout

/-! Recolouring and rotation at the focus. `rb_tree_reparent_nodes` lets two nodes exchange
places and colours, and the traversal order stays.
-/

namespace BSDLibC.RbTree
open BSDLibC.ColorTree

variable {rbt : Ptr} {m m' : Mem} {ctx : Context Ptr}

/-- Writing only the colour of the focused root recolours the tree there. -/
theorem At.putInfo_recolor {red red' : Bool} {p : Ptr} {kids : Dir → CTree Ptr}
    {info : BitVec 64} (h : At rbt m ctx (.node red p kids))
    (father : rbFather info = rbFather (m.node p).rbInfo)
    (position : rbPosition info = rbPosition (m.node p).rbInfo) (colour : rbRed info = red')
    : At rbt (m.putInfo p info) ctx (.node red' p kids) := by
  obtain ⟨rbtNe, context, ⟨node, below⟩, distinct⟩ := id h
  refine ⟨rbtNe, context.congr rfl ?_, ⟨⟨node.valid, ?_, ?_, ?_, ?_⟩, ?_⟩, ?_⟩
  · intro x hx
    exact Mem.putInfo_node_ne (h.ne_of_has hx CTree.has_root)
  · rw [Mem.putInfo_rbNodes, node.links]
  · rw [Mem.putInfo_rbInfo_self, father, node.father]
  · rw [Mem.putInfo_rbInfo_self, position, node.position]
  · rw [Mem.putInfo_rbInfo_self, colour]
  · intro d
    obtain ⟨-, -, absent, -, -⟩ := (CTree.distinct_node d).mp h.treeDistinct
    refine (below d).congr (fun x hx => Mem.putInfo_node_ne ?_)
    rintro rfl
    exact absent hx
  · exact distinct_plug_congr (T := .node red p kids) .right ctx rfl distinct

theorem At.rbMarkRed {red : Bool} {p : Ptr} {kids : Dir → CTree Ptr}
    (h : At rbt m ctx (.node red p kids))
    : ∃ m', m.rbMarkRed rbt p = some m'
        ∧ At rbt m' ctx (.node true p kids)
        ∧ m'.rbtMinmax = m.rbtMinmax :=
  ⟨_, Mem.rbMarkRed_valid h.tree.1.valid,
    h.putInfo_recolor (rbFather_markRed _) (rbPosition_markRed _) (rbRed_markRed _), rfl⟩

theorem At.rbMarkBlack {red : Bool} {p : Ptr} {kids : Dir → CTree Ptr}
    (h : At rbt m ctx (.node red p kids))
    : ∃ m', m.rbMarkBlack rbt p = some m'
        ∧ At rbt m' ctx (.node false p kids)
        ∧ m'.rbtMinmax = m.rbtMinmax :=
  ⟨_, Mem.rbMarkBlack_valid h.tree.1.valid,
    h.putInfo_recolor (rbFather_markBlack _) (rbPosition_markBlack _) (rbRed_markBlack _), rfl⟩

theorem At.rbMarkBlack_child {red redQ : Bool} {p q : Ptr} {d : Dir} {K : Dir → CTree Ptr}
    {Y : CTree Ptr} (h : At rbt m ctx (.node red p (pair d (.node redQ q K) Y)))
    : ∃ m', m.rbMarkBlack rbt q = some m'
        ∧ At rbt m' ctx (.node red p (pair d (.node false q K) Y))
        ∧ m'.rbtMinmax = m.rbtMinmax := by
  obtain ⟨m', run, focus, minmax⟩ := h.down_pair.rbMarkBlack
  exact ⟨m', run, focus.up, minmax⟩

theorem At.rbMarkRed_child {red redQ : Bool} {p q : Ptr} {d : Dir} {K : Dir → CTree Ptr}
    {Y : CTree Ptr} (h : At rbt m ctx (.node red p (pair d (.node redQ q K) Y)))
    : ∃ m', m.rbMarkRed rbt q = some m'
        ∧ At rbt m' ctx (.node red p (pair d (.node true q K) Y))
        ∧ m'.rbtMinmax = m.rbtMinmax := by
  obtain ⟨m', run, focus, minmax⟩ := h.down_pair.rbMarkRed
  exact ⟨m', run, focus.up, minmax⟩

/-- Giving a subtree a new father and position rewrites at most its root's word. -/
theorem TreeAt.reparent {T : CTree Ptr} {father father' : Ptr} {position position' : Dir}
    (h : TreeAt rbt m T father position) (distinct : T.Distinct)
    (links : ∀ x, T.Has x → (m'.node x).rbNodes = (m.node x).rbNodes)
    (rest : ∀ x, T.Has x → x ≠ rootPtr T → m'.node x = m.node x)
    (root : rootPtr T ≠ NULL
      → rbFather (m'.node (rootPtr T)).rbInfo = father'
        ∧ rbPosition (m'.node (rootPtr T)).rbInfo = position'
        ∧ rbRed (m'.node (rootPtr T)).rbInfo = rbRed (m.node (rootPtr T)).rbInfo)
    : TreeAt rbt m' T father' position' := by
  cases T with
  | nil => trivial
  | node red p kids =>
      obtain ⟨node, below⟩ := h
      obtain ⟨hf, hp, hr⟩ := root node.valid.ne_null
      refine ⟨⟨node.valid, ?_, hf, hp, hr.trans node.red⟩, ?_⟩
      · exact (links p CTree.has_root).trans node.links
      · intro d
        obtain ⟨-, -, absent, -, -⟩ := (CTree.distinct_node d).mp distinct
        refine (below d).congr (fun x hx => rest x (CTree.has_child hx) ?_)
        rintro rfl
        exact absent hx

/-- The last step of a rotation: reparent the moved subtree if there is one. -/
theorem adopt_spec {T : CTree Ptr} (m : Mem)
    (valid : rootPtr T ≠ NULL → Valid rbt (rootPtr T)) (father : Ptr) (position : Dir)
    : ∃ m',
        (if rootPtr T = NULL then
            pure m
          else
            (m.rbSetFather rbt (rootPtr T) father).bind
              (fun m => m.rbSetPosition rbt (rootPtr T) position))
          = some m'
        ∧ (∀ x, x ≠ rootPtr T → m'.node x = m.node x)
        ∧ (∀ x, (m'.node x).rbNodes = (m.node x).rbNodes)
        ∧ (rootPtr T ≠ NULL
            → rbFather (m'.node (rootPtr T)).rbInfo = father
              ∧ rbPosition (m'.node (rootPtr T)).rbInfo = position
              ∧ rbRed (m'.node (rootPtr T)).rbInfo = rbRed (m.node (rootPtr T)).rbInfo)
        ∧ m'.rbtRoot = m.rbtRoot
        ∧ m'.rbtMinmax = m.rbtMinmax := by
  by_cases null : rootPtr T = NULL
  · exact ⟨m, by simp [null], fun _ _ => rfl, fun _ => rfl, fun ne => absurd null ne, rfl, rfl⟩
  · have v := valid null
    refine ⟨_, by
      rw [if_neg null, Mem.rbSetFather_valid v, Option.bind_some, Mem.rbSetPosition_valid v],
      ?_, ?_, ?_, ?_, ?_⟩
    · intro x ne
      rw [Mem.putInfo_node_ne ne, Mem.putInfo_node_ne ne]
    · intro x
      rw [Mem.putInfo_rbNodes, Mem.putInfo_rbNodes]
    · intro _
      simp [Mem.putInfo_rbInfo_self]
    · rfl
    · rfl

/-- The two nodes after the exchange, and the memory around them: only the link of the
father above was written.
-/
theorem rbTreeReparentNodes_exchange_spec {red redQ : Bool} {p q : Ptr} {d : Dir}
    {A B E : CTree Ptr}
    (h : At rbt m ctx (.node red p (pair d (.node redQ q (pair d E B)) A)))
    : ∃ m', rbTreeReparentNodes.exchange rbt m p d = some m'
        ∧ NodeAt rbt m' q (pair d (rootPtr E) p) (ctxFather rbt ctx) (ctxPosition ctx) red
        ∧ NodeAt rbt m' p (pair d (rootPtr B) (rootPtr A)) q d.other redQ
        ∧ (∀ x, x ≠ p → x ≠ q
            → m'.node x = (m.putNodes rbt (ctxFather rbt ctx) (ctxPosition ctx) q).node x)
        ∧ m'.rbtRoot = (m.putNodes rbt (ctxFather rbt ctx) (ctxPosition ctx) q).rbtRoot
        ∧ m'.rbtMinmax = m.rbtMinmax := by
  obtain ⟨rbtNe, context, ⟨nodeP, belowP⟩, -⟩ := id h
  obtain ⟨nodeQ, -⟩ : TreeAt rbt m (.node redQ q (pair d E B)) p d := by
    simpa using belowP d
  have linkP : (m.node p).rbNodes d = q := by simp [nodeP.links]
  have linkB : (m.node q).rbNodes d.other = rootPtr B := by simp [nodeQ.links]
  have vp := nodeP.valid
  have vq := nodeQ.valid
  have hp := h.ne_father (x := p) CTree.has_root
  have hq := h.ne_father (x := q) (CTree.has_pair.mpr (by simp [CTree.has_pair]))
  have pq : p ≠ q := by
    have distinct := h.treeDistinct
    simp only [CTree.distinct_pair, CTree.has_pair, not_or] at distinct
    exact distinct.2.2.1.1
  refine ⟨_, by
    simp only [rbTreeReparentNodes.exchange, Mem.rbFather_valid vp, Mem.rbPosition_valid vp,
      Mem.rbNodes_valid vp, Mem.rbNodes_valid vq, Mem.setNodes_valid vp,
      Mem.setNodes_valid vq, Mem.rbSetFather_valid vp, Mem.rbSetFather_valid vq,
      Mem.rbSetPosition_valid vp, Mem.rbSwapProperties_valid vq vp,
      CtxAt.setNodes rbtNe context, Option.bind_eq_bind, Option.bind_some, nodeP.father,
      nodeP.position, linkP, linkB, Mem.putNodes_node_ne hq, Mem.putInfo_node_ne pq,
      Mem.putInfo_node_ne pq.symm, Mem.putNodes_rbInfo, Mem.putInfo_rbInfo_self]; rfl,
    ⟨vq, ?_, ?_, ?_, ?_⟩, ⟨vp, ?_, ?_, ?_, ?_⟩, ?_, ?_, ?_⟩
  · funext e
    simp only [Mem.putInfo_rbNodes, Mem.putNodes_rbNodes_self vq.ne_rbt,
      Mem.putNodes_node_ne pq.symm, Mem.putNodes_node_ne hq, nodeQ.links]
    rcases d.eq_or_other e with rfl | rfl <;> simp
  · simp [Mem.putInfo_node_ne pq.symm, Mem.putInfo_rbInfo_self]
  · simp [Mem.putInfo_node_ne pq.symm, Mem.putInfo_rbInfo_self, nodeP.position]
  · simp [Mem.putInfo_node_ne pq.symm, Mem.putInfo_rbInfo_self, nodeP.red]
  · funext e
    simp only [Mem.putInfo_rbNodes, Mem.putNodes_node_ne pq,
      Mem.putNodes_rbNodes_self vp.ne_rbt, Mem.putNodes_node_ne hp, nodeP.links]
    rcases d.eq_or_other e with rfl | rfl <;> simp
  · simp [Mem.putInfo_rbInfo_self]
  · simp [Mem.putInfo_rbInfo_self]
  · simp [Mem.putInfo_rbInfo_self, nodeQ.red]
  · intro x xp xq
    simp only [Mem.putInfo_node_ne xp, Mem.putInfo_node_ne xq, Mem.putNodes_node_ne xp,
      Mem.putNodes_node_ne xq]
  · simp only [Mem.putInfo_root, Mem.putNodes_root_ne vp.ne_rbt, Mem.putNodes_root_ne vq.ne_rbt]
  · simp only [Mem.putInfo_minmax, Mem.putNodes_minmax]

/-- A rotation in direction `d.other` at the focus. The two nodes exchange places and
colours, every other node keeps its place and colour.
-/
theorem rbTreeReparentNodes_spec {red redQ : Bool} {p q : Ptr} {d : Dir} {A B E : CTree Ptr}
    (h : At rbt m ctx (.node red p (pair d (.node redQ q (pair d E B)) A)))
    : ∃ m', rbTreeReparentNodes rbt m p d = some m'
        ∧ At rbt m' ctx (.node red q (pair d E (.node redQ p (pair d B A))))
        ∧ m'.rbtMinmax = m.rbtMinmax := by
  obtain ⟨rbtNe, context, ⟨nodeP, belowP⟩, -⟩ := id h
  obtain ⟨-, belowQ⟩ : TreeAt rbt m (.node redQ q (pair d E B)) p d := by
    simpa using belowP d
  have treeA : TreeAt rbt m A p d.other := by simpa using belowP d.other
  have treeE : TreeAt rbt m E q d := by simpa using belowQ d
  have treeB : TreeAt rbt m B q d.other := by simpa using belowQ d.other
  obtain ⟨⟨dE, dB, qE, qB, apartEB⟩, dA, ⟨pq, pE, pB⟩, pA, apartA⟩ := by
    simpa only [CTree.distinct_pair, CTree.has_pair, not_or] using h.treeDistinct
  obtain ⟨m₁, run₁, nodeQ₁, nodeP₁, rest₁, root₁, minmax₁⟩ :=
    rbTreeReparentNodes_exchange_spec h
  have linkB : (m₁.node p).rbNodes d = rootPtr B := by simp [nodeP₁.links]
  obtain ⟨m₂, run₂, rest₂, links₂, word₂, root₂, minmax₂⟩ :=
    adopt_spec (T := B) m₁ (fun ne => treeB.valid (treeB.has_rootPtr ne)) p d
  have run : rbTreeReparentNodes rbt m p d = some m₂ := by
    simpa only [rbTreeReparentNodes, run₁, Option.bind_eq_bind, Option.bind_some,
      Mem.rbNodes_valid nodeP₁.valid, linkB] using run₂
  -- Inside the focus, the subtrees see none of the writes to the two nodes.
  have inside {x : Ptr} (member : E.Has x ∨ B.Has x ∨ A.Has x)
      : m₁.node x = m.node x := by
    have xp : x ≠ p := by rintro rfl; tauto
    have xq : x ≠ q := by rintro rfl; exact member.elim qE (Or.rec qB (apartA _ (Or.inl rfl)))
    have father := h.ne_father (x := x) (by simp only [CTree.has_pair]; tauto)
    rw [rest₁ x xp xq, Mem.putNodes_node_ne father]
  have frameE : TreeAt rbt m₂ E q d := treeE.congr (fun x hx => by
    rw [rest₂ x (treeB.ne_rootPtr (treeE.valid hx).ne_null (apartEB x hx)),
      inside (Or.inl hx)])
  have frameA : TreeAt rbt m₂ A p d.other := treeA.congr (fun x hx => by
    rw [rest₂ x (treeB.ne_rootPtr (treeA.valid hx).ne_null (fun hb => apartA x (by simp [hb]) hx)),
      inside (Or.inr (Or.inr hx))])
  have moveB : TreeAt rbt m₂ B p d := by
    refine treeB.reparent dB ?_ ?_ ?_
    · intro x hx
      rw [links₂, inside (Or.inr (Or.inl hx))]
    · intro x hx ne
      rw [rest₂ x ne, inside (Or.inr (Or.inl hx))]
    · intro ne
      obtain ⟨father, position, red⟩ := word₂ ne
      rw [red, inside (Or.inr (Or.inl (treeB.has_rootPtr ne)))]
      exact ⟨father, position, rfl⟩
  have context₂ : CtxAt rbt m₂ ctx q := by
    refine (context.relink h.ctxDistinct q).congr (root₂.trans root₁) (fun x hx => ?_)
    have absent {y : Ptr} := h.ne_of_has (y := y) hx
    rw [rest₂ x (treeB.ne_rootPtr (context.valid hx).ne_null ?_), rest₁ x ?_ ?_]
    · exact absent CTree.has_root
    · exact absent (by simp [CTree.has_pair])
    · exact fun hb => absent (by simp [CTree.has_pair, hb]) rfl
  refine ⟨m₂, run, ⟨rbtNe, context₂, ⟨?_, ?_⟩, ?_⟩, minmax₂.trans minmax₁⟩
  · rw [pair_comp]
    exact nodeQ₁.congr (rest₂ q (treeB.ne_rootPtr nodeQ₁.valid.ne_null qB))
  · rw [Dir.forall_iff d, pair_self, pair_other]
    refine ⟨frameE, ?_, ?_⟩
    · rw [pair_comp]
      exact nodeP₁.congr (rest₂ p (treeB.ne_rootPtr nodeP₁.valid.ne_null pB))
    · rw [Dir.forall_iff d, pair_self, pair_other]
      exact ⟨moveB, frameA⟩
  · exact distinct_plug_congr d ctx (by simp) h.distinct

end BSDLibC.RbTree
