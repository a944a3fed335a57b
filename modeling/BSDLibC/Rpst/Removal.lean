import BSDLibC.PriorityTree.Basic
import BSDLibC.Rpst.Memory

/-! `rpst_remove_node` takes the root off a subtree. -/

namespace BSDLibC.Rpst
open BSDLibC.ColorTree BSDLibC.LinkedTree BSDLibC.PriorityTree

variable {s s' : State} {w : Cursor Addr} {above : Option Addr} {a b c n cur : Addr} {d : Dir}
  {T : CTree Addr} {kids ckids : Dir → CTree Addr} {red : Bool} {ctx : Context Addr} {fuel : Nat}

def State.rank (s : State) (a : Addr) : Nat := (s.node a).nY.toNat

/-- The children of a node that is not in the tree itself. -/
def Loose (s : State) (cur : Addr) (kids : Dir → CTree Addr) : Prop :=
  ∀ d, (s.node cur).nChildren d = link (kids d) ∧ s.Lies (some cur) (kids d)

theorem link_some {T : CTree Addr} (h : link T = some a) : ∃ red kids, T = .node red a kids := by
  cases T with
  | nil => cases h
  | node red b kids =>
      cases h
      exact ⟨red, kids, rfl⟩

theorem has_of_link {T : CTree Addr} (h : link T = some a) : T.Has a := by
  obtain ⟨red, kids, rfl⟩ := link_some h
  exact CTree.has_root

theorem Loose.parent_of_link (loose : Loose s cur kids) (here : link (kids d) = some a)
    : (s.node a).nParent = some cur := by
  obtain ⟨red, akids, same⟩ := link_some here
  have below := (loose d).2
  rw [same] at below
  exact (lies_tree_node.mp below).1

/-- The loop over the two children finds the smaller one. -/
theorem select_eq (loose : Loose s cur kids)
    : (do
        let best ← rpstRemoveNodeAt.select s cur (none, .left) .left
        rpstRemoveNodeAt.select s cur best .right)
      = some (link (kids (chosen s.rank kids)), chosen s.rank kids) := by
  have parents (d : Dir) : ∀ a ∈ link (kids d), (s.node a).nParent = some cur :=
    fun a here => loose.parent_of_link here
  simp only [rpstRemoveNodeAt.select, (loose _).1, guard_of (parents _), chosen, State.rank,
    ← UInt64.lt_iff_toNat_lt,    Option.bind_eq_bind, Option.bind_some]
  cases left : link (kids .left) with
  | none => rfl
  | some a =>
      cases right : link (kids .right) with
      | none => simp [left]
      | some b =>
          by_cases less : (s.node b).nY < (s.node a).nY <;> simp [less, left, right]

theorem swap_nChildren (s : State) (above : Option Addr) (cur c b : Addr)
    : ((rpstRemoveNodeAt.swap s above cur c).node b).nChildren
      = if b = cur then (s.node c).nChildren
        else if b = c then (s.node cur).nChildren else (s.node b).nChildren := by
  simp only [rpstRemoveNodeAt.swap, setParent_nChildren, updateParents_nChildren, setChildren_nChildren]

theorem swap_rest (s : State) (above : Option Addr) (cur c : Addr)
    : SamePoints s (rpstRemoveNodeAt.swap s above cur c)
      ∧ (rpstRemoveNodeAt.swap s above cur c).tRoot = s.tRoot
      ∧ (rpstRemoveNodeAt.swap s above cur c).tHeight = s.tHeight := by
  let s₁ := (s.setChildren c (s.node cur).nChildren).setChildren cur (s.node c).nChildren
  obtain ⟨points₁, root₁, height₁⟩ := updateParents_rest s₁ cur
  obtain ⟨points₂, root₂, height₂⟩ := updateParents_rest (rpstUpdateParents s₁ cur) c
  have start := (setChildren_points s c (s.node cur).nChildren).trans
    (setChildren_points _ cur (s.node c).nChildren)
  exact ⟨((start.trans points₁).trans points₂).trans (setParent_points _ c above),
    root₂.trans root₁, height₂.trans height₁⟩

section
variable (s : State) (above : Option Addr) {cur c b : Addr} (ne : c ≠ cur)
include ne

/-- The children of both nodes get their new parents, and `selected` gets its own at the end. -/
theorem swap_nParent
    : ((rpstRemoveNodeAt.swap s above cur c).node b).nParent
      = if b = c then above
        else if (s.node cur).nChildren .left = some b ∨ (s.node cur).nChildren .right = some b then some c
        else if (s.node c).nChildren .left = some b ∨ (s.node c).nChildren .right = some b then some cur
        else (s.node b).nParent := by
  simp only [rpstRemoveNodeAt.swap, setParent_nParent, updateParents_nParent, updateParents_nChildren,
    setChildren_nChildren, setChildren_nParent, ne, if_true, if_false]

theorem swap_nParent_sibling (notC : b ≠ c) (child : (s.node cur).nChildren d = some b)
    : ((rpstRemoveNodeAt.swap s above cur c).node b).nParent = some c := by
  rw [swap_nParent s above ne, if_neg notC, if_pos]
  cases d
  · exact Or.inl child
  · exact Or.inr child

theorem swap_nParent_inner (notC : b ≠ c) (notSibling : ∀ d, (s.node cur).nChildren d ≠ some b)
    (child : (s.node c).nChildren d = some b)
    : ((rpstRemoveNodeAt.swap s above cur c).node b).nParent = some cur := by
  rw [swap_nParent s above ne, if_neg notC, if_neg, if_pos]
  · cases d
    · exact Or.inl child
    · exact Or.inr child
  · rintro (left | right)
    · exact notSibling _ left
    · exact notSibling _ right

theorem swap_nParent_rest (notC : b ≠ c) (notSibling : ∀ d, (s.node cur).nChildren d ≠ some b)
    (notInner : ∀ d, (s.node c).nChildren d ≠ some b)
    : ((rpstRemoveNodeAt.swap s above cur c).node b).nParent = (s.node b).nParent := by
  rw [swap_nParent s above ne, if_neg notC, if_neg, if_neg]
  · rintro (left | right)
    · exact notInner _ left
    · exact notInner _ right
  · rintro (left | right)
    · exact notSibling _ left
    · exact notSibling _ right

end

/-- One turn of the loop: the chosen child comes to the pointer, and `cur` gets its children. -/
theorem swap_spec (loose : Loose s cur kids) (distinct : (CTree.node red cur kids).Distinct)
    {red' : Bool} (here : kids d = .node red' c ckids)
    (outside : Outside (CTree.node red cur kids).Has w) (above : Option Addr)
    : Rooted s (rpstRemoveNodeAt.swap (s.put (some c) w) above cur c) w above c d (kids d.other)
        (CTree.node red cur kids).Has
      ∧ Loose (rpstRemoveNodeAt.swap (s.put (some c) w) above cur c) cur ckids := by
  obtain ⟨near, far, notNear, notFar, apart⟩ := (CTree.distinct_node d).mp distinct
  have below := (loose d).2
  rw [here] at near notNear apart below
  have inner := (lies_tree_node.mp below).2
  have atC {b : Addr} (inside : (CTree.node red' c ckids).Has b) : (CTree.node red cur kids).Has b := by
    rw [← here] at inside
    exact CTree.has_child inside
  have same {b : Addr} (inside : (CTree.node red cur kids).Has b) : (s.put (some c) w).node b = s.node b :=
    outside.put_node s (some c) inside
  have ne : c ≠ cur := by
    rintro rfl
    exact notNear CTree.has_root
  have kidsAt (e : Dir) : ((s.put (some c) w).node cur).nChildren e = link (kids e) := by
    rw [same CTree.has_root, (loose e).1]
  have ckidsAt (e : Dir) : ((s.put (some c) w).node c).nChildren e = link (ckids e) := by
    rw [same (atC CTree.has_root), (inner e).1]
  have linkKids {b : Addr} {e : Dir} (h : link (kids e) = some b) : b = c ∨ (kids d.other).Has b := by
    rcases d.eq_or_other e with rfl | rfl
    · rw [here] at h
      cases h
      exact Or.inl rfl
    · exact Or.inr (has_of_link h)
  have childrenAt {b : Addr} (notCur : b ≠ cur) (notC : b ≠ c)
      : ((rpstRemoveNodeAt.swap (s.put (some c) w) above cur c).node b).nChildren
        = ((s.put (some c) w).node b).nChildren := by
    rw [swap_nChildren, if_neg notCur, if_neg notC]
  obtain ⟨points, root, height⟩ := swap_rest (s.put (some c) w) above cur c
  refine ⟨⟨?_, ?_, ?_, ?_, root, height.trans (put_tHeight _ _ _), (put_points _ _ _).trans points⟩, fun e => ⟨?_, ?_⟩⟩
  · rw [swap_nParent _ _ ne, if_pos rfl]
  · rw [swap_nChildren, if_neg ne, if_pos rfl, kidsAt]
  · -- the sibling of the chosen child
    have away {a : Addr} (inside : (kids d.other).Has a) : a ≠ cur ∧ a ≠ c := by
      constructor
      · rintro rfl
        exact notFar inside
      · rintro rfl
        exact apart a CTree.has_root inside
    refine (loose d.other).2.adopt far (fun a inside => ?_) (fun a top => ?_) (fun a inside notTop => ?_)
    · obtain ⟨notCur, notC⟩ := away inside
      exact (childrenAt notCur notC).trans (congrArg Node.nChildren (same (CTree.has_child inside)))
    · exact swap_nParent_sibling _ _ ne (away (has_of_link top)).2 ((kidsAt d.other).trans top)
    · obtain ⟨-, notC⟩ := away inside
      refine (swap_nParent_rest _ _ ne notC (fun e child => ?_) (fun e child => ?_)).trans
        (put_nParent _ _ _ _)
      · rw [kidsAt] at child
        rcases d.eq_or_other e with rfl | rfl
        · rw [here] at child
          cases child
          exact notC rfl
        · exact notTop child
      · rw [ckidsAt] at child
        exact apart a (CTree.has_child (has_of_link child)) inside
  · -- nodes of other trees
    intro b away
    have notC : b ≠ c := by
      rintro rfl
      exact away (atC CTree.has_root)
    have notCur : b ≠ cur := by
      rintro rfl
      exact away CTree.has_root
    have parents := swap_nParent_rest (s.put (some c) w) above ne notC
      (fun e child => away (CTree.has_child (has_of_link ((kidsAt e).symm.trans child))))
      (fun e child => away (atC (CTree.has_child (has_of_link ((ckidsAt e).symm.trans child)))))
    have children := childrenAt notCur notC
    obtain ⟨sameX, sameY⟩ := points b
    generalize (rpstRemoveNodeAt.swap (s.put (some c) w) above cur c).node b = left at *
    generalize (s.put (some c) w).node b = right at *
    cases left
    cases right
    simp_all
  · rw [swap_nChildren, if_pos rfl, ckidsAt]
  · -- the children that `cur` takes over
    obtain ⟨innerNear, -, notHere, -, innerApart⟩ := (CTree.distinct_node e).mp near
    have away {a : Addr} (inside : (ckids e).Has a) : a ≠ cur ∧ a ≠ c := by
      constructor
      · rintro rfl
        exact notNear (CTree.has_child inside)
      · rintro rfl
        exact notHere inside
    have notKid {a : Addr} (inside : (ckids e).Has a) (e' : Dir)
        : ((s.put (some c) w).node cur).nChildren e' ≠ some a := by
      intro child
      rcases linkKids ((kidsAt e').symm.trans child) with same | inSibling
      · exact (away inside).2 same
      · exact apart a (CTree.has_child inside) inSibling
    refine (inner e).2.adopt innerNear (fun a inside => ?_) (fun a top => ?_) (fun a inside notTop => ?_)
    · obtain ⟨notCur, notC⟩ := away inside
      exact (childrenAt notCur notC).trans (congrArg Node.nChildren (same (atC (CTree.has_child inside))))
    · have inside := has_of_link top
      exact swap_nParent_inner _ _ ne (away inside).2 (notKid inside) ((ckidsAt e).trans top)
    · refine (swap_nParent_rest _ _ ne (away inside).2 (notKid inside) (fun e' child => ?_)).trans
        (put_nParent _ _ _ _)
      rw [ckidsAt] at child
      rcases e.eq_or_other e' with rfl | rfl
      · exact notTop child
      · exact innerApart a inside (has_of_link child)

theorem next_eq (fuel : Nat) (loose : Loose s cur kids) (above : Option Addr) (w : Cursor Addr)
    : rpstRemoveNodeAt.next (fuel + 1) s above w cur
      = match link (kids (chosen s.rank kids)) with
        | none => some (s.put none w)
        | some c =>
            rpstRemoveNodeAt.next fuel (rpstRemoveNodeAt.swap (s.put (some c) w) above cur c) (some c)
              (.child c (chosen s.rank kids)) cur := by
  rw [rpstRemoveNodeAt.next, ← bind_assoc, select_eq loose]
  cases link (kids (chosen s.rank kids)) <;> rfl

theorem SamePoints.rank_eq (points : SamePoints s s') : s'.rank = s.rank := by
  funext a
  rw [State.rank, State.rank, (points a).2]

theorem length_child (red : Bool) (a : Addr) (kids : Dir → CTree Addr) (d : Dir)
    : ((kids d).traverse .right).length < ((CTree.node red a kids).traverse .right).length := by
  rw [CTree.traverse_node, List.length_append, List.length_cons]
  cases d <;> simp only [Dir.other] <;> omega

/-- Only the root is another one. -/
theorem distinct_root (distinct : (CTree.node red a kids).Distinct) (absent : ∀ d, ¬ (kids d).Has b)
    : (CTree.node red b kids).Distinct := by
  rw [CTree.distinct_node .left] at distinct ⊢
  obtain ⟨left, right, -, -, apart⟩ := distinct
  exact ⟨left, right, absent _, absent _, apart⟩

/-- The loop, on a tree of which the root is `cur` in place of the one that it is given with. -/
theorem removeNext_spec (whole : T = .node red a kids) (loose : Loose s cur kids)
    (distinct : (CTree.node red cur kids).Distinct) (outside : Outside (CTree.node red cur kids).Has w)
    (above : Option Addr) (enough : (T.traverse .right).length ≤ fuel)
    : ∃ s', rpstRemoveNodeAt.next fuel s above w cur = some s'
      ∧ Fills s s' w above (dropRoot s.rank T) (CTree.node red cur kids).Has := by
  induction T generalizing s w above fuel red a kids with
  | nil => cases whole
  | node red a kids ih =>
      cases whole
      obtain ⟨fuel, rfl⟩ : ∃ fuel', fuel = fuel' + 1 := by
        refine Nat.exists_eq_succ_of_ne_zero ?_
        simp at enough
        omega
      rw [next_eq fuel loose]
      rcases chosen_cases s.rank kids with ⟨here, -⟩ | ⟨red', c, ckids, here, -⟩
      · rw [dropRoot_nil here, here]
        exact ⟨s.put none w, rfl, lies_nil, fun b away => rfl, rfl, put_tHeight _ _ _, put_points _ _ _⟩
      · obtain ⟨rooted, loose₁⟩ := swap_spec loose distinct here outside above
        have shorter := length_child red a kids (chosen s.rank kids)
        obtain ⟨near, -, notNear, notFar, apart⟩ := (CTree.distinct_node (chosen s.rank kids)).mp distinct
        rw [here] at near notNear apart
        have notInner (e : Dir) : ¬ (ckids e).Has c := ((CTree.distinct_node e).mp near).2.2.1
        have ne : c ≠ cur := by
          rintro rfl
          exact notNear CTree.has_root
        have notTop : ¬ (CTree.node red' cur ckids).Has c := by
          intro inside
          rcases (CTree.has_node .left).mp inside with same | left | right
          · exact ne same
          · exact notInner _ left
          · exact notInner _ right
        obtain ⟨s', run, fills⟩ := ih (chosen s.rank kids) here loose₁
          (distinct_root near fun e inside => notNear (CTree.has_child inside)) (w := .child c _) notTop
          (some c) (Nat.le_of_lt_succ (lt_of_lt_of_le shorter enough))
        rw [here, rooted.kept.points.rank_eq] at fills
        rw [here, dropRoot_node here]
        have inside (b : Addr) (member : (CTree.node red' cur ckids).Has b)
            : b = cur ∨ (kids (chosen s.rank kids)).Has b := by
          rw [here]
          rcases (CTree.has_node .left).mp member with same | left | right
          · exact Or.inl same
          · exact Or.inr (CTree.has_child left)
          · exact Or.inr (CTree.has_child right)
        refine ⟨s', run, rooted.fill fills red' (fun b member => ?_) ?_ notTop (apart c CTree.has_root) ?_⟩
        · rcases inside b member with rfl | member
          · exact CTree.has_root
          · exact CTree.has_child member
        · refine CTree.has_child (d := chosen s.rank kids) ?_
          rw [here]
          exact CTree.has_root
        · intro b sibling member
          rcases inside b member with rfl | member
          · exact notFar sibling
          · rw [here] at member
            exact apart b member sibling

/-- The pointer to a node is found through its parent. -/
theorem rpstFindPptr_eq (layout : At s.links ctx (.node red n kids))
    (parents : ParentsAt s.parent none (plug ctx (.node red n kids)))
    : rpstFindPptr s n = some (owner ctx, cursor ctx) := by
  obtain ⟨⟨parent, -⟩, -⟩ := parentsAt_plug.mp parents
  have stored : (s.node n).nParent = owner ctx := parent
  cases ctx with
  | nil => simp [rpstFindPptr, stored, owner]
  | cons f up =>
      obtain ⟨here, there, -, -⟩ := layout.context
      have apart := (distinct_plug _ _).mp layout.distinct
      have here' : (s.node f.root).nChildren f.dir = some n := here
      have there' : (s.node f.root).nChildren f.dir.other ≠ some n := by
        intro same
        have inSibling := has_of_link (there.symm.trans same)
        exact apart.2.2 n CTree.has_root (has_cons.mpr (Or.inr (Or.inl inSibling)))
      have index : (if (s.node f.root).nChildren .left = some n then Dir.left else Dir.right) = f.dir := by
        cases dir : f.dir with
        | left =>
            rw [dir] at here'
            exact if_pos here'
        | right =>
            rw [dir] at there'
            exact if_neg there'
      simp only [rpstFindPptr, stored, owner, index, guard_of here']
      rfl

/-- The memory after a subtree has been exchanged at a hole. -/
theorem Fills.whole {touched : Addr → Prop} (fills : Fills s s' (cursor ctx) (owner ctx) T touched)
    {hole : Option Addr} (context : CtxAt s.links ctx hole) (parents : ParentsCtx s.parent ctx)
    (distinct : (plug ctx T).Distinct) (apart : ∀ b, Has ctx b → ¬ touched b)
    : At s'.links [] (plug ctx T) ∧ ParentsAt s'.parent none (plug ctx T) := by
  obtain ⟨-, around, -⟩ := (distinct_plug ctx T).mp distinct
  constructor
  · refine At.whole ⟨?_, fills.lies.tree, distinct⟩
    have written := context.put around (link T)
    rw [← put_links] at written
    refine written.congr fills.kept.root fun b inside => ?_
    exact congrArg Node.nChildren (fills.kept.frame b (apart b inside))
  · refine parentsAt_plug.mpr ⟨fills.lies.parents, parents.congr fun b inside => ?_⟩
    rw [State.parent, fills.kept.frame b (apart b inside), put_nParent]
    rfl

/-- What `rpst_remove_node` does. -/
theorem rpstRemoveNode_spec (layout : At s.links [] (plug ctx (.node red n kids)))
    (parents : ParentsAt s.parent none (plug ctx (.node red n kids)))
    (enough : ((plug ctx (.node red n kids)).traverse .right).length ≤ fuel)
    : ∃ s', rpstRemoveNode fuel s n = some s'
      ∧ At s'.links [] (plug ctx (dropRoot s.rank (.node red n kids)))
      ∧ ParentsAt s'.parent none (plug ctx (dropRoot s.rank (.node red n kids)))
      ∧ s'.tHeight = s.tHeight ∧ SamePoints s s' := by
  have there := layout.enter
  obtain ⟨here, around⟩ := parentsAt_plug.mp parents
  obtain ⟨distinct, -, apart⟩ := (distinct_plug _ _).mp there.distinct
  have lies : s.Lies (owner ctx) (.node red n kids) := ⟨there.tree, here⟩
  have outside : Outside (CTree.node red n kids).Has (cursor ctx) := by
    cases ctx with
    | nil => trivial
    | cons f up => exact fun inside => apart _ inside (has_cons.mpr (Or.inl rfl))
  have shorter : ((CTree.node red n kids).traverse .right).length ≤ fuel := by
    refine le_trans ?_ enough
    rw [traverse_plug]
    simp only [List.length_append]
    omega
  obtain ⟨s', run, fills⟩ := removeNext_spec rfl (lies_tree_node.mp lies).2 distinct outside (owner ctx) shorter
  have distinct' : (plug ctx (dropRoot s.rank (.node red n kids))).Distinct :=
    (distinct_plug _ _).mpr ⟨distinct_dropRoot distinct, there.ctxDistinct,
      fun b inside => apart b (has_of_dropRoot inside)⟩
  obtain ⟨layout', parents'⟩ := fills.whole there.context around distinct' fun b inside member =>
    apart b member inside
  refine ⟨s', ?_, layout', parents', fills.kept.height, fills.kept.points⟩
  have stored : owner ctx = (s.node n).nParent := here.1.symm
  rw [rpstRemoveNode, rpstFindPptr_eq there parents]
  simp only [rpstRemoveNodeAt, Option.bind_eq_bind, Option.bind_some, guard_of stored]
  exact run

end BSDLibC.Rpst
