import BSDLibC.Rpst.Removal

/-! `rpst_insert_node1` on a subtree: it meets a node with the same coordinates and changes nothing,
or it brings the new node in.
-/

namespace BSDLibC.Rpst
open BSDLibC.ColorTree BSDLibC.LinkedTree BSDLibC.PriorityTree

variable {s s₁ s' : State} {w : Cursor Addr} {above : Option Addr} {a b c n cur : Addr} {d : Dir}
  {T : CTree Addr} {kids : Dir → CTree Addr} {red : Bool} {fuel k : Nat}

/-- The child to which a node belongs, with `k` bits left. -/
def State.side (s : State) (k : Nat) (a : Addr) : Dir := branch k (s.node a).nX

theorem SamePoints.side_eq (points : SamePoints s s') : s'.side = s.side := by
  funext k a
  rw [State.side, State.side, (points a).1]

/-- Two nodes with the same coordinates. -/
def State.Alike (s : State) (a b : Addr) : Prop :=
  (s.node a).nY = (s.node b).nY ∧ (s.node a).nX = (s.node b).nX

instance (s : State) (a b : Addr) : Decidable (s.Alike a b) := inferInstanceAs (Decidable (_ ∧ _))

-----------------------------------------------------------------------------------------
-- Swapping `cur` and `n`
-----------------------------------------------------------------------------------------

/-- The state, the node that is carried on and the one that stays. -/
def carry (s : State) (w : Cursor Addr) (n cur : Addr) : State × Addr × Addr :=
  if (s.node n).nY < (s.node cur).nY then (rpstInsertNode1.swap s w n cur, cur, n) else (s, n, cur)

theorem insertNext_some (fuel : Nat) (here : s.get w = some cur) (parent : (s.node cur).nParent = above)
    (differ : ¬ s.Alike n cur) (mask : UInt64)
    : rpstInsertNode1.next (fuel + 1) s w n mask above
      = (do
        let (s, n, cur) := carry s w n cur
        guard (s.get w = some cur)
        let idx := index (s.node n).nX mask
        let child := (s.node cur).nChildren idx
        guard (∀ c ∈ child, index (s.node c).nX mask = idx)
        guard (∀ c ∈ child, (s.node cur).nY ≤ (s.node c).nY)
        rpstInsertNode1.next fuel s (.child cur idx) n (mask >>> 1) (some cur)) := by
  rw [rpstInsertNode1.next, here]
  simp only [guard_of parent]
  exact if_neg differ

/-- The nodes before the pointer is written. -/
def swapped (s : State) (n cur : Addr) : State :=
  rpstUpdateParents ((s.setChildren n (s.node cur).nChildren).setParent n (s.node cur).nParent) n

theorem insertSwap_eq : rpstInsertNode1.swap s w n cur = (swapped s n cur).put (some n) w := by
  simp only [rpstInsertNode1.swap, swapped, setChildren_nParent]

theorem swapped_nChildren (s : State) (n cur b : Addr)
    : ((swapped s n cur).node b).nChildren
      = if b = n then (s.node cur).nChildren else (s.node b).nChildren := by
  simp only [swapped, updateParents_nChildren, setParent_nChildren, setChildren_nChildren]

theorem swapped_nParent_child {e : Dir} (child : (s.node cur).nChildren e = some b)
    : ((swapped s n cur).node b).nParent = some n := by
  rw [swapped, updateParents_nParent, if_pos]
  simp only [setParent_nChildren, setChildren_nChildren, if_true]
  cases e
  · exact Or.inl child
  · exact Or.inr child

theorem swapped_nParent_rest (notChild : ∀ e, (s.node cur).nChildren e ≠ some b)
    : ((swapped s n cur).node b).nParent = if b = n then (s.node cur).nParent else (s.node b).nParent := by
  rw [swapped, updateParents_nParent, if_neg, setParent_nParent, setChildren_nParent]
  simp only [setParent_nChildren, setChildren_nChildren, if_true]
  rintro (left | right)
  · exact notChild _ left
  · exact notChild _ right

theorem swapped_rest (s : State) (n cur : Addr)
    : SamePoints s (swapped s n cur)
      ∧ (swapped s n cur).tRoot = s.tRoot
      ∧ (swapped s n cur).tHeight = s.tHeight := by
  obtain ⟨points, root, height⟩ := updateParents_rest
    ((s.setChildren n (s.node cur).nChildren).setParent n (s.node cur).nParent) n
  exact ⟨((setChildren_points _ _ _).trans (setParent_points _ _ _)).trans points, root, height⟩

theorem put_node_congr (same : s₁.node b = s.node b) (value : Option Addr)
    : (s₁.put value w).node b = (s.put value w).node b := by
  cases w with
  | top => exact same
  | child a d =>
      by_cases here : b = a
      · subst here
        simp [State.put, same]
      · simp [State.put, here, same]

theorem put_tRoot_congr (same : s₁.tRoot = s.tRoot) (value : Option Addr)
    : (s₁.put value w).tRoot = (s.put value w).tRoot := by
  cases w with
  | top => rfl
  | child a d => exact same

/-- The new node, and those of a tree. -/
def Touches (n : Addr) (T : CTree Addr) (b : Addr) : Prop := b = n ∨ T.Has b

section
variable (lies : s.Lies above (.node red cur kids)) (distinct : (CTree.node red cur kids).Distinct)
  (new : ¬ (CTree.node red cur kids).Has n) (outside : Outside (Touches n (.node red cur kids)) w)
include lies distinct new outside

/-- The new node has come to the place of the root. -/
theorem insertSwap_spec
    : ((rpstInsertNode1.swap s w n cur).node n).nParent = above
      ∧ Loose (rpstInsertNode1.swap s w n cur) n kids
      ∧ Kept s (rpstInsertNode1.swap s w n cur) w (some n) (Touches n (.node red cur kids)) := by
  obtain ⟨parent, below⟩ := lies_tree_node.mp lies
  obtain ⟨points, root, height⟩ := swapped_rest s n cur
  rw [insertSwap_eq]
  have same {b : Addr} (inside : Touches n (.node red cur kids) b)
      : ((swapped s n cur).put (some n) w).node b = (swapped s n cur).node b :=
    outside.put_node _ _ inside
  have notChild {b : Addr} (away : ∀ e, ¬ (kids e).Has b) (e : Dir) : (s.node cur).nChildren e ≠ some b := by
    intro child
    exact away e (has_of_link ((below e).1.symm.trans child))
  refine ⟨?_, fun e => ⟨?_, ?_⟩, fun b away => put_node_congr ?_ _, put_tRoot_congr root _,
    (put_tHeight _ _ _).trans height, points.trans (put_points _ _ _)⟩
  · rw [same (Or.inl rfl), swapped_nParent_rest (notChild fun e inside => new (CTree.has_child inside)),
      if_pos rfl, parent]
  · rw [same (Or.inl rfl), swapped_nChildren, if_pos rfl, (below e).1]
  · -- the children of `cur` are below the new node now
    obtain ⟨near, -, -, -, apart⟩ := (CTree.distinct_node e).mp distinct
    have notNew {a : Addr} (inside : (kids e).Has a) : a ≠ n := by
      rintro rfl
      exact new (CTree.has_child inside)
    have touches {a : Addr} (inside : (kids e).Has a) : Touches n (.node red cur kids) a :=
      Or.inr (CTree.has_child inside)
    refine (below e).2.adopt near (fun a inside => ?_) (fun a top => ?_) (fun a inside notTop => ?_)
    · simp only [State.links, same (touches inside), swapped_nChildren, if_neg (notNew inside)]
    · rw [State.parent, same (touches (has_of_link top))]
      exact swapped_nParent_child ((below e).1.trans top)
    · rw [State.parent, same (touches inside), swapped_nParent_rest, if_neg (notNew inside)]
      · rfl
      · intro e' child
        rw [(below e').1] at child
        rcases e.eq_or_other e' with rfl | rfl
        · exact notTop child
        · exact apart a inside (has_of_link child)
  · -- nodes of other trees
    have notNew : b ≠ n := fun same => away (Or.inl same)
    have parents := swapped_nParent_rest (n := n)
      (notChild fun e inside => away (Or.inr (CTree.has_child inside)))
    have children := swapped_nChildren s n cur b
    rw [if_neg notNew] at parents children
    obtain ⟨sameX, sameY⟩ := points b
    generalize (swapped s n cur).node b = left at *
    generalize s.node b = right at *
    cases left
    cases right
    simp_all

/-- One turn of the loop: what stays has come to the pointer, with all the children. -/
theorem carry_spec (here : s.get w = some cur)
    : ∃ s₁ top carried, carry s w n cur = (s₁, carried, top)
      ∧ exchange s.rank n cur = (top, carried)
      ∧ (s₁.node top).nParent = above
      ∧ Loose s₁ top kids
      ∧ Kept s s₁ w (some top) (Touches n (.node red cur kids)) := by
  by_cases less : (s.node n).nY < (s.node cur).nY
  · have rank : s.rank n < s.rank cur := UInt64.lt_iff_toNat_lt.mp less
    exact ⟨_, n, cur, if_pos less, if_pos rank, insertSwap_spec lies distinct new outside⟩
  · have rank : ¬ s.rank n < s.rank cur := fun h => less (UInt64.lt_iff_toNat_lt.mpr h)
    refine ⟨s, cur, n, if_neg less, if_neg rank, (lies_tree_node.mp lies).1, (lies_tree_node.mp lies).2, ?_⟩
    have unchanged := put_get here
    refine ⟨fun b away => ?_, ?_, rfl, fun b => ⟨rfl, rfl⟩⟩ <;> rw [unchanged]

end

-----------------------------------------------------------------------------------------
-- The loop
-----------------------------------------------------------------------------------------

theorem SamePoints.alike (points : SamePoints s s') : s'.Alike a b ↔ s.Alike a b := by
  simp only [State.Alike, (points a).1, (points a).2, (points b).1, (points b).2]

/-- The assertions about the child hold, and the loop goes on below it. -/
theorem insertNext_step {top carried : Addr} (few : k ≤ 64) (here : s.get w = some cur)
    (parent : (s.node cur).nParent = above) (differ : ¬ s.Alike n cur)
    (step : carry s w n cur = (s₁, carried, top)) (reached : s₁.get w = some top)
    (loose : Loose s₁ top kids) (side : s₁.side k carried = d)
    (placed : ∀ b, (kids d).Has b → s₁.side k b = d)
    (heap : ∀ b, (kids d).Has b → s₁.rank top ≤ s₁.rank b)
    : rpstInsertNode1.next (fuel + 1) s w n (mask k) above
      = rpstInsertNode1.next fuel s₁ (.child top d) carried (mask (k - 1)) (some top) := by
  have idx : index (s₁.node carried).nX (mask k) = d := (index_mask few).trans side
  have bits : ∀ c ∈ (s₁.node top).nChildren d, index (s₁.node c).nX (mask k) = d := by
    intro c child
    exact (index_mask few).trans (placed c (has_of_link ((loose d).1.symm.trans child)))
  have order : ∀ c ∈ (s₁.node top).nChildren d, (s₁.node top).nY ≤ (s₁.node c).nY := by
    intro c child
    exact UInt64.le_iff_toNat_le.mpr (heap c (has_of_link ((loose d).1.symm.trans child)))
  rw [insertNext_some fuel here parent differ]
  simp only [step, idx, mask_shift few, guard_of reached, guard_of bits, guard_of order]
  rfl

/-- A node with the same coordinates is found, and nothing has changed. -/
theorem insertNext_alike (few : k ≤ 64) (here : s.get w = link T) (lies : s.Lies above T)
    (heap : HeapOrdered s.rank T) (placed : Placed s.side k T) (member : T.Has a) (alike : s.Alike n a)
    (unique : ∀ b, T.Has b → s.Alike n b → b = a) (enough : (T.traverse .right).length ≤ fuel)
    : rpstInsertNode1.next fuel s w n (mask k) above = some (some a, s) := by
  induction T generalizing w above fuel k with
  | nil => exact absurd member CTree.not_has_nil
  | node red cur kids ih =>
      obtain ⟨fuel, rfl⟩ : ∃ fuel', fuel = fuel' + 1 := by
        refine Nat.exists_eq_succ_of_ne_zero ?_
        simp at enough
        omega
      obtain ⟨parent, loose⟩ := lies_tree_node.mp lies
      by_cases found : s.Alike n cur
      · rw [← unique cur CTree.has_root found, rpstInsertNode1.next, here]
        simp only [link_node, guard_of parent]
        exact if_pos found
      · have notRoot : a ≠ cur := by
          rintro rfl
          exact found alike
        obtain ⟨d, inside⟩ : ∃ d, (kids d).Has a := by
          rcases (CTree.has_node .left).mp member with same | left | right
          · exact absurd same notRoot
          · exact ⟨_, left⟩
          · exact ⟨_, right⟩
        have stays : carry s w n cur = (s, n, cur) := by
          refine if_neg ?_
          rw [alike.1, UInt64.lt_iff_toNat_lt, not_lt]
          exact (heap d).1 a inside
        have side : s.side k n = d := by
          rw [State.side, alike.2]
          exact (placed d).1 a inside
        rw [insertNext_step few here parent found stays here loose side (placed d).1 (heap d).1]
        have shorter := length_child red cur kids d
        exact ih d (by omega) (loose d).1 (loose d).2 (heap d).2 (placed d).2 inside
          (fun b inner => unique b (CTree.has_child inner)) (by omega)

/-- At `NULL`. -/
theorem insertLeaf_spec (outside : Outside (Touches n .nil) w) (above : Option Addr)
    : Fills s (((s.setParent n above).setChildren n (fun _ => none)).put (some n) w) w above
        (.node false n (fun _ => .nil)) (Touches n .nil) := by
  have same := outside.put_node ((s.setParent n above).setChildren n (fun _ => none)) (some n)
    (Or.inl rfl : Touches n .nil n)
  refine ⟨lies_tree_node.mpr ⟨?_, fun d => ⟨?_, lies_nil⟩⟩, fun b away => put_node_congr ?_ _,
    ?_, put_tHeight _ _ _, ?_⟩
  · rw [same, setChildren_nParent, setParent_nParent, if_pos rfl]
  · rw [same, setChildren_nChildren, if_pos rfl, link_nil]
  · have notNew : b ≠ n := fun equal => away (Or.inl equal)
    simp [State.setChildren, State.setParent, notNew]
  · refine put_tRoot_congr ?_ _
    rfl
  · exact ((setParent_points _ _ _).trans (setChildren_points _ _ _)).trans (put_points _ _ _)

/-- The new node comes in. -/
theorem insertNext_new (few : k ≤ 64) (here : s.get w = link T) (lies : s.Lies above T)
    (distinct : T.Distinct) (new : ¬ T.Has n) (outside : Outside (Touches n T) w)
    (heap : HeapOrdered s.rank T) (placed : Placed s.side k T)
    (differ : ∀ a b, Touches n T a → Touches n T b → s.Alike a b → a = b)
    (enough : (T.traverse .right).length < fuel)
    : ∃ s', rpstInsertNode1.next fuel s w n (mask k) above = some (none, s')
      ∧ Fills s s' w above (insertAt s.rank s.side k n T) (Touches n T) := by
  induction T generalizing s w above fuel k n with
  | nil =>
      obtain ⟨fuel, rfl⟩ : ∃ fuel', fuel = fuel' + 1 := Nat.exists_eq_succ_of_ne_zero (by omega)
      refine ⟨((s.setParent n above).setChildren n (fun _ => none)).put (some n) w, ?_, ?_⟩
      · rw [rpstInsertNode1.next, here]
        rfl
      · exact insertLeaf_spec outside above
  | node red cur kids ih =>
      obtain ⟨fuel, rfl⟩ : ∃ fuel', fuel = fuel' + 1 := Nat.exists_eq_succ_of_ne_zero (by omega)
      obtain ⟨parent, -⟩ := lies_tree_node.mp lies
      have notAlike : ¬ s.Alike n cur := by
        intro alike
        rw [differ n cur (Or.inl rfl) (Or.inr CTree.has_root) alike] at new
        exact new CTree.has_root
      obtain ⟨s₁, top, carried, step, exchanged, parent₁, loose, kept⟩ :=
        carry_spec lies distinct new outside here
      have rank := kept.points.rank_eq
      have side := kept.points.side_eq
      have ne : n ≠ cur := by
        rintro rfl
        exact new CTree.has_root
      have absent (e : Dir) : ¬ (kids e).Has top ∧ ¬ (kids e).Has carried ∧ top ≠ carried := by
        have notCur := ((CTree.distinct_node e).mp distinct).2.2.1
        have notNew : ¬ (kids e).Has n := fun inside => new (CTree.has_child inside)
        rcases exchange_cases s.rank n cur with ⟨same, -⟩ | ⟨same, -⟩
        · cases exchanged.symm.trans same
          exact ⟨notNew, notCur, ne⟩
        · cases exchanged.symm.trans same
          exact ⟨notCur, notNew, ne.symm⟩
      have inTouches {b : Addr} (inside : b = top ∨ b = carried) : Touches n (.node red cur kids) b := by
        have both := (exchange_eq s.rank n cur b).mp (by rwa [exchanged])
        rcases both with rfl | rfl
        · exact Or.inl rfl
        · exact Or.inr CTree.has_root
      have topLe : s.rank top ≤ s.rank cur := by
        have le := exchange_fst_le s.rank n cur
        rwa [exchanged] at le
      set d := s.side k carried
      have below {b : Addr} (inside : Touches carried (kids d) b) : Touches n (.node red cur kids) b := by
        rcases inside with rfl | inside
        · exact inTouches (Or.inr rfl)
        · exact Or.inr (CTree.has_child inside)
      obtain ⟨near, -, -, -, apart⟩ := (CTree.distinct_node d).mp distinct
      rw [insertNext_step few here parent notAlike step (kept.get outside) loose (d := d) (by rw [side])
        (by rw [side]; exact (placed d).1)
        (by rw [rank]; exact fun b inside => topLe.trans ((heap d).1 b inside))]
      have shorter := length_child red cur kids d
      have notBelow : ¬ Touches carried (kids d) top := by
        rintro (same | inside)
        · exact (absent d).2.2 same
        · exact (absent d).1 inside
      have fewer : k - 1 ≤ 64 := by omega
      have enough' : ((kids d).traverse .right).length < fuel := by omega
      obtain ⟨s', run, fills⟩ := ih d (w := .child top d) fewer (loose d).1 (loose d).2 near (absent d).2.1 notBelow
        (by rw [rank]; exact (heap d).2) (by rw [side]; exact (placed d).2)
        (fun a b inA inB alike => differ a b (below inA) (below inB) (kept.points.alike.mp alike)) enough'
      rw [rank, side] at fills
      have rooted : Rooted s s₁ w above top d (kids d.other) (Touches n (.node red cur kids)) :=
        ⟨parent₁, (loose d.other).1, (loose d.other).2, kept⟩
      refine ⟨s', run, ?_⟩
      rw [insertAt_node, exchanged]
      refine rooted.fill fills red (fun b inside => below inside) (inTouches (Or.inl rfl)) notBelow
        (absent d.other).1 (fun b sibling inside => ?_)
      rcases inside with rfl | inside
      · exact (absent d.other).2.1 sibling
      · exact apart b inside sibling

end BSDLibC.Rpst
