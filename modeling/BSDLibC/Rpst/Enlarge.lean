import BSDLibC.Rpst.Insertion

/-! The invariant of the tree, and `rpst_enlarge_tree` on trees that do not hold just one node. -/

namespace BSDLibC.Rpst
open BSDLibC.ColorTree BSDLibC.LinkedTree BSDLibC.PriorityTree

variable {s s₁ s' : State} {a b n r : Addr} {T : CTree Addr} {kids : Dir → CTree Addr} {red : Bool}
  {fuel turns : Nat} {idx : UInt64}

structure Holds (s : State) (T : CTree Addr) : Prop where
  layout : At s.links [] T
  parents : ParentsAt s.parent none T
  heap : HeapOrdered s.rank T
  placed : Placed s.side (s.tHeight + 1) T
  low : s.tHeight < 64
  fits : ∀ a, T.Has a → (s.node a).nX.toNat < 2 ^ (s.tHeight + 1)
  unique : ∀ a b, T.Has a → T.Has b → s.Alike a b → a = b

/-- The tree is a single node. -/
def Single (s : State) : Prop := ∃ r, s.tRoot = some r ∧ ∀ d, (s.node r).nChildren d = none

theorem Holds.root (h : Holds s T) : s.tRoot = link T := h.layout.context

theorem Holds.single_iff (h : Holds s T) : Single s ↔ ∃ red a, T = .node red a (fun _ => .nil) := by
  constructor
  · rintro ⟨r, root, children⟩
    obtain ⟨red, kids, rfl⟩ := link_some (h.root.symm.trans root)
    refine ⟨red, r, congrArg _ ?_⟩
    funext d
    exact link_eq_none.mp ((h.layout.tree d).1.symm.trans (children d))
  · rintro ⟨red, a, rfl⟩
    exact ⟨a, h.root, fun d => (h.layout.tree d).1⟩

theorem dropRoot_eq_nil {rank : Addr → Nat} (h : dropRoot rank (.node red a kids) = .nil)
    : kids = fun _ => .nil := by
  rcases chosen_cases rank kids with ⟨here, there⟩ | ⟨red', c, ckids, here, -⟩
  · funext d
    rcases (chosen rank kids).eq_or_other d with rfl | rfl
    · exact here
    · exact there
  · rw [dropRoot_node here] at h
    cases h

/-- The removed root comes back above all the others. -/
def raise (s : State) (n r : Addr) : State :=
  let s := s.setChildren n (fun _ => none)
  let s := s.put (some r) (.child n .left)
  let s := s.setParent r (some n)
  let s := s.put (some n) .top
  let s := s.setParent n none
  { s with tHeight := s.tHeight + 1 }

theorem enlargeStep_eq (root : s.tRoot = some n) (removed : rpstRemoveNode fuel s n = some s₁)
    : rpstEnlargeTree.step fuel s = s₁.tRoot.map (raise s₁ n) := by
  rw [rpstEnlargeTree.step, root]
  have same : (s₁.setChildren n (fun _ => none)).tRoot = s₁.tRoot := rfl
  have kept : ((s₁.setChildren n (fun _ => none)).put s₁.tRoot (.child n .left)).tRoot = s₁.tRoot := rfl
  simp only [removed, same, kept, Option.bind_eq_bind, Option.bind_some]
  cases s₁.tRoot <;> rfl

theorem raise_points (s : State) (n r : Addr) : SamePoints s (raise s n r) := by
  have first := (setChildren_points s n (fun _ => none)).trans (put_points _ (some r) (.child n .left))
  have second := first.trans (setParent_points _ r (some n))
  exact (second.trans (put_points _ (some n) .top)).trans (setParent_points _ n none)

/-- The memory after `raise`, when the node is not in the rest of the tree. -/
theorem raise_spec (layout : At s.links [] T) (parents : ParentsAt s.parent none T)
    (root : s.tRoot = some r) (absent : ¬ T.Has n)
    : At (raise s n r).links [] (.node false n (pair .left T .nil))
      ∧ ParentsAt (raise s n r).parent none (.node false n (pair .left T .nil)) := by
  have top : link T = some r := layout.context.symm.trans root
  have ne : r ≠ n := by
    rintro rfl
    exact absent (has_of_link top)
  have distinct : (CTree.node false n (pair .left T .nil)).Distinct := by
    rw [CTree.distinct_pair]
    exact ⟨layout.distinct, CTree.distinct_nil, absent, CTree.not_has_nil, fun x _ => CTree.not_has_nil⟩
  have childrenAt {b : Addr} (notN : b ≠ n) : ((raise s n r).node b).nChildren = (s.node b).nChildren := by
    by_cases here : b = r <;> simp [raise, State.setChildren, State.put, State.setParent, notN, here, ne]
  have parentAt {b : Addr} (notN : b ≠ n)
      : ((raise s n r).node b).nParent = if b = r then some n else (s.node b).nParent := by
    by_cases here : b = r <;> simp [raise, State.setChildren, State.put, State.setParent, notN, here, ne]
  have notN {b : Addr} (inside : T.Has b) : b ≠ n := by
    rintro rfl
    exact absent inside
  have whole : (raise s n r).Lies none (.node false n (pair .left T .nil)) := by
    refine lies_tree_node.mpr ⟨?_, (Dir.forall_iff .left).mpr ⟨?_, ?_⟩⟩
    · simp [raise, State.setParent]
    · rw [pair_self, top]
      have lies : s.Lies none T := ⟨layout.tree, parents⟩
      refine ⟨?_, lies.adopt layout.distinct (fun b inside => childrenAt (notN inside)) (fun b here => ?_)
        (fun b inside notTop => ?_)⟩
      · simp [raise, State.setChildren, State.put, State.setParent, Ne.symm ne]
      · refine (parentAt (notN (has_of_link here))).trans (if_pos ?_)
        exact Option.some.inj (here.symm.trans top)
      · refine (parentAt (notN inside)).trans (if_neg ?_)
        rintro rfl
        exact notTop top
    · rw [pair_other]
      refine ⟨?_, lies_nil⟩
      simp [raise, State.setChildren, State.put, State.setParent, Ne.symm ne, Dir.other]
  refine ⟨⟨?_, whole.tree, distinct⟩, whole.parents⟩
  simp [CtxAt, State.links, raise, State.put, State.setParent]

/-- Nothing above the bits of the height: the nodes belong to the left of a new root. -/
theorem Holds.enlarge (h : Holds s T) (bound : s.tHeight + 1 < 64)
    (whole : T = .node red n kids) (points : SamePoints s s') (height : s'.tHeight = s.tHeight + 1)
    (layout : At s'.links [] (.node false n (pair .left (dropRoot s.rank T) .nil)))
    (parents : ParentsAt s'.parent none (.node false n (pair .left (dropRoot s.rank T) .nil)))
    : Holds s' (.node false n (pair .left (dropRoot s.rank T) .nil))
      ∧ ∀ a, (CTree.node false n (pair .left (dropRoot s.rank T) .nil)).Has a ↔ T.Has a := by
  have members : ∀ a, (CTree.node false n (pair .left (dropRoot s.rank T) .nil)).Has a ↔ T.Has a := by
    intro a
    rw [whole, CTree.has_pair, has_dropRoot, CTree.has_node .left]
    simp [Dir.other]
  refine ⟨⟨layout, parents, ?_, ?_, by omega, fun a inside => ?_, fun a b inA inB alike => ?_⟩, members⟩
  · rw [points.rank_eq]
    refine (Dir.forall_iff .left).mpr ⟨?_, by simp [HeapOrdered]⟩
    rw [pair_self]
    refine ⟨fun b inside => ?_, heapOrdered_dropRoot h.heap⟩
    have heap := h.heap
    have member := has_of_dropRoot inside
    rw [whole] at heap member
    exact heap.root_le member
  · rw [points.side_eq, height]
    refine (Dir.forall_iff .left).mpr ⟨?_, by simp [Placed]⟩
    rw [pair_self]
    exact ⟨fun b inside => branch_of_lt (h.fits b (has_of_dropRoot inside)), placed_dropRoot h.placed⟩
  · rw [(points a).1, height]
    exact (h.fits a ((members a).mp inside)).trans (Nat.pow_lt_pow_right (by decide) (by omega))
  · exact h.unique a b ((members a).mp inA) ((members b).mp inB) (points.alike.mp alike)

/-- One turn of the loop. A tree with a single node has no other to put below its root. -/
theorem enlargeStep_spec (h : Holds s T) (bound : s.tHeight + 1 < 64)
    (enough : (T.traverse .right).length ≤ fuel)
    : (Single s → rpstEnlargeTree.step fuel s = none)
      ∧ (¬ Single s → ∃ s' T', rpstEnlargeTree.step fuel s = some s' ∧ Holds s' T'
        ∧ s'.tHeight = s.tHeight + 1 ∧ SamePoints s s' ∧ ∀ a, T'.Has a ↔ T.Has a) := by
  cases T with
  | nil =>
      have empty : s.tRoot = none := h.root
      constructor
      · rintro ⟨r, root, -⟩
        rw [empty] at root
        cases root
      · intro _
        refine ⟨{ s with tHeight := s.tHeight + 1 }, .nil, by rw [rpstEnlargeTree.step, empty]; rfl, ?_, rfl,
          fun b => ⟨rfl, rfl⟩, fun a => Iff.rfl⟩
        exact ⟨h.layout, trivial, trivial, trivial, bound, by simp, by simp⟩
  | node red n kids =>
      obtain ⟨s₁, removed, layout, parents, height, points⟩ :=
        @rpstRemoveNode_spec s n kids red [] fuel h.layout h.parents enough
      rw [plug_nil] at layout parents
      have step := enlargeStep_eq h.root removed
      have root₁ : s₁.tRoot = link (dropRoot s.rank (.node red n kids)) := layout.context
      have absent : ¬ (dropRoot s.rank (.node red n kids)).Has n := by
        rw [has_dropRoot]
        obtain ⟨-, -, left, right, -⟩ := (CTree.distinct_node .left).mp h.layout.distinct
        rintro (inside | inside)
        · exact left inside
        · exact right inside
      constructor
      · intro single
        obtain ⟨red', a, same⟩ := h.single_iff.mp single
        cases same
        rw [step, root₁]
        rfl
      · intro several
        cases rest : dropRoot s.rank (.node red n kids) with
        | nil =>
            refine absurd (h.single_iff.mpr ⟨red, n, ?_⟩) several
            rw [dropRoot_eq_nil rest]
        | node red' r rkids =>
            have here : s₁.tRoot = some r := by rw [root₁, rest, link_node]
            obtain ⟨layout', parents'⟩ := raise_spec layout parents here absent
            have points' := points.trans (raise_points s₁ n r)
            have height' : (raise s₁ n r).tHeight = s.tHeight + 1 := congrArg (· + 1) height
            obtain ⟨holds, members⟩ := h.enlarge bound rfl points' height' layout' parents'
            exact ⟨_, _, by rw [step, here]; rfl, holds, height', points', members⟩

/-- A tree is a single node when it has just one. -/
theorem Holds.single_congr {T' : CTree Addr} (h : Holds s T) (h' : Holds s' T')
    (members : ∀ a, T'.Has a ↔ T.Has a) (single : Single s')
    : Single s := by
  obtain ⟨red, a, rfl⟩ := h'.single_iff.mp single
  have only {b : Addr} (inside : T.Has b) : b = a := by
    have := (members b).mpr inside
    rw [CTree.has_node .left] at this
    simpa using this
  have some_ : T.Has a := (members a).mp CTree.has_root
  cases T with
  | nil => exact absurd some_ CTree.not_has_nil
  | node red' c kids =>
      refine h.single_iff.mpr ⟨red', c, congrArg _ ?_⟩
      funext d
      cases below : kids d with
      | nil => rfl
      | node red'' e ekids =>
          have inside : (kids d).Has e := by
            rw [below]
            exact CTree.has_root
          have same : e = c := (only (CTree.has_child inside)).trans (only CTree.has_root).symm
          subst same
          exact absurd inside ((CTree.distinct_node d).mp h.layout.distinct).2.2.1

theorem height_lt (low : s.tHeight < 64) (wide : ¬ idx.toNat < 2 ^ (s.tHeight + 1)) : s.tHeight + 1 < 64 := by
  by_contra high
  have top : s.tHeight = 63 := by omega
  rw [top] at wide
  exact wide idx.toNat_lt

/-- The loop ends, and it does nothing when the index fits. -/
theorem enlargeLoop_spec (h : Holds s T) (idx : UInt64) (enough : (T.traverse .right).length ≤ fuel)
    (last : 64 ≤ s.tHeight + turns)
    : (idx.toNat < 2 ^ (s.tHeight + 1) → rpstEnlargeTree.loop fuel idx turns s = some s)
      ∧ (Single s → ¬ idx.toNat < 2 ^ (s.tHeight + 1) → rpstEnlargeTree.loop fuel idx turns s = none)
      ∧ (¬ Single s → ∃ s' T', rpstEnlargeTree.loop fuel idx turns s = some s' ∧ Holds s' T'
        ∧ SamePoints s s' ∧ (∀ a, T'.Has a ↔ T.Has a) ∧ idx.toNat < 2 ^ (s'.tHeight + 1)) := by
  induction turns generalizing s T with
  | zero => exact absurd h.low (by omega)
  | succ turns ih =>
      have loop : rpstEnlargeTree.loop fuel idx (turns + 1) s
          = if UInt64.ofNat (2 ^ (s.tHeight + 1) - 1) < idx then
              (rpstEnlargeTree.step fuel s).bind (rpstEnlargeTree.loop fuel idx turns)
            else some s := by
        rw [rpstEnlargeTree.loop, rpstHeight2max_eq h.low]
        rfl
      have test := le_height2max (x := idx) h.low
      by_cases fits : idx.toNat < 2 ^ (s.tHeight + 1)
      · rw [loop, if_neg (test.mpr fits)]
        exact ⟨fun _ => rfl, fun _ wide => absurd fits wide,
          fun _ => ⟨s, T, rfl, h, fun b => ⟨rfl, rfl⟩, fun a => Iff.rfl, fits⟩⟩
      · have wide : UInt64.ofNat (2 ^ (s.tHeight + 1) - 1) < idx := by
          by_contra small
          exact fits (test.mp small)
        obtain ⟨fails, goes⟩ := enlargeStep_spec h (height_lt h.low fits) enough
        rw [loop, if_pos wide]
        refine ⟨fun small => absurd small fits, fun single _ => by rw [fails single]; rfl, fun several => ?_⟩
        obtain ⟨s₁, T₁, step, h₁, height₁, points₁, members₁⟩ := goes several
        have length₁ : (T₁.traverse .right).length ≤ fuel := by
          refine le_trans ?_ enough
          exact List.Nodup.length_le_of_subset h₁.layout.distinct fun a inside => (members₁ a).mp inside
        obtain ⟨s', T', run, h', points', members', fits'⟩ :=
          (ih h₁ length₁ (by omega)).2.2 fun single => several (h.single_congr h₁ members₁ single)
        exact ⟨s', T', by rw [step]; exact run, h', points₁.trans points',
          fun a => (members' a).trans (members₁ a), fits'⟩

end BSDLibC.Rpst
