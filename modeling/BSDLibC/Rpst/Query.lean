import BSDLibC.Rpst.Enlarge

/-! The queries of `rpst.c`: an iterator walks in the tree, without a stack, and comes to a node
after the children that can be in its range.
-/

namespace BSDLibC.Rpst
open BSDLibC.ColorTree BSDLibC.LinkedTree BSDLibC.PriorityTree

/-- The bounds of a query. -/
structure Range where
  itMaxY : UInt64
  itMinX : UInt64
  itMaxX : UInt64

/-- An `rpst_iterator`, of which the tree is the one in the state. -/
structure Iterator extends Range where
  itCur : Addr
  itIdx : Nat
  itLevel : Nat

/-- A child as an index. -/
def number : Dir → Nat
  | .left => 0
  | .right => 1

def rpstIteratorMatchP (n : Node) (r : Range) : Bool :=
  if r.itMaxY < n.nY then false
  else if n.nX < r.itMinX then false
  else if r.itMaxX < n.nX then false
  else true

def rpstNodeOnEdgeP (n : Node) (val mask : UInt64) : Bool := (n.nX ^^^ val) &&& ((-mask) <<< 1) = 0

def rpstMaxidx (n : Node) (maxX mask : UInt64) : Nat :=
  if rpstNodeOnEdgeP n maxX mask then number (index maxX mask) else 1

def rpstMinidx (n : Node) (minX mask : UInt64) : Nat :=
  if rpstNodeOnEdgeP n minX mask then number (index minX mask) else 0

/-- The variables of `rpst_iterate_next`. -/
structure Walk where
  n : Addr
  idx : Nat
  maxidx : Nat
  level : Nat
  mask : UInt64

/-- How the code goes on from the label `next`: it reports the node, goes there again, or ends. -/
inductive Turn
  | report (w : Walk)
  | next (w : Walk)
  | done

/-- Visit the current node. -/
def rpstIterateNext.visit (s : State) (r : Range) (w : Walk) : Option Turn := do
  let n := s.node w.n
  let w := { w with idx := w.idx + 1 }
  if r.itMinX ≤ n.nX ∧ n.nX ≤ r.itMaxX then
    guard (rpstIteratorMatchP n r)
    return .report w
  else
    return .next w

/-- `where - n->n_children` -/
def place : Cursor Addr → Option Nat
  | .top => none
  | .child _ d => some (number d)

/-- Back to the parent. -/
def rpstIterateNext.back (s : State) (r : Range) (w : Walk) : Option Turn := do
  let (next, where_) ← rpstFindPptr s w.n
  match next with
  | none =>
      guard (w.level = 0)
      guard (s.tRoot = some w.n)
      guard (place where_ = none)
      return .done
  | some next =>
      guard (0 < w.level)
      let level := w.level - 1
      let mask := rpstLevel2mask s level
      let idx := (← place where_) + 1
      guard (idx < 2 + 1)
      return .next ⟨next, idx, rpstMaxidx (s.node next) r.itMaxX mask, level, mask⟩

/-- Go to a child. -/
def rpstIterateNext.down (s : State) (r : Range) (w : Walk) : Option Turn := do
  guard (w.idx < 2)
  match (s.node w.n).nChildren (if w.idx = 0 then .left else .right) with
  | none => return .next { w with idx := w.idx + 1 }
  | some next =>
      if r.itMaxY < (s.node next).nY then
        return .next { w with idx := w.idx + 1 }
      else
        guard ((s.node next).nParent = some w.n)
        guard ((s.node w.n).nY ≤ (s.node next).nY)
        let mask := w.mask >>> 1
        return .next ⟨next, rpstMinidx (s.node next) r.itMinX mask,
          rpstMaxidx (s.node next) r.itMaxX mask, w.level + 1, mask⟩

def rpstIterateNext.step (s : State) (r : Range) (w : Walk) : Option Turn := do
  guard (w.mask = rpstLevel2mask s w.level)
  guard (rpstMinidx (s.node w.n) r.itMinX w.mask ≤ w.idx)
  guard (w.maxidx = rpstMaxidx (s.node w.n) r.itMaxX w.mask)
  guard (w.idx ≤ w.maxidx + 2)
  if w.idx = w.maxidx + 1 then rpstIterateNext.visit s r w
  else if w.idx = w.maxidx + 2 then rpstIterateNext.back s r w
  else rpstIterateNext.down s r w

/-- From the label `next` on, with the node that is returned. -/
def rpstIterateNext.loop (s : State) (it : Iterator) : Nat → Walk → Option (Option Addr × Iterator)
  | 0, _ => none
  | fuel + 1, w => do
      match ← rpstIterateNext.step s it.toRange w with
      | .report w => return (some w.n, { it with itCur := w.n, itIdx := w.idx, itLevel := w.level })
      | .next w => rpstIterateNext.loop s it fuel w
      | .done => return (none, it)

def rpstIterateNext (fuel : Nat) (s : State) (it : Iterator) : Option (Option Addr × Iterator) := do
  let n := s.node it.itCur
  let mask := rpstLevel2mask s it.itLevel
  let maxidx := rpstMaxidx n it.itMaxX mask
  guard (s.tRoot = some it.itCur ∨ rpstIteratorMatchP n it.toRange)
  rpstIterateNext.loop s it fuel ⟨it.itCur, it.itIdx, maxidx, it.itLevel, mask⟩

/-- The iterator is the one of the caller, with anything in it. -/
def rpstIterateFirst (fuel : Nat) (s : State) (maxY minX maxX : UInt64) (it : Iterator)
    : Option (Option Addr × Iterator) := do
  guard (minX ≤ maxX)
  match s.tRoot with
  | none => return (none, it)
  | some n =>
      if maxY < (s.node n).nY then
        return (none, it)
      else if (← rpstHeight2max s.tHeight) < minX then
        return (none, it)
      else
        rpstIterateNext fuel s ⟨⟨maxY, minX, maxX⟩, n, number (index minX (← rpstStartmask s)), 0⟩

/-- The loop of `query`, from a result of the iterator. -/
def query.loop (fuel : Nat) (s : State) : Nat → Option Addr × Iterator → Option (List Addr)
  | 0, _ => none
  | _ + 1, (none, _) => some []
  | turns + 1, (some rn, it) => do
      return rn :: (← query.loop fuel s turns (← rpstIterateNext fuel s it))

/-- The nodes that `query` finds. -/
def query (fuel : Nat) (s : State) (maxY minX maxX : UInt64) (it : Iterator) : Option (List Addr) := do
  query.loop fuel s fuel (← rpstIterateFirst fuel s maxY minX maxX it)

-----------------------------------------------------------------------------------------
-- The children in the range
-----------------------------------------------------------------------------------------

/-- The bits of a coordinate above the last `k`. -/
def stem (k : Nat) (x : UInt64) : Nat := x.toNat / 2 ^ k

variable {s : State} {r : Range} {k level idx : Nat} {n : Node} {v x y : UInt64} {d : Dir} {a b c : Addr}
  {red : Bool} {T : CTree Addr} {kids : Dir → CTree Addr} {ctx : Context Addr} {w w₁ w₂ : Walk}
  {out out' : List Addr} {it : Iterator}

theorem number_le (d : Dir) : number d ≤ 1 := by cases d <;> decide

theorem child_number (d : Dir) : (if number d = 0 then Dir.left else Dir.right) = d := by cases d <;> rfl

theorem stem_mono (le : x ≤ y) : stem k x ≤ stem k y := Nat.div_le_div_right (UInt64.le_iff_toNat_le.mp le)

theorem stem_succ (k : Nat) (x : UInt64) : stem k x = 2 * stem (k + 1) x + number (branch (k + 1) x) := by
  have bit : x.toNat.testBit k = decide (x.toNat / 2 ^ k % 2 = 1) := Nat.testBit_eq_decide_div_mod_eq
  have half : x.toNat / 2 ^ (k + 1) = x.toNat / 2 ^ k / 2 := by rw [Nat.pow_succ, Nat.div_div_eq_div_mul]
  rw [stem, stem, branch, Nat.add_sub_cancel, bit, half]
  by_cases odd : x.toNat / 2 ^ k % 2 = 1
  · simp only [odd, number]
    simp
    omega
  · simp only [odd, number]
    simp
    omega

theorem rpstLevel2mask_eq (low : s.tHeight < 64) (level : Nat)
    : rpstLevel2mask s level = mask (s.tHeight + 1 - level) := by
  by_cases below : s.tHeight < level
  · rw [rpstLevel2mask, if_pos below, mask, if_pos (by omega)]
  · rw [rpstLevel2mask, if_neg below, mask, if_neg (by omega), Nat.sub_right_comm, Nat.add_sub_cancel]
    have few : s.tHeight - level < 64 := by omega
    generalize s.tHeight - level = height at few
    interval_cases height <;> decide

theorem onEdge_zero : rpstNodeOnEdgeP n v (mask 0) = true := by simp [rpstNodeOnEdgeP, mask]

theorem onEdge_iff (low : k < 64)
    : rpstNodeOnEdgeP n v (mask (k + 1)) = true ↔ stem (k + 1) n.nX = stem (k + 1) v := by
  rw [rpstNodeOnEdgeP, decide_eq_true_iff, ← UInt64.toNat_inj, UInt64.toNat_and, UInt64.toNat_xor,
    high_mask low, stem, stem]
  constructor
  · intro none
    refine Nat.eq_of_testBit_eq fun i => ?_
    rw [Nat.testBit_div_two_pow, Nat.testBit_div_two_pow]
    by_cases inside : i < 63 - k
    · have bit := congrArg (Nat.testBit · (i + (k + 1))) none
      simp only [Nat.testBit_and, Nat.testBit_xor, Nat.testBit_two_pow_mul,
        Nat.testBit_two_pow_sub_one] at bit
      simpa [inside] using bit
    · have above (z : UInt64) : z.toNat.testBit (i + (k + 1)) = false :=
        Nat.testBit_lt_two_pow (lt_of_lt_of_le z.toNat_lt (Nat.pow_le_pow_right (by decide) (by omega)))
      rw [above, above]
  · intro same
    refine Nat.eq_of_testBit_eq fun i => ?_
    rw [Nat.testBit_and, Nat.testBit_xor, Nat.testBit_two_pow_mul]
    by_cases high : k + 1 ≤ i
    · have bit := congrArg (Nat.testBit · (i - (k + 1))) same
      simp only [Nat.testBit_div_two_pow, Nat.sub_add_cancel high] at bit
      simp [bit]
    · simp [high]

theorem rpstMaxidx_le (n : Node) (v mask : UInt64) : rpstMaxidx n v mask ≤ 1 := by
  rw [rpstMaxidx]
  split
  · exact number_le _
  · exact le_rfl

theorem rpstMaxidx_zero (n : Node) (v : UInt64) : rpstMaxidx n v (mask 0) = 0 := by
  rw [rpstMaxidx, if_pos onEdge_zero, index_mask (Nat.zero_le _)]
  rfl

theorem rpstMinidx_zero (n : Node) (v : UInt64) : rpstMinidx n v (mask 0) = 0 := by
  rw [rpstMinidx, if_pos onEdge_zero, index_mask (Nat.zero_le _)]
  rfl

/-- Up to `maxidx` are the children that have a stem up to that of the bound. -/
theorem number_le_maxidx (few : k + 1 ≤ 64) (upper : stem (k + 1) n.nX ≤ stem (k + 1) v)
    : number d ≤ rpstMaxidx n v (mask (k + 1)) ↔ 2 * stem (k + 1) n.nX + number d ≤ stem k v := by
  have digit := number_le d
  rw [rpstMaxidx, index_mask few, stem_succ k v]
  by_cases edge : rpstNodeOnEdgeP n v (mask (k + 1)) = true
  · have same := (onEdge_iff few).mp edge
    rw [if_pos edge, same]
    omega
  · have differ : stem (k + 1) n.nX ≠ stem (k + 1) v := fun same => edge ((onEdge_iff few).mpr same)
    rw [if_neg edge]
    omega

theorem minidx_le_number (few : k + 1 ≤ 64) (lower : stem (k + 1) v ≤ stem (k + 1) n.nX)
    : rpstMinidx n v (mask (k + 1)) ≤ number d ↔ stem k v ≤ 2 * stem (k + 1) n.nX + number d := by
  have digit := number_le (branch (k + 1) v)
  rw [rpstMinidx, index_mask few, stem_succ k v]
  by_cases edge : rpstNodeOnEdgeP n v (mask (k + 1)) = true
  · have same := (onEdge_iff few).mp edge
    rw [if_pos edge, same]
    omega
  · have differ : stem (k + 1) n.nX ≠ stem (k + 1) v := fun same => edge ((onEdge_iff few).mpr same)
    rw [if_neg edge]
    omega

theorem matchP_iff : rpstIteratorMatchP n r = true ↔ n.nY ≤ r.itMaxY ∧ r.itMinX ≤ n.nX ∧ n.nX ≤ r.itMaxX := by
  rw [rpstIteratorMatchP]
  by_cases high : r.itMaxY < n.nY
  · simp [high]
  · by_cases left : n.nX < r.itMinX
    · simp [high, left]
    · by_cases right : r.itMaxX < n.nX
      · simp [high, left, right]
      · simp [high, left, right, UInt64.not_lt.mp high, UInt64.not_lt.mp left, UInt64.not_lt.mp right]

/-- The walk goes to this child of a node. -/
def Open (s : State) (r : Range) (k : Nat) (a : Addr) (d : Dir) : Prop :=
  rpstMinidx (s.node a) r.itMinX (mask k) ≤ number d ∧ number d ≤ rpstMaxidx (s.node a) r.itMaxX (mask k)

instance : Decidable (Open s r k a d) := inferInstanceAs (Decidable (_ ∧ _))

/-- A subtree that a query comes to. The nodes in it have one stem, which is between those of the
bounds.
-/
structure Reached (s : State) (r : Range) (k : Nat) (T : CTree Addr) : Prop where
  few : k ≤ 64
  heap : HeapOrdered s.rank T
  placed : Placed s.side k T
  alike : ∀ a b, T.Has a → T.Has b → stem k (s.node a).nX = stem k (s.node b).nX
  lower : ∀ a, T.Has a → stem k r.itMinX ≤ stem k (s.node a).nX
  upper : ∀ a, T.Has a → stem k (s.node a).nX ≤ stem k r.itMaxX

theorem Reached.stem_child (h : Reached s r (k + 1) (.node red a kids)) (inside : (kids d).Has b)
    : stem k (s.node b).nX = 2 * stem (k + 1) (s.node a).nX + number d := by
  have side : branch (k + 1) (s.node b).nX = d := (h.placed d).1 b inside
  rw [stem_succ, side, h.alike b a (CTree.has_child inside) CTree.has_root]

theorem Reached.child (h : Reached s r k (.node red a kids)) (opened : Open s r k a d)
    : Reached s r (k - 1) (kids d) := by
  cases k with
  | zero =>
      exact ⟨h.few, (h.heap d).2, (h.placed d).2,
        fun b c inB inC => h.alike b c (CTree.has_child inB) (CTree.has_child inC),
        fun b inside => h.lower b (CTree.has_child inside), fun b inside => h.upper b (CTree.has_child inside)⟩
  | succ k =>
      refine ⟨by have := h.few; omega, (h.heap d).2, (h.placed d).2, fun b c inB inC => ?_, fun b inside => ?_,
        fun b inside => ?_⟩
      · rw [Nat.add_sub_cancel, h.stem_child inB, h.stem_child inC]
      · rw [Nat.add_sub_cancel, h.stem_child inside]
        exact (minidx_le_number h.few (h.lower a CTree.has_root)).mp opened.1
      · rw [Nat.add_sub_cancel, h.stem_child inside]
        exact (number_le_maxidx h.few (h.upper a CTree.has_root)).mp opened.2

/-- No node of the range is below a child that the walk does not go to. -/
theorem Reached.opens (h : Reached s r k (.node red a kids)) (inside : (kids d).Has b)
    (lower : r.itMinX ≤ (s.node b).nX) (upper : (s.node b).nX ≤ r.itMaxX)
    : Open s r k a d := by
  cases k with
  | zero =>
      have side : branch 0 (s.node b).nX = d := (h.placed d).1 b inside
      have first : number d = 0 := by rw [← side]; rfl
      rw [Open, rpstMinidx_zero, rpstMaxidx_zero, first]
      exact ⟨le_rfl, le_rfl⟩
  | succ k =>
      constructor
      · rw [minidx_le_number h.few (h.lower a CTree.has_root), ← h.stem_child inside]
        exact stem_mono lower
      · rw [number_le_maxidx h.few (h.upper a CTree.has_root), ← h.stem_child inside]
        exact stem_mono upper

theorem Reached.minidx_le_maxidx (h : Reached s r k (.node red a kids)) (ordered : r.itMinX ≤ r.itMaxX)
    : rpstMinidx (s.node a) r.itMinX (mask k) ≤ rpstMaxidx (s.node a) r.itMaxX (mask k) := by
  cases k with
  | zero => rw [rpstMinidx_zero, rpstMaxidx_zero]
  | succ k =>
      have first (d : Dir) := minidx_le_number (d := d) h.few (h.lower a CTree.has_root)
      have last := number_le_maxidx (d := .right) h.few (h.upper a CTree.has_root)
      have bounds := stem_mono (k := k) ordered
      by_cases both : number .right ≤ rpstMaxidx (s.node a) r.itMaxX (mask (k + 1))
      · refine le_trans ((first .right).mpr ?_) both
        have := h.lower a CTree.has_root
        have := stem_succ k r.itMinX
        have := number_le (branch (k + 1) r.itMinX)
        simp only [number]
        omega
      · refine le_trans ((first .left).mpr ?_) (Nat.zero_le _)
        rw [last] at both
        simp only [number] at both ⊢
        omega


/-- The nodes of a subtree that match, in the order in which the walk comes to them. -/
def found (s : State) (r : Range) : Nat → CTree Addr → List Addr
  | _, .nil => []
  | k, .node _ a kids =>
      if r.itMaxY < (s.node a).nY then
        []
      else
        ([Dir.left, .right].flatMap fun d => if Open s r k a d then found s r (k - 1) (kids d) else [])
          ++ if r.itMinX ≤ (s.node a).nX ∧ (s.node a).nX ≤ r.itMaxX then [a] else []

theorem found_high (high : r.itMaxY < (s.node a).nY) : found s r k (.node red a kids) = [] := if_pos high

theorem found_node (reach : ¬ r.itMaxY < (s.node a).nY)
    : found s r k (.node red a kids)
      = ([Dir.left, .right].flatMap fun d => if Open s r k a d then found s r (k - 1) (kids d) else [])
        ++ if r.itMinX ≤ (s.node a).nX ∧ (s.node a).nX ≤ r.itMaxX then [a] else [] :=
  if_neg reach

theorem mem_found (h : Reached s r k T)
    : b ∈ found s r k T ↔ T.Has b ∧ rpstIteratorMatchP (s.node b) r = true := by
  induction T generalizing k with
  | nil => simp [found]
  | node red a kids ih =>
      rw [matchP_iff]
      by_cases high : r.itMaxY < (s.node a).nY
      · rw [found_high high]
        refine ⟨fun none => absurd none List.not_mem_nil, fun ⟨inside, below, _⟩ => ?_⟩
        have le : (s.node a).nY ≤ (s.node b).nY := UInt64.le_iff_toNat_le.mpr (h.heap.root_le inside)
        exact absurd high (UInt64.not_lt.mpr (UInt64.le_trans le below))
      · have child (d : Dir)
            : b ∈ (if Open s r k a d then found s r (k - 1) (kids d) else [])
              ↔ (kids d).Has b ∧ rpstIteratorMatchP (s.node b) r = true := by
          by_cases opened : Open s r k a d
          · rw [if_pos opened]
            exact ih d (h.child opened)
          · rw [if_neg opened]
            refine ⟨fun none => absurd none List.not_mem_nil, fun ⟨inside, matches_⟩ => ?_⟩
            obtain ⟨-, lower, upper⟩ := matchP_iff.mp matches_
            exact absurd (h.opens inside lower upper) opened
        have root : b ∈ (if r.itMinX ≤ (s.node a).nX ∧ (s.node a).nX ≤ r.itMaxX then [a] else [])
            ↔ b = a ∧ r.itMinX ≤ (s.node b).nX ∧ (s.node b).nX ≤ r.itMaxX := by
          split
          next inside =>
            rw [List.mem_singleton]
            refine ⟨?_, fun here => here.1⟩
            rintro rfl
            exact ⟨rfl, inside⟩
          next outside =>
            refine ⟨fun none => absurd none List.not_mem_nil, ?_⟩
            rintro ⟨rfl, inside⟩
            exact absurd inside outside
        rw [found_node high, List.mem_append, List.mem_flatMap, root, CTree.has_node .left, ← matchP_iff]
        constructor
        · rintro (⟨d, -, below⟩ | ⟨rfl, inside⟩)
          · have ⟨inside, matches_⟩ := (child d).mp below
            cases d
            · exact ⟨Or.inr (Or.inl inside), matches_⟩
            · exact ⟨Or.inr (Or.inr inside), matches_⟩
          · exact ⟨Or.inl rfl, matchP_iff.mpr ⟨UInt64.not_lt.mp high, inside⟩⟩
        · rintro ⟨rfl | inside | inside, matches_⟩
          · exact Or.inr ⟨rfl, (matchP_iff.mp matches_).2⟩
          · exact Or.inl ⟨.left, by simp, (child .left).mpr ⟨inside, matches_⟩⟩
          · exact Or.inl ⟨.right, by simp, (child .right).mpr ⟨inside, matches_⟩⟩

theorem has_of_found (inside : b ∈ found s r k T) : T.Has b := by
  induction T generalizing k with
  | nil => exact absurd inside List.not_mem_nil
  | node red a kids ih =>
      rw [found] at inside
      split at inside
      · exact absurd inside List.not_mem_nil
      · rcases List.mem_append.mp inside with below | root
        · obtain ⟨d, -, below⟩ := List.mem_flatMap.mp below
          split at below
          · exact CTree.has_child (ih d below)
          · exact absurd below List.not_mem_nil
        · split at root
          · rw [List.mem_singleton.mp root]
            exact CTree.has_root
          · exact absurd root List.not_mem_nil

theorem nodup_found (distinct : T.Distinct) : (found s r k T).Nodup := by
  induction T generalizing k with
  | nil => exact List.nodup_nil
  | node red a kids ih =>
      obtain ⟨left, right, notLeft, notRight, apart⟩ := (CTree.distinct_node .left).mp distinct
      have below (b : Addr) (d : Dir)
          (inside : b ∈ if Open s r k a d then found s r (k - 1) (kids d) else [])
          : (kids d).Has b := by
        split at inside
        · exact has_of_found inside
        · exact absurd inside List.not_mem_nil
      have each (d : Dir) : (if Open s r k a d then found s r (k - 1) (kids d) else []).Nodup := by
        split
        · cases d
          · exact ih _ left
          · exact ih _ right
        · exact List.nodup_nil
      rw [found]
      split
      · exact List.nodup_nil
      · simp only [List.flatMap_cons, List.flatMap_nil, List.append_nil]
        refine List.nodup_append.mpr ⟨List.nodup_append.mpr ⟨each _, each _, ?_⟩, ?_, ?_⟩
        · rintro b inLeft c inRight rfl
          exact apart b (below b _ inLeft) (below b _ inRight)
        · split
          · exact List.nodup_singleton a
          · exact List.nodup_nil
        · intro b inside c root
          split at root
          · rw [List.mem_singleton.mp root]
            rintro rfl
            rcases List.mem_append.mp inside with inLeft | inRight
            · exact notLeft (below b _ inLeft)
            · exact notRight (below b _ inRight)
          · exact absurd root List.not_mem_nil

-----------------------------------------------------------------------------------------
-- The walk
-----------------------------------------------------------------------------------------

/-- The variables at a node, before the child with the index `idx`. -/
def here (s : State) (r : Range) (a : Addr) (level idx : Nat) : Walk :=
  let mask := rpstLevel2mask s level
  ⟨a, idx, rpstMaxidx (s.node a) r.itMaxX mask, level, mask⟩

/-- A walk reports nodes on its way. After each of them it starts again from the iterator. -/
inductive Emits (s : State) (r : Range) : Walk → List Addr → Walk → Prop
  | refl (w : Walk) : Emits s r w [] w
  | next {w w₁ w₂ : Walk} {out : List Addr}
      : rpstIterateNext.step s r w = some (.next w₁) → Emits s r w₁ out w₂ → Emits s r w out w₂
  | report {w w₂ : Walk} {a : Addr} {level idx : Nat} {out : List Addr}
      : rpstIterateNext.step s r w = some (.report (here s r a level idx))
        → rpstIteratorMatchP (s.node a) r = true → Emits s r (here s r a level idx) out w₂
        → Emits s r w (a :: out) w₂

theorem Emits.trans (first : Emits s r w out w₁) (second : Emits s r w₁ out' w₂)
    : Emits s r w (out ++ out') w₂ := by
  induction first with
  | refl => exact second
  | next step _ ih => exact .next step (ih second)
  | report step inside _ ih => exact .report step inside (ih second)

/-- The assertions of the loop. -/
theorem step_here (after : rpstMinidx (s.node a) r.itMinX (rpstLevel2mask s level) ≤ idx)
    (before : idx ≤ rpstMaxidx (s.node a) r.itMaxX (rpstLevel2mask s level) + 2)
    : rpstIterateNext.step s r (here s r a level idx)
      = if idx = rpstMaxidx (s.node a) r.itMaxX (rpstLevel2mask s level) + 1 then
          rpstIterateNext.visit s r (here s r a level idx)
        else if idx = rpstMaxidx (s.node a) r.itMaxX (rpstLevel2mask s level) + 2 then
          rpstIterateNext.back s r (here s r a level idx)
        else rpstIterateNext.down s r (here s r a level idx) := by
  simp only [rpstIterateNext.step, here, after, before, guard_of, Option.bind_eq_bind, Option.bind_some]
  rfl

/-- With the masks in terms of the bits that are left. -/
theorem here_eq (low : s.tHeight < 64) (a : Addr) (level idx : Nat)
    : here s r a level idx
      = ⟨a, idx, rpstMaxidx (s.node a) r.itMaxX (mask (s.tHeight + 1 - level)), level,
        mask (s.tHeight + 1 - level)⟩ := by
  rw [here, rpstLevel2mask_eq low]

section
variable (low : s.tHeight < 64) (left : k = s.tHeight + 1 - level)
include low left

theorem visit_here (below : ¬ r.itMaxY < (s.node a).nY)
    (after : rpstMinidx (s.node a) r.itMinX (mask k) ≤ rpstMaxidx (s.node a) r.itMaxX (mask k))
    : Emits s r (here s r a level (rpstMaxidx (s.node a) r.itMaxX (mask k) + 1))
        (if r.itMinX ≤ (s.node a).nX ∧ (s.node a).nX ≤ r.itMaxX then [a] else [])
        (here s r a level (rpstMaxidx (s.node a) r.itMaxX (mask k) + 2)) := by
  have masks : rpstLevel2mask s level = mask k := by rw [rpstLevel2mask_eq low, left]
  have step := @step_here s r level (rpstMaxidx (s.node a) r.itMaxX (mask k) + 1) a
    (by rw [masks]; omega) (by rw [masks]; omega)
  rw [masks, if_pos rfl] at step
  by_cases inside : r.itMinX ≤ (s.node a).nX ∧ (s.node a).nX ≤ r.itMaxX
  · have matches_ := matchP_iff.mpr ⟨UInt64.not_lt.mp below, inside⟩
    rw [if_pos inside]
    refine .report (step.trans ((if_pos inside).trans ?_)) matches_ (.refl _)
    exact congrArg (Option.bind · _) (guard_of matches_)
  · rw [if_neg inside]
    exact .next (step.trans (if_neg inside)) (.refl _)

/-- A child that is missing, or too high, is passed over. -/
theorem skip_here (opened : Open s r k a d)
    (high : ∀ c, (s.node a).nChildren d = some c → r.itMaxY < (s.node c).nY)
    : Emits s r (here s r a level (number d)) [] (here s r a level (number d + 1)) := by
  have masks : rpstLevel2mask s level = mask k := by rw [rpstLevel2mask_eq low, left]
  have digit := number_le d
  have ⟨after, before⟩ := opened
  have step := @step_here s r level (number d) a (by rw [masks]; omega) (by rw [masks]; omega)
  rw [masks, if_neg (by omega), if_neg (by omega)] at step
  refine .next (step.trans ?_) (.refl _)
  cases child : (s.node a).nChildren d with
  | none => cases d <;> simp [rpstIterateNext.down, here, number, child]
  | some c => cases d <;> simp [rpstIterateNext.down, here, number, child, high c child]

theorem enter_here (opened : Open s r k a d) (child : (s.node a).nChildren d = some c)
    (below : ¬ r.itMaxY < (s.node c).nY) (parent : (s.node c).nParent = some a)
    (order : (s.node a).nY ≤ (s.node c).nY)
    : Emits s r (here s r a level (number d)) []
        (here s r c (level + 1) (rpstMinidx (s.node c) r.itMinX (mask (k - 1)))) := by
  have masks : rpstLevel2mask s level = mask k := by rw [rpstLevel2mask_eq low, left]
  have shifted : mask k >>> 1 = mask (k - 1) := mask_shift (by omega)
  have next : rpstLevel2mask s (level + 1) = mask (k - 1) := by rw [rpstLevel2mask_eq low, left, Nat.sub_sub]
  have digit := number_le d
  have ⟨after, before⟩ := opened
  have step := @step_here s r level (number d) a (by rw [masks]; omega) (by rw [masks]; omega)
  rw [masks, if_neg (by omega), if_neg (by omega)] at step
  refine .next (step.trans ?_) (.refl _)
  cases d <;> simp [rpstIterateNext.down, here, number, child, below, parent, order, masks, shifted, next]

end

theorem back_here (pointer : rpstFindPptr s c = some (some a, .child a d))
    (after : rpstMinidx (s.node c) r.itMinX (rpstLevel2mask s (level + 1))
      ≤ rpstMaxidx (s.node c) r.itMaxX (rpstLevel2mask s (level + 1)))
    : Emits s r
        (here s r c (level + 1) (rpstMaxidx (s.node c) r.itMaxX (rpstLevel2mask s (level + 1)) + 2)) []
        (here s r a level (number d + 1)) := by
  refine .next ((step_here (by omega) le_rfl).trans ?_) (.refl _)
  rw [if_neg (by omega), if_pos rfl]
  cases d <;> simp [rpstIterateNext.back, here, pointer, place, number]

/-- The walk goes through the children between the two edges, one after the other. -/
theorem Reached.sweep (h : Reached s r k (.node red a kids)) (ordered : r.itMinX ≤ r.itMaxX)
    (each : ∀ d, Open s r k a d
      → Emits s r (here s r a level (number d)) (found s r (k - 1) (kids d)) (here s r a level (number d + 1)))
    : Emits s r (here s r a level (rpstMinidx (s.node a) r.itMinX (mask k)))
        ([Dir.left, .right].flatMap fun d => if Open s r k a d then found s r (k - 1) (kids d) else [])
        (here s r a level (rpstMaxidx (s.node a) r.itMaxX (mask k) + 1)) := by
  have between := h.minidx_le_maxidx ordered
  have last := rpstMaxidx_le (s.node a) r.itMaxX (mask k)
  simp only [List.flatMap_cons, List.flatMap_nil, List.append_nil]
  rcases Nat.le_one_iff_eq_zero_or_eq_one.mp (between.trans last) with zero | one
  · have openLeft : Open s r k a .left := ⟨zero.le, Nat.zero_le _⟩
    rw [if_pos openLeft, zero]
    rcases Nat.le_one_iff_eq_zero_or_eq_one.mp last with edge | both
    · have notRight : ¬ Open s r k a .right := fun opened => absurd (edge ▸ opened.2) (by decide)
      rw [if_neg notRight, List.append_nil, edge]
      exact each .left openLeft
    · have openRight : Open s r k a .right := ⟨zero.le.trans (Nat.zero_le _), both.ge⟩
      rw [if_pos openRight, both]
      exact (each .left openLeft).trans (each .right openRight)
  · have notLeft : ¬ Open s r k a .left := fun opened => absurd (one ▸ opened.1) (by decide)
    have full : rpstMaxidx (s.node a) r.itMaxX (mask k) = 1 := last.antisymm (one ▸ between)
    have openRight : Open s r k a .right := ⟨one.le, full.ge⟩
    rw [if_neg notLeft, if_pos openRight, List.nil_append, one, full]
    exact each .right openRight

/-- A subtree is reported whole, by induction on the tree. -/
theorem Reached.emits (h : Reached s r k T) (low : s.tHeight < 64) (ordered : r.itMinX ≤ r.itMaxX)
    (left : k = s.tHeight + 1 - level) (layout : At s.links ctx T)
    (parents : ParentsAt s.parent none (plug ctx T)) (top : link T = some a)
    (below : ¬ r.itMaxY < (s.node a).nY)
    : Emits s r (here s r a level (rpstMinidx (s.node a) r.itMinX (mask k))) (found s r k T)
        (here s r a level (rpstMaxidx (s.node a) r.itMaxX (mask k) + 2)) := by
  induction T generalizing k level ctx a with
  | nil => cases top
  | node red b kids ih =>
      cases top
      rw [found_node below]
      refine .trans (h.sweep ordered fun d opened => ?_) (visit_here low left below (h.minidx_le_maxidx ordered))
      have child : (s.node b).nChildren d = link (kids d) := (layout.tree d).1
      have deeper := layout.down d
      have parents' : ParentsAt s.parent none (plug (⟨d, red, b, kids d.other⟩ :: ctx) (kids d)) := by
        rw [plug_child]
        exact parents
      have reached := h.child opened
      have heap := (h.heap d).1
      cases kid : kids d with
      | nil =>
          rw [kid] at child
          exact skip_here low left opened fun c some_ => by rw [child] at some_; cases some_
      | node red' c ckids =>
          have goesOn := @ih d (k - 1) (level + 1) c (⟨d, red, b, kids d.other⟩ :: ctx) reached
          rw [kid] at child deeper parents' reached heap goesOn
          by_cases high : r.itMaxY < (s.node c).nY
          · rw [found_high high]
            refine skip_here low left opened fun c' some_ => ?_
            cases child.symm.trans some_
            exact high
          · have left' : k - 1 = s.tHeight + 1 - (level + 1) := by omega
            have masks : mask (k - 1) = rpstLevel2mask s (level + 1) := by rw [rpstLevel2mask_eq low, left']
            have parent : (s.node c).nParent = some b := (parentsAt_plug.mp parents').1.1
            have order := UInt64.le_iff_toNat_le.mpr (heap c CTree.has_root)
            have inner := goesOn left' deeper parents' rfl high
            have outward : Emits s r (here s r c (level + 1) (rpstMaxidx (s.node c) r.itMaxX (mask (k - 1)) + 2))
                [] (here s r b level (number d + 1)) := by
              have between := reached.minidx_le_maxidx ordered
              rw [masks] at between ⊢
              exact back_here (rpstFindPptr_eq deeper parents') between
            have whole := ((enter_here low left opened child high parent order).trans inner).trans outward
            rwa [List.nil_append, List.append_nil] at whole

/-- Reports and returns, from a walk to the end. -/
theorem Emits.collect (h : Emits s r w out w₂) (ends : rpstIterateNext.step s r w₂ = some .done)
    : ∃ enough, ∀ fuel fuel' turns, enough ≤ fuel → enough ≤ fuel' → out.length < turns → ∀ it : Iterator,
      it.toRange = r → (rpstIterateNext.loop s it fuel' w).bind (query.loop fuel s turns) = some out := by
  induction h with
  | refl w =>
      refine ⟨1, fun fuel fuel' turns _ some_ more it range => ?_⟩
      subst range
      obtain ⟨fuel', rfl⟩ := Nat.exists_eq_add_of_lt some_
      obtain ⟨turns, rfl⟩ := Nat.exists_eq_add_of_lt more
      simp [rpstIterateNext.loop, ends, query.loop]
  | next step _ ih =>
      obtain ⟨enough, goesOn⟩ := ih ends
      refine ⟨enough + 1, fun fuel fuel' turns le some_ more it range => ?_⟩
      obtain ⟨fuel', rfl⟩ := Nat.exists_eq_add_of_le some_
      have rest := goesOn fuel (enough + fuel') turns (by omega) (by omega) more it range
      subst range
      rw [Nat.add_right_comm, rpstIterateNext.loop, step]
      exact rest
  | @report w w₂ a level idx out step inside _ ih =>
      obtain ⟨enough, goesOn⟩ := ih ends
      refine ⟨enough + 1, fun fuel fuel' turns le some_ more it range => ?_⟩
      obtain ⟨fuel', rfl⟩ := Nat.exists_eq_add_of_le some_
      obtain ⟨turns, rfl⟩ := Nat.exists_eq_add_of_lt more
      subst range
      let it' : Iterator := { it with itCur := a, itIdx := idx, itLevel := level }
      have rest := goesOn fuel fuel ((a :: out).length + turns) (by omega) (by omega)
        (Nat.lt_add_right _ (Nat.lt_succ_self _)) it' rfl
      have again : rpstIterateNext fuel s it'
          = rpstIterateNext.loop s it' fuel (here s it.toRange a level idx) := by
        have passes : s.tRoot = some a ∨ rpstIteratorMatchP (s.node a) it.toRange = true := Or.inr inside
        simp [rpstIterateNext, it', passes, here]
      have reported : rpstIterateNext.loop s it (enough + 1 + fuel') w = some (some a, it') := by
        rw [Nat.add_right_comm, rpstIterateNext.loop, step]
        rfl
      rw [reported, Option.bind_some, query.loop, again]
      refine (Option.bind_assoc _ _ _).symm.trans ?_
      rw [rest]
      rfl

section
variable (h : Holds s T) {minX maxX : UInt64} (maxY : UInt64)
include h

/-- `rpst_iterate_first`, with the calls that do not start a walk. -/
theorem iterateFirst_none (ordered : minX ≤ maxX) (fuel : Nat)
    (out : ∀ a, s.tRoot = some a → maxY < (s.node a).nY ∨ ¬ minX.toNat < 2 ^ (s.tHeight + 1))
    : rpstIterateFirst fuel s maxY minX maxX it = some (none, it) := by
  rw [rpstIterateFirst, guard_of ordered, rpstHeight2max_eq h.low]
  cases root : s.tRoot with
  | none => rfl
  | some a =>
      rcases out a root with high | wide
      · simp [high]
      · rw [← le_height2max h.low, not_not] at wide
        simp [wide]

theorem iterateFirst_root (ordered : minX ≤ maxX) (fuel : Nat) (root : s.tRoot = some a)
    (low : ¬ maxY < (s.node a).nY) (fits : minX.toNat < 2 ^ (s.tHeight + 1))
    : rpstIterateFirst fuel s maxY minX maxX it
      = rpstIterateNext fuel s ⟨⟨maxY, minX, maxX⟩, a, number (branch (s.tHeight + 1) minX), 0⟩ := by
  rw [← le_height2max h.low] at fits
  have few : s.tHeight + 1 ≤ 64 := h.low
  rw [rpstIterateFirst, guard_of ordered, rpstHeight2max_eq h.low, rpstStartmask_eq s h.low, root]
  simp [low, fits, index_mask few]

/-- All bits of the coordinates are left at the root. -/
theorem Holds.stem_zero (inside : T.Has a) : stem (s.tHeight + 1) (s.node a).nX = 0 :=
  Nat.div_eq_of_lt (h.fits a inside)

theorem Holds.reached (fits : minX.toNat < 2 ^ (s.tHeight + 1))
    : Reached s ⟨maxY, minX, maxX⟩ (s.tHeight + 1) T where
  few := h.low
  heap := h.heap
  placed := h.placed
  alike _ _ inA inB := (h.stem_zero inA).trans (h.stem_zero inB).symm
  lower _ _ := (Nat.div_eq_of_lt fits).le.trans (Nat.zero_le _)
  upper _ inside := (h.stem_zero inside).le.trans (Nat.zero_le _)

/-- The walk from the root to the end. -/
theorem Holds.walk (ordered : minX ≤ maxX) (root : s.tRoot = some a) (below : ¬ maxY < (s.node a).nY)
    (fits : minX.toNat < 2 ^ (s.tHeight + 1))
    : ∃ enough, ∀ fuel, enough ≤ fuel
      → (rpstIterateNext fuel s ⟨⟨maxY, minX, maxX⟩, a, number (branch (s.tHeight + 1) minX), 0⟩).bind
          (query.loop fuel s fuel)
        = some (found s ⟨maxY, minX, maxX⟩ (s.tHeight + 1) T) := by
  have few : s.tHeight + 1 ≤ 64 := h.low
  have reached := @Holds.reached s T h minX maxX maxY fits
  have top : link T = some a := h.root.symm.trans root
  obtain ⟨red, kids, rfl⟩ := link_some top
  have first : number (branch (s.tHeight + 1) minX)
      = rpstMinidx (s.node a) minX (mask (s.tHeight + 1)) := by
    have same : stem (s.tHeight + 1) (s.node a).nX = stem (s.tHeight + 1) minX :=
      (h.stem_zero CTree.has_root).trans (Nat.div_eq_of_lt fits).symm
    rw [rpstMinidx, if_pos ((onEdge_iff h.low).mpr same), index_mask few]
  have walk := @Reached.emits s _ _ 0 a _ [] reached h.low ordered rfl h.layout h.parents rfl below
  have between := reached.minidx_le_maxidx ordered
  have masks : mask (s.tHeight + 1) = rpstLevel2mask s 0 := (rpstLevel2mask_eq h.low 0).symm
  have ends : rpstIterateNext.step s ⟨maxY, minX, maxX⟩
      (here s ⟨maxY, minX, maxX⟩ a 0 (rpstMaxidx (s.node a) maxX (mask (s.tHeight + 1)) + 2)) = some .done := by
    have pointer : rpstFindPptr s a = some (none, .top) := rpstFindPptr_eq h.layout h.parents
    rw [masks] at between ⊢
    rw [step_here (between.trans (Nat.le_add_right _ 2)) le_rfl, if_neg (by omega), if_pos rfl]
    simp [rpstIterateNext.back, here, pointer, root, place]
  obtain ⟨enough, run⟩ := walk.collect ends
  refine ⟨enough + (found s ⟨maxY, minX, maxX⟩ (s.tHeight + 1) (.node red a kids)).length + 1,
    fun fuel le => ?_⟩
  rw [rpstIterateNext, guard_of (Or.inl root), first]
  exact run fuel fuel fuel (by omega) (by omega) (by omega) _ rfl

end

/-- Every query finds the nodes of the tree that match, each of them once, and ends. -/
theorem query_exact (h : Holds s T) (maxY : UInt64) {minX maxX : UInt64} (ordered : minX ≤ maxX)
    (it : Iterator)
    : ∃ nodes : List Addr, nodes.Nodup
        ∧ (∀ a, a ∈ nodes ↔ T.Has a ∧ (s.node a).nY ≤ maxY ∧ minX ≤ (s.node a).nX ∧ (s.node a).nX ≤ maxX)
        ∧ ∃ enough, ∀ fuel, enough ≤ fuel → query fuel s maxY minX maxX it = some nodes := by
  have empty (out : ∀ a, s.tRoot = some a → maxY < (s.node a).nY ∨ ¬ minX.toNat < 2 ^ (s.tHeight + 1))
      (fuel : Nat) (some_ : 1 ≤ fuel) : query fuel s maxY minX maxX it = some [] := by
    obtain ⟨fuel, rfl⟩ := Nat.exists_eq_add_of_le' some_
    rw [query, iterateFirst_none h maxY ordered _ out]
    rfl
  cases T with
  | nil =>
      refine ⟨[], List.nodup_nil, by simp, 1, empty fun a root => ?_⟩
      cases h.root.symm.trans root
  | node red a kids =>
      have root : s.tRoot = some a := h.root
      by_cases high : maxY < (s.node a).nY
      · refine ⟨[], List.nodup_nil, fun b => ?_, 1, empty fun c top => ?_⟩
        · refine ⟨fun none => absurd none List.not_mem_nil, fun ⟨inside, below, _⟩ => ?_⟩
          have le := UInt64.le_iff_toNat_le.mpr (h.heap.root_le inside)
          exact absurd high (UInt64.not_lt.mpr (UInt64.le_trans le below))
        · cases root.symm.trans top
          exact Or.inl high
      · by_cases fits : minX.toNat < 2 ^ (s.tHeight + 1)
        · obtain ⟨enough, run⟩ := h.walk maxY ordered root high fits
          have reached := @Holds.reached s _ h minX maxX maxY fits
          refine ⟨found s ⟨maxY, minX, maxX⟩ (s.tHeight + 1) (.node red a kids), nodup_found h.layout.distinct,
            fun b => ?_, enough, fun fuel le => ?_⟩
          · rw [mem_found reached, matchP_iff]
          · rw [query, iterateFirst_root h maxY ordered fuel root high fits]
            exact run fuel le
        · refine ⟨[], List.nodup_nil, fun b => ?_, 1, empty fun _ _ => Or.inr fits⟩
          refine ⟨fun none => absurd none List.not_mem_nil, fun ⟨inside, _, lower, _⟩ => ?_⟩
          exact absurd (lt_of_le_of_lt (UInt64.le_iff_toNat_le.mp lower) (h.fits b inside)) fits

/-- Three nodes, of which the lowest is the root. -/
def State.three : State where
  tRoot := some 1
  tHeight := 0
  node
    | 1 => ⟨1, 0, none, pair .left (some 2) (some 3)⟩
    | 2 => ⟨0, 5, some 1, fun _ => none⟩
    | _ => ⟨1, 5, some 1, fun _ => none⟩

theorem holds_three
    : Holds .three (.node false 1 (pair .left (.node false 2 fun _ => .nil) (.node false 3 fun _ => .nil))) := by
  have leaf {b c : Addr} : (CTree.node false c fun _ => .nil).Has b ↔ b = c := by
    rw [CTree.has_node .left]
    simp
  have members {b : Addr}
      : (CTree.node false 1 (pair .left (.node false 2 fun _ => .nil) (.node false 3 fun _ => .nil))).Has b
        ↔ b = 1 ∨ b = 2 ∨ b = 3 := by
    rw [CTree.has_pair, leaf, leaf]
  constructor
  case layout =>
    refine ⟨rfl, fun d => ?_, ?_⟩
    · cases d <;> exact ⟨rfl, fun _ => ⟨rfl, trivial⟩⟩
    · simp [CTree.Distinct, CTree.traverse, pair, Dir.other]
  case parents => exact ⟨rfl, fun d => by cases d <;> exact ⟨rfl, fun _ => trivial⟩⟩
  case heap =>
    intro d
    cases d <;> exact ⟨fun b inside => Nat.zero_le _, fun e => ⟨fun b inside => by simp at inside, trivial⟩⟩
  case placed =>
    intro d
    cases d
    · refine ⟨fun b inside => ?_, fun e => ⟨fun b inside => by simp at inside, trivial⟩⟩
      obtain rfl := leaf.mp inside
      decide
    · refine ⟨fun b inside => ?_, fun e => ⟨fun b inside => by simp at inside, trivial⟩⟩
      obtain rfl := leaf.mp inside
      decide
  case low => decide
  case fits =>
    intro a inside
    rcases members.mp inside with rfl | rfl | rfl <;> decide
  case unique =>
    intro a b inA inB alike
    rcases members.mp inA with rfl | rfl | rfl <;> rcases members.mp inB with rfl | rfl | rfl
      <;> simp_all [State.Alike, State.three]

/-- Witness: a query of those with `x = 1`. -/
theorem query_exact_three
    : ∃ nodes : List Addr, nodes.Nodup
        ∧ (∀ a, a ∈ nodes ↔
          (CTree.node false 1 (pair .left (.node false 2 fun _ => .nil) (.node false 3 fun _ => .nil))).Has a
          ∧ (State.three.node a).nY ≤ 7 ∧ 1 ≤ (State.three.node a).nX ∧ (State.three.node a).nX ≤ 1)
        ∧ ∃ enough, ∀ fuel, enough ≤ fuel → query fuel .three 7 1 1 ⟨⟨0, 0, 0⟩, 0, 0, 0⟩ = some nodes :=
  query_exact holds_three 7 (by decide) _

example : query 20 .three 7 1 1 ⟨⟨0, 0, 0⟩, 0, 0, 0⟩ = some [3, 1] := by decide

end BSDLibC.Rpst
