import BSDLibC.ColorTree.Distinct
import BSDLibC.LinkedTree.Layout
import Mathlib.Order.Defs.LinearOrder

/-! Trees that are heaps for one key and search trees for the digits of another. At every level
`side` says on which side of a node an element belongs, and the level falls by one with every step
down. An insertion carries the greater of two elements on, and a removal lifts the smaller child.
-/

namespace BSDLibC.PriorityTree
open BSDLibC.ColorTree BSDLibC.LinkedTree

variable {α β : Type} [LinearOrder β]

/-- No element is smaller than one above it. -/
def HeapOrdered (rank : α → β) : CTree α → Prop
  | .nil => True
  | .node _ a kids => ∀ d, (∀ b, (kids d).Has b → rank a ≤ rank b) ∧ HeapOrdered rank (kids d)

/-- Every element is on the side where it belongs, of every node above it. -/
def Placed (side : Nat → α → Dir) : Nat → CTree α → Prop
  | _, .nil => True
  | k, .node _ _ kids => ∀ d, (∀ b, (kids d).Has b → side k b = d) ∧ Placed side (k - 1) (kids d)

/-- The element that stays, and the one that is carried on. -/
def exchange (rank : α → β) (n a : α) : α × α := if rank n < rank a then (n, a) else (a, n)

def insertAt (rank : α → β) (side : Nat → α → Dir) : Nat → α → CTree α → CTree α
  | _, n, .nil => .node false n (fun _ => .nil)
  | k, n, .node red a kids =>
      let (top, carried) := exchange rank n a
      .node red top (pair (side k carried)
        (insertAt rank side (k - 1) carried (kids (side k carried))) (kids (side k carried).other))

/-- The side of the smaller of two children. -/
def chosen (rank : α → β) (kids : Dir → CTree α) : Dir :=
  match link (kids .left), link (kids .right) with
  | none, _ => .right
  | some _, none => .left
  | some a, some b => if rank b < rank a then .right else .left

/-- What is left of a tree without its root. -/
def dropRoot (rank : α → β) : CTree α → CTree α
  | .nil => .nil
  | .node _ _ kids =>
      match kids (chosen rank kids) with
      | .nil => .nil
      | .node red c _ =>
          .node red c (pair (chosen rank kids) (dropRoot rank (kids (chosen rank kids)))
            (kids (chosen rank kids).other))

variable {rank : α → β} {side : Nat → α → Dir} {k : Nat} {n a : α} {T T' : CTree α}
  {kids : Dir → CTree α} {red : Bool}

theorem HeapOrdered.root_le (h : HeapOrdered rank (.node red a kids)) {b : α}
    (inside : (CTree.node red a kids).Has b)
    : rank a ≤ rank b := by
  rcases (CTree.has_node .left).mp inside with rfl | left | right
  · exact le_rfl
  · exact (h _).1 b left
  · exact (h _).1 b right

theorem HeapOrdered.congr {rank' : α → β} (h : HeapOrdered rank T) (agree : ∀ b, T.Has b → rank' b = rank b)
    : HeapOrdered rank' T := by
  induction T with
  | nil => trivial
  | node red a kids ih =>
      intro d
      have below {b : α} (inside : (kids d).Has b) : rank' b = rank b := agree b (CTree.has_child inside)
      refine ⟨fun b inside => ?_, ih d (h d).2 fun b inside => below inside⟩
      rw [agree a CTree.has_root, below inside]
      exact (h d).1 b inside

theorem Placed.congr {side' : Nat → α → Dir} (h : Placed side k T)
    (agree : ∀ k b, T.Has b → side' k b = side k b)
    : Placed side' k T := by
  induction T generalizing k with
  | nil => trivial
  | node red a kids ih =>
      intro d
      have below (k : Nat) {b : α} (inside : (kids d).Has b) : side' k b = side k b :=
        agree k b (CTree.has_child inside)
      exact ⟨fun b inside => (below k inside).trans ((h d).1 b inside),
        ih d (h d).2 fun k b inside => below k inside⟩

-----------------------------------------------------------------------------------------
-- Insertion
-----------------------------------------------------------------------------------------

theorem exchange_cases (rank : α → β) (n a : α)
    : exchange rank n a = (n, a) ∧ rank n ≤ rank a ∨ exchange rank n a = (a, n) ∧ rank a ≤ rank n := by
  rw [exchange]
  split
  next less => exact Or.inl ⟨rfl, less.le⟩
  next more => exact Or.inr ⟨rfl, not_lt.mp more⟩

theorem exchange_le (rank : α → β) (n a : α) : rank (exchange rank n a).1 ≤ rank (exchange rank n a).2 := by
  rcases exchange_cases rank n a with ⟨same, le⟩ | ⟨same, le⟩ <;> rw [same] <;> exact le

theorem exchange_fst_le (rank : α → β) (n a : α) : rank (exchange rank n a).1 ≤ rank a := by
  rcases exchange_cases rank n a with ⟨same, le⟩ | ⟨same, le⟩ <;> rw [same]
  exact le

theorem insertAt_node (n : α)
    : insertAt rank side k n (.node red a kids)
      = .node red (exchange rank n a).1
          (pair (side k (exchange rank n a).2)
            (insertAt rank side (k - 1) (exchange rank n a).2 (kids (side k (exchange rank n a).2)))
            (kids (side k (exchange rank n a).2).other)) := by
  rw [insertAt]

theorem exchange_eq (rank : α → β) (n a b : α)
    : b = (exchange rank n a).1 ∨ b = (exchange rank n a).2 ↔ b = n ∨ b = a := by
  rcases exchange_cases rank n a with ⟨same, -⟩ | ⟨same, -⟩ <;> rw [same]
  exact or_comm

@[simp] theorem has_insertAt {b : α} : (insertAt rank side k n T).Has b ↔ b = n ∨ T.Has b := by
  induction T generalizing k n with
  | nil =>
      rw [insertAt, CTree.has_node .left]
      simp
  | node red a kids ih =>
      have both := exchange_eq rank n a b
      rw [insertAt_node, CTree.has_pair, ih, CTree.has_node (side k (exchange rank n a).2)]
      tauto

theorem distinct_insertAt (distinct : T.Distinct) (new : ¬ T.Has n) : (insertAt rank side k n T).Distinct := by
  induction T generalizing k n with
  | nil =>
      rw [insertAt, CTree.distinct_node .left]
      simp
  | node red a kids ih =>
      have rootKids (d : Dir) : ¬ (kids d).Has a := by
        obtain ⟨-, -, absent, -⟩ := (CTree.distinct_node d).mp distinct
        exact absent
      have newKids (d : Dir) : ¬ (kids d).Has n := fun inside => new (CTree.has_child inside)
      have ne : n ≠ a := by
        rintro rfl
        exact new CTree.has_root
      rw [insertAt_node, CTree.distinct_pair]
      set d := side k (exchange rank n a).2
      obtain ⟨near, far, -, -, apart⟩ := (CTree.distinct_node d).mp distinct
      rcases exchange_cases rank n a with ⟨same, -⟩ | ⟨same, -⟩ <;> simp only [same, has_insertAt]
      · refine ⟨ih d near (rootKids d), far, ?_, newKids _, ?_⟩
        · rintro (equal | inside)
          · exact ne equal
          · exact newKids d inside
        · rintro x (rfl | inside)
          · exact rootKids _
          · exact apart x inside
      · refine ⟨ih d near (newKids d), far, ?_, rootKids _, ?_⟩
        · rintro (equal | inside)
          · exact ne equal.symm
          · exact rootKids d inside
        · rintro x (rfl | inside)
          · exact newKids _
          · exact apart x inside

theorem heapOrdered_insertAt (heap : HeapOrdered rank T) : HeapOrdered rank (insertAt rank side k n T) := by
  induction T generalizing k n with
  | nil =>
      intro d
      exact ⟨by simp, trivial⟩
  | node red a kids ih =>
      rw [insertAt_node]
      have top := exchange_fst_le rank n a
      refine (Dir.forall_iff (side k (exchange rank n a).2)).mpr ⟨?_, ?_⟩
      · rw [pair_self]
        refine ⟨fun b inside => ?_, ih _ (heap _).2⟩
        rcases has_insertAt.mp inside with rfl | old
        · exact exchange_le rank n a
        · exact top.trans ((heap _).1 b old)
      · rw [pair_other]
        exact ⟨fun b inside => top.trans ((heap _).1 b inside), (heap _).2⟩

theorem placed_insertAt (placed : Placed side k T) : Placed side k (insertAt rank side k n T) := by
  induction T generalizing k n with
  | nil =>
      intro d
      exact ⟨by simp, trivial⟩
  | node red a kids ih =>
      rw [insertAt_node]
      refine (Dir.forall_iff (side k (exchange rank n a).2)).mpr ⟨?_, ?_⟩
      · rw [pair_self]
        refine ⟨fun b inside => ?_, ih _ (placed _).2⟩
        rcases has_insertAt.mp inside with rfl | old
        · rfl
        · exact (placed _).1 b old
      · rw [pair_other]
        exact placed _

-----------------------------------------------------------------------------------------
-- Removal
-----------------------------------------------------------------------------------------

/-- There is another child only if there is a chosen one, and it is not smaller. -/
theorem chosen_cases (rank : α → β) (kids : Dir → CTree α)
    : kids (chosen rank kids) = .nil ∧ kids (chosen rank kids).other = .nil
      ∨ ∃ red c ckids, kids (chosen rank kids) = .node red c ckids
        ∧ ∀ b, link (kids (chosen rank kids).other) = some b → rank c ≤ rank b := by
  rw [chosen]
  cases left : kids .left with
  | nil =>
      cases right : kids .right with
      | nil => exact Or.inl ⟨right, left⟩
      | node red c ckids => exact Or.inr ⟨red, c, ckids, right, by simp [Dir.other, left]⟩
  | node red a akids =>
      cases right : kids .right with
      | nil => exact Or.inr ⟨red, a, akids, left, by simp [Dir.other, right]⟩
      | node red' c ckids =>
          refine Or.inr ?_
          simp only [link_node]
          split
          next less =>
            refine ⟨red', c, ckids, right, fun b same => ?_⟩
            rw [Dir.other, left, link_node] at same
            cases same
            exact less.le
          next more =>
            refine ⟨red, a, akids, left, fun b same => ?_⟩
            rw [Dir.other, right, link_node] at same
            cases same
            exact not_lt.mp more

theorem dropRoot_nil (none : kids (chosen rank kids) = .nil) : dropRoot rank (.node red a kids) = .nil := by
  rw [dropRoot, none]

theorem dropRoot_node {red' : Bool} {c : α} {ckids : Dir → CTree α}
    (some : kids (chosen rank kids) = .node red' c ckids)
    : dropRoot rank (.node red a kids)
      = .node red' c (pair (chosen rank kids) (dropRoot rank (.node red' c ckids))
          (kids (chosen rank kids).other)) := by
  rw [dropRoot, some]

theorem has_either (d : Dir) {b : α}
    : (kids .left).Has b ∨ (kids .right).Has b ↔ (kids d).Has b ∨ (kids d.other).Has b := by
  cases d
  · rfl
  · exact or_comm

theorem has_dropRoot {b : α}
    : (dropRoot rank (.node red a kids)).Has b ↔ (kids .left).Has b ∨ (kids .right).Has b := by
  generalize whole : CTree.node red a kids = T
  induction T generalizing red a kids with
  | nil => cases whole
  | node red a kids ih =>
      cases whole
      rw [has_either (chosen rank kids)]
      rcases chosen_cases rank kids with ⟨here, there⟩ | ⟨red', c, ckids, here, -⟩
      · rw [dropRoot_nil here, here, there]
        simp
      · have below := ih (chosen rank kids) here.symm
        rw [here] at below
        rw [dropRoot_node here, CTree.has_pair, below, here, CTree.has_node .left]
        simp only [Dir.other, or_assoc]

theorem has_of_dropRoot {b : α} (inside : (dropRoot rank T).Has b) : T.Has b := by
  cases T with
  | nil => exact inside
  | node red a kids =>
      rcases has_dropRoot.mp inside with left | right
      · exact CTree.has_child left
      · exact CTree.has_child right

theorem distinct_dropRoot (distinct : T.Distinct) : (dropRoot rank T).Distinct := by
  induction T with
  | nil => exact distinct
  | node red a kids ih =>
      rcases chosen_cases rank kids with ⟨here, -⟩ | ⟨red', c, ckids, here, -⟩
      · rw [dropRoot_nil here]
        exact CTree.distinct_nil
      · obtain ⟨near, far, -, -, apart⟩ := (CTree.distinct_node (chosen rank kids)).mp distinct
        have below := ih (chosen rank kids) near
        rw [here] at near apart below
        rw [dropRoot_node here, CTree.distinct_pair]
        refine ⟨below, far, fun inside => ?_, apart c CTree.has_root, fun x inside => ?_⟩
        · obtain ⟨-, -, left, right, -⟩ := (CTree.distinct_node .left).mp near
          exact (has_dropRoot.mp inside).elim left right
        · exact apart x (has_of_dropRoot inside)

theorem heapOrdered_dropRoot (heap : HeapOrdered rank T) : HeapOrdered rank (dropRoot rank T) := by
  induction T with
  | nil => exact heap
  | node red a kids ih =>
      rcases chosen_cases rank kids with ⟨here, -⟩ | ⟨red', c, ckids, here, smaller⟩
      · rw [dropRoot_nil here]
        trivial
      · have below := ih (chosen rank kids) (heap _).2
        have near := (heap (chosen rank kids)).2
        rw [here] at below near
        rw [dropRoot_node here]
        refine (Dir.forall_iff (chosen rank kids)).mpr ⟨?_, ?_⟩
        · rw [pair_self]
          exact ⟨fun b inside => near.root_le (has_of_dropRoot inside), below⟩
        · rw [pair_other]
          have far := (heap (chosen rank kids).other).2
          refine ⟨fun b inside => ?_, far⟩
          cases sibling : kids (chosen rank kids).other with
          | nil =>
              rw [sibling] at inside
              exact absurd inside CTree.not_has_nil
          | node redS e ekids =>
              rw [sibling] at inside far smaller
              exact (smaller e rfl).trans (far.root_le inside)

theorem placed_dropRoot (placed : Placed side k T) : Placed side k (dropRoot rank T) := by
  induction T generalizing k with
  | nil => exact placed
  | node red a kids ih =>
      rcases chosen_cases rank kids with ⟨here, -⟩ | ⟨red', c, ckids, here, -⟩
      · rw [dropRoot_nil here]
        trivial
      · have below := ih (chosen rank kids) (placed _).2
        have near := (placed (chosen rank kids)).1
        rw [here] at below near
        rw [dropRoot_node here]
        refine (Dir.forall_iff (chosen rank kids)).mpr ⟨?_, ?_⟩
        · rw [pair_self]
          exact ⟨fun b inside => near b (has_of_dropRoot inside), below⟩
        · rw [pair_other]
          exact placed _

-----------------------------------------------------------------------------------------
-- Below a hole
-----------------------------------------------------------------------------------------

theorem HeapOrdered.replace {ctx : Context α} (fewer : ∀ b, T'.Has b → T.Has b)
    (local_ : HeapOrdered rank T → HeapOrdered rank T') (heap : HeapOrdered rank (plug ctx T))
    : HeapOrdered rank (plug ctx T') := by
  induction ctx generalizing T T' with
  | nil => exact local_ heap
  | cons f up ih =>
      refine ih (fun b inside => ?_) (fun filled => ?_) heap
      · rw [Frame.fill, CTree.has_pair] at inside ⊢
        exact inside.imp_right (Or.imp_left (fewer b))
      · refine (Dir.forall_iff f.dir).mpr ?_
        have both := (Dir.forall_iff f.dir).mp filled
        rw [pair_self, pair_other] at both ⊢
        exact ⟨⟨fun b inside => both.1.1 b (fewer b inside), local_ both.1.2⟩, both.2⟩

theorem Placed.replace {ctx : Context α} (fewer : ∀ b, T'.Has b → T.Has b)
    (local_ : ∀ k, Placed side k T → Placed side k T') (placed : Placed side k (plug ctx T))
    : Placed side k (plug ctx T') := by
  induction ctx generalizing T T' with
  | nil => exact local_ k placed
  | cons f up ih =>
      refine ih (fun b inside => ?_) (fun level filled => ?_) placed
      · rw [Frame.fill, CTree.has_pair] at inside ⊢
        exact inside.imp_right (Or.imp_left (fewer b))
      · refine (Dir.forall_iff f.dir).mpr ?_
        have both := (Dir.forall_iff f.dir).mp filled
        rw [pair_self, pair_other] at both ⊢
        exact ⟨⟨fun b inside => both.1.1 b (fewer b inside), local_ _ both.1.2⟩, both.2⟩

end BSDLibC.PriorityTree
