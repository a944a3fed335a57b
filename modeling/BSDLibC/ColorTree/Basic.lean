import Mathlib.Data.List.Nodup
import Mathlib.Tactic.Common

/-! Two-coloured binary trees with directional children, and their one-hole contexts.
Every fact is stated for an arbitrary direction, so a mirrored pair of cases is one lemma.
-/

namespace BSDLibC.ColorTree

inductive Dir
  | left
  | right
  deriving DecidableEq, Repr

def Dir.other : Dir → Dir
  | .left => .right
  | .right => .left

@[simp] theorem Dir.other_other (d : Dir) : d.other.other = d := by cases d <;> rfl

@[simp] theorem Dir.other_ne (d : Dir) : d.other ≠ d := by cases d <;> decide

@[simp] theorem Dir.ne_other (d : Dir) : d ≠ d.other := by cases d <;> decide

theorem Dir.eq_or_other (d e : Dir) : e = d ∨ e = d.other := by
  cases d <;> cases e <;> decide

theorem Dir.ne_iff {d e : Dir} : e ≠ d ↔ e = d.other := by
  cases d <;> cases e <;> decide

/-- A statement about both directions is a statement about one and its mirror image. -/
theorem Dir.forall_iff {p : Dir → Prop} (d : Dir) : (∀ e, p e) ↔ p d ∧ p d.other := by
  constructor
  · intro h
    exact ⟨h d, h d.other⟩
  · rintro ⟨hd, ho⟩ e
    rcases d.eq_or_other e with rfl | rfl
    · exact hd
    · exact ho

/-- The function that is `x` in direction `d` and `y` in the other one. -/
def pair {β : Type} (d : Dir) (x y : β) : Dir → β :=
  fun e => if e = d then x else y

@[simp] theorem pair_self {β : Type} (d : Dir) (x y : β) : pair d x y d = x := by
  simp [pair]

@[simp] theorem pair_other {β : Type} (d : Dir) (x y : β) : pair d x y d.other = y := by
  simp [pair]

theorem pair_swap {β : Type} (d : Dir) (x y : β) : pair d.other x y = pair d y x := by
  funext e
  rcases d.eq_or_other e with rfl | rfl <;> simp [pair]

theorem pair_eta {β : Type} (d : Dir) (f : Dir → β) : pair d (f d) (f d.other) = f := by
  funext e
  rcases d.eq_or_other e with rfl | rfl <;> simp

theorem pair_comp {β γ : Type} (g : β → γ) (d : Dir) (x y : β)
    : (fun e => g (pair d x y e)) = pair d (g x) (g y) := by
  funext e
  simp only [pair]
  split <;> rfl

inductive CTree (α : Type)
  | nil
  | node (red : Bool) (root : α) (kids : Dir → CTree α)

variable {α : Type}

/-- An empty tree counts as black. -/
def CTree.isRed : CTree α → Bool
  | .nil => false
  | .node red _ _ => red

/-- The elements of a tree in the order met when walking in direction `d`. -/
def CTree.traverse (d : Dir) : CTree α → List α
  | .nil => []
  | .node _ a kids => (kids d.other).traverse d ++ a :: (kids d).traverse d

@[simp] theorem CTree.isRed_nil : (CTree.nil : CTree α).isRed = false := rfl

@[simp] theorem CTree.isRed_node (red : Bool) (a : α) (kids : Dir → CTree α)
    : (CTree.node red a kids).isRed = red := rfl

@[simp] theorem CTree.traverse_nil (d : Dir) : (CTree.nil : CTree α).traverse d = [] := rfl

@[simp] theorem CTree.traverse_node (d : Dir) (red : Bool) (a : α) (kids : Dir → CTree α)
    : (CTree.node red a kids).traverse d
      = (kids d.other).traverse d ++ a :: (kids d).traverse d := rfl

/-- Walking the other way meets the same elements in reverse order. -/
theorem CTree.traverse_other (d : Dir) (T : CTree α)
    : T.traverse d.other = (T.traverse d).reverse := by
  induction T with
  | nil => rfl
  | node red a kids ih => simp [ih]

theorem CTree.mem_traverse_other {d : Dir} {T : CTree α} {x : α}
    : x ∈ T.traverse d.other ↔ x ∈ T.traverse d := by
  rw [CTree.traverse_other, List.mem_reverse]

theorem CTree.mem_traverse_iff (d e : Dir) {T : CTree α} {x : α}
    : x ∈ T.traverse d ↔ x ∈ T.traverse e := by
  rcases e.eq_or_other d with rfl | rfl
  · rfl
  · exact CTree.mem_traverse_other

theorem CTree.nodup_traverse_iff (d e : Dir) {T : CTree α}
    : (T.traverse d).Nodup ↔ (T.traverse e).Nodup := by
  rcases e.eq_or_other d with rfl | rfl
  · rfl
  · rw [CTree.traverse_other, List.nodup_reverse]

theorem CTree.traverse_congr {T T' : CTree α} (d e : Dir) (h : T'.traverse d = T.traverse d)
    : T'.traverse e = T.traverse e := by
  rcases d.eq_or_other e with rfl | rfl
  · exact h
  · rw [CTree.traverse_other, CTree.traverse_other, h]

theorem CTree.traverse_child_sublist (red : Bool) (a : α) (kids : Dir → CTree α) (d e : Dir)
    : ((kids d).traverse e).Sublist ((CTree.node red a kids).traverse e) := by
  rw [CTree.traverse_node]
  rcases e.eq_or_other d with rfl | rfl
  · exact (List.sublist_cons_self _ _).trans (List.sublist_append_right _ _)
  · exact List.sublist_append_left _ _

/-- One step on the way up: the hole is the child of `root` in direction `dir`. -/
structure Frame (α : Type) where
  dir : Dir
  red : Bool
  root : α
  sibling : CTree α

abbrev Context (α : Type) := List (Frame α)

def Frame.fill (f : Frame α) (T : CTree α) : CTree α :=
  .node f.red f.root (pair f.dir T f.sibling)

def plug : Context α → CTree α → CTree α
  | [], T => T
  | f :: up, T => plug up (f.fill T)

/-- The elements of a context met after the hole when walking in direction `d`. -/
def beyond (d : Dir) : Context α → List α
  | [] => []
  | f :: up =>
      if f.dir = d then beyond d up else f.root :: (f.sibling.traverse d ++ beyond d up)

@[simp] theorem plug_nil (T : CTree α) : plug [] T = T := rfl

@[simp] theorem plug_cons (f : Frame α) (up : Context α) (T : CTree α)
    : plug (f :: up) T = plug up (f.fill T) := rfl

theorem plug_append (ctx up : Context α) (T : CTree α)
    : plug (ctx ++ up) T = plug up (plug ctx T) := by
  induction ctx generalizing T with
  | nil => rfl
  | cons f rest ih => exact ih (f.fill T)

@[simp] theorem beyond_nil (d : Dir) : beyond d ([] : Context α) = [] := rfl

@[simp] theorem beyond_cons_same (d : Dir) (red : Bool) (a : α) (S : CTree α)
    (up : Context α)
    : beyond d (⟨d, red, a, S⟩ :: up) = beyond d up := by
  simp [beyond]

@[simp] theorem beyond_cons_other (d : Dir) (red : Bool) (a : α) (S : CTree α)
    (up : Context α)
    : beyond d.other (⟨d, red, a, S⟩ :: up)
      = a :: (S.traverse d.other ++ beyond d.other up) := by
  simp [beyond]

@[simp] theorem beyond_other_cons (d : Dir) (red : Bool) (a : α) (S : CTree α)
    (up : Context α)
    : beyond d (⟨d.other, red, a, S⟩ :: up) = a :: (S.traverse d ++ beyond d up) := by
  simp [beyond]

/-- Focusing on a child of the plugged tree moves one frame into the context. -/
theorem plug_child (ctx : Context α) (red : Bool) (a : α) (kids : Dir → CTree α) (d : Dir)
    : plug (⟨d, red, a, kids d.other⟩ :: ctx) (kids d) = plug ctx (.node red a kids) := by
  simp only [plug_cons, Frame.fill, pair_eta]

/-- A whole traversal is what lies before the hole, the plugged tree, and what lies after.
-/
theorem traverse_plug (d : Dir) (ctx : Context α) (T : CTree α)
    : (plug ctx T).traverse d
      = (beyond d.other ctx).reverse ++ (T.traverse d ++ beyond d ctx) := by
  induction ctx generalizing T with
  | nil => simp
  | cons f up ih =>
      obtain ⟨dir, red, a, sibling⟩ := f
      rcases d.eq_or_other dir with rfl | rfl
      · simp [ih, Frame.fill, beyond, CTree.traverse_other]
      · simp [ih, Frame.fill, beyond, pair_swap]

/-- Trees with the same traversal are interchangeable in every context. -/
theorem traverse_plug_congr {T T' : CTree α} (d e : Dir) (ctx : Context α)
    (h : T'.traverse d = T.traverse d)
    : (plug ctx T').traverse e = (plug ctx T).traverse e := by
  rw [traverse_plug, traverse_plug, CTree.traverse_congr d e h]

/-- A context entered always in direction `d` has nothing beyond it in that direction. -/
theorem beyond_eq_nil {d : Dir} {ctx : Context α} (h : ∀ f ∈ ctx, f.dir = d)
    : beyond d ctx = [] := by
  induction ctx with
  | nil => rfl
  | cons f up ih =>
      rw [beyond, if_pos (h f (by simp))]
      exact ih (fun g hg => h g (by simp [hg]))

/-- A nonempty tree has a first node in direction `d`, reached by walking the other way. -/
theorem CTree.exists_first {T : CTree α} (nonempty : T ≠ .nil) (d : Dir)
    : ∃ inner red a son, T = plug inner (.node red a (pair d son .nil))
        ∧ ∀ f ∈ inner, f.dir = d.other := by
  induction T with
  | nil => exact absurd rfl nonempty
  | node red a kids ih =>
      cases hk : kids d.other with
      | nil => exact ⟨[], red, a, kids d, by rw [plug_nil, ← hk, pair_eta], by simp⟩
      | node red' b kids' =>
          obtain ⟨inner, redS, s, son, same, dirs⟩ := ih d.other (by simp [hk])
          refine ⟨inner ++ [⟨d.other, red, a, kids d⟩], redS, s, son, ?_, ?_⟩
          · have whole := plug_child [] red a kids d.other
            rw [Dir.other_other] at whole
            rw [plug_append, ← same, whole, plug_nil]
          · intro f hf
            rcases List.mem_append.mp hf with hf | hf
            · exact dirs f hf
            · rw [List.mem_singleton.mp hf]

end BSDLibC.ColorTree
