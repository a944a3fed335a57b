import BSDLibC.ColorTree.Basic

/-! Black-height balance and the absence of red-red edges, for trees and for contexts.
The two halves of a plugged tree are judged separately, so a repair far below the root is
a statement about the focused subtree and its frames only.
-/

namespace BSDLibC.ColorTree

variable {α : Type}

/-- What a node adds to the black height of the paths through it. -/
def weight (red : Bool) : Nat := if red then 0 else 1

@[simp] theorem weight_red : weight true = 0 := rfl

@[simp] theorem weight_black : weight false = 1 := rfl

/-- Every path from the root to an empty subtree meets `n` black nodes. -/
def CTree.Balanced : CTree α → Nat → Prop
  | .nil, n => n = 0
  | .node red _ kids, n => ∃ k, n = k + weight red ∧ ∀ d, (kids d).Balanced k

/-- No red node has a red child. -/
def CTree.NoRedRed : CTree α → Prop
  | .nil => True
  | .node red _ kids => ∀ d, (red = true → (kids d).isRed = false) ∧ (kids d).NoRedRed

structure CTree.RedBlack (T : CTree α) : Prop where
  rootBlack : T.isRed = false
  noRedRed : T.NoRedRed
  balanced : ∃ n, T.Balanced n

@[simp] theorem CTree.balanced_nil {n : Nat} : (CTree.nil : CTree α).Balanced n ↔ n = 0 :=
  Iff.rfl

@[simp] theorem CTree.noRedRed_nil : (CTree.nil : CTree α).NoRedRed := trivial

theorem CTree.balanced_red {a : α} {kids : Dir → CTree α} {n : Nat}
    : (CTree.node true a kids).Balanced n ↔ ∀ d, (kids d).Balanced n := by
  simp [CTree.Balanced]

theorem CTree.balanced_black {a : α} {kids : Dir → CTree α} {n : Nat}
    : (CTree.node false a kids).Balanced (n + 1) ↔ ∀ d, (kids d).Balanced n := by
  simp [CTree.Balanced]

theorem CTree.balanced_node {red : Bool} {a : α} {kids : Dir → CTree α} {n : Nat}
    : (CTree.node red a kids).Balanced (n + weight red) ↔ ∀ d, (kids d).Balanced n := by
  cases red
  · exact CTree.balanced_black
  · exact CTree.balanced_red

theorem CTree.balanced_pair {red : Bool} {a : α} {d : Dir} {X Y : CTree α} {n : Nat}
    : (CTree.node red a (pair d X Y)).Balanced (n + weight red)
      ↔ X.Balanced n ∧ Y.Balanced n := by
  rw [CTree.balanced_node, Dir.forall_iff d, pair_self, pair_other]

theorem CTree.noRedRed_node {red : Bool} {a : α} {kids : Dir → CTree α}
    : (CTree.node red a kids).NoRedRed
      ↔ ∀ d, (red = true → (kids d).isRed = false) ∧ (kids d).NoRedRed :=
  Iff.rfl

theorem CTree.noRedRed_pair {red : Bool} {a : α} {d : Dir} {X Y : CTree α}
    : (CTree.node red a (pair d X Y)).NoRedRed
      ↔ ((red = true → X.isRed = false) ∧ X.NoRedRed)
        ∧ ((red = true → Y.isRed = false) ∧ Y.NoRedRed) := by
  rw [CTree.noRedRed_node, Dir.forall_iff d, pair_self, pair_other]

/-- A nonempty tree of black height zero is a red leaf. -/
theorem CTree.Balanced.zero_cases {T : CTree α} (h : T.Balanced 0) (noRed : T.NoRedRed)
    : T = .nil ∨ ∃ a, T = .node true a (fun _ => .nil) := by
  cases T with
  | nil => exact Or.inl rfl
  | node red a kids =>
      right
      obtain ⟨k, hk, below⟩ := h
      cases red with
      | false => simp at hk
      | true =>
          have hk0 : k = 0 := by simpa using hk.symm
          subst hk0
          refine ⟨a, ?_⟩
          congr 1
          funext d
          -- A red node's child is black, and a black node would raise the height.
          have black := (noRed d).1 rfl
          have flat := below d
          cases hc : kids d with
          | nil => rfl
          | node red' b kids' =>
              rw [hc] at black flat
              obtain ⟨j, hj, -⟩ := flat
              simp only [CTree.isRed_node] at black
              simp [black] at hj

/-- A tree of positive black height has a root. -/
theorem CTree.Balanced.exists_root {T : CTree α} {n : Nat} (h : T.Balanced (n + 1))
    : ∃ red a kids, T = .node red a kids := by
  cases T with
  | nil => simp at h
  | node red a kids => exact ⟨red, a, kids, rfl⟩

/-- A tree of black height `n` in the hole makes every path of the whole equally black. -/
def BalancedAt : Context α → Nat → Prop
  | [], _ => True
  | f :: up, n => f.sibling.Balanced n ∧ BalancedAt up (n + weight f.red)

/-- A root of colour `red` in the hole gives no red-red edge and a black overall root. -/
def NoRedRedAt : Context α → Bool → Prop
  | [], red => red = false
  | f :: up, red =>
      (f.red = true → red = false ∧ f.sibling.isRed = false)
      ∧ f.sibling.NoRedRed
      ∧ NoRedRedAt up f.red

/-- A black hole is never worse than a red one. -/
theorem NoRedRedAt.black {ctx : Context α} {red : Bool} (h : NoRedRedAt ctx red)
    : NoRedRedAt ctx false := by
  cases ctx with
  | nil => rfl
  | cons f up => exact ⟨fun hf => ⟨rfl, (h.1 hf).2⟩, h.2⟩

/-- The element at a frame's root does not matter for the heights. -/
theorem BalancedAt.reroot {inner up : Context α} {d : Dir} {red : Bool} {a : α} {S : CTree α}
    {n : Nat} (h : BalancedAt (inner ++ ⟨d, red, a, S⟩ :: up) n) (b : α)
    : BalancedAt (inner ++ ⟨d, red, b, S⟩ :: up) n := by
  induction inner generalizing n with
  | nil => exact h
  | cons f rest ih => exact ⟨h.1, ih h.2⟩

/-- The element at a frame's root does not matter for the colours. -/
theorem NoRedRedAt.reroot {inner up : Context α} {d : Dir} {red c : Bool} {a : α} {S : CTree α}
    (h : NoRedRedAt (inner ++ ⟨d, red, a, S⟩ :: up) c) (b : α)
    : NoRedRedAt (inner ++ ⟨d, red, b, S⟩ :: up) c := by
  induction inner generalizing c with
  | nil => exact h
  | cons f rest ih => exact ⟨h.1, h.2.1, ih h.2.2⟩

theorem balanced_plug (ctx : Context α) (T : CTree α)
    : (∃ n, (plug ctx T).Balanced n) ↔ ∃ n, T.Balanced n ∧ BalancedAt ctx n := by
  induction ctx generalizing T with
  | nil => simp [BalancedAt]
  | cons f up ih =>
      rw [plug_cons, ih]
      constructor
      · rintro ⟨n, filled, above⟩
        obtain ⟨k, rfl, -⟩ := id filled
        obtain ⟨hT, hS⟩ := CTree.balanced_pair.mp filled
        exact ⟨k, hT, hS, above⟩
      · rintro ⟨n, hT, hS, above⟩
        exact ⟨n + weight f.red, CTree.balanced_pair.mpr ⟨hT, hS⟩, above⟩

theorem noRedRed_plug (ctx : Context α) (T : CTree α)
    : (plug ctx T).NoRedRed ∧ (plug ctx T).isRed = false
      ↔ T.NoRedRed ∧ NoRedRedAt ctx T.isRed := by
  induction ctx generalizing T with
  | nil => simp [NoRedRedAt]
  | cons f up ih =>
      rw [plug_cons, ih, Frame.fill, CTree.noRedRed_pair]
      simp only [NoRedRedAt, CTree.isRed_node]
      tauto

/-- The red-black conditions of a whole tree, split at the focus. -/
theorem redBlack_plug (ctx : Context α) (T : CTree α)
    : (plug ctx T).RedBlack
      ↔ T.NoRedRed ∧ NoRedRedAt ctx T.isRed ∧ ∃ n, T.Balanced n ∧ BalancedAt ctx n := by
  rw [← balanced_plug, ← and_assoc, ← noRedRed_plug]
  constructor
  · intro h
    exact ⟨⟨h.noRedRed, h.rootBlack⟩, h.balanced⟩
  · rintro ⟨⟨h, black⟩, bal⟩
    exact ⟨black, h, bal⟩

end BSDLibC.ColorTree
