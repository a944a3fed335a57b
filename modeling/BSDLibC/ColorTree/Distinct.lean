import BSDLibC.ColorTree.Basic

/-! Membership and separation of the pieces of a tree focused at a hole. Each element of
a plugged tree with distinct elements lies either in the focused subtree or in one frame.
-/

namespace BSDLibC.ColorTree

variable {α : Type}

def CTree.Has (T : CTree α) (x : α) : Prop := x ∈ T.traverse .right

/-- The element is the root or in the sibling tree of some frame. -/
def Has (ctx : Context α) (x : α) : Prop := ∃ d, x ∈ beyond d ctx

theorem CTree.mem_traverse {d : Dir} {T : CTree α} {x : α} : x ∈ T.traverse d ↔ T.Has x :=
  CTree.mem_traverse_iff d .right

@[simp] theorem CTree.not_has_nil {x : α} : ¬ (CTree.nil : CTree α).Has x := by simp [CTree.Has]

theorem CTree.has_node {red : Bool} {a x : α} {kids : Dir → CTree α} (d : Dir)
    : (CTree.node red a kids).Has x ↔ x = a ∨ (kids d).Has x ∨ (kids d.other).Has x := by
  rw [← CTree.mem_traverse (d := d), CTree.traverse_node, List.mem_append, List.mem_cons,
    CTree.mem_traverse, CTree.mem_traverse]
  tauto

theorem CTree.has_child {red : Bool} {a x : α} {kids : Dir → CTree α} {d : Dir}
    (h : (kids d).Has x)
    : (CTree.node red a kids).Has x :=
  (CTree.has_node d).mpr (Or.inr (Or.inl h))

theorem CTree.has_root {red : Bool} {a : α} {kids : Dir → CTree α}
    : (CTree.node red a kids).Has a :=
  (CTree.has_node .left).mpr (Or.inl rfl)

theorem CTree.has_pair {red : Bool} {a x : α} {d : Dir} {X Y : CTree α}
    : (CTree.node red a (pair d X Y)).Has x ↔ x = a ∨ X.Has x ∨ Y.Has x := by
  rw [CTree.has_node d, pair_self, pair_other]

@[simp] theorem not_has_nil {x : α} : ¬ Has ([] : Context α) x := by simp [Has]

theorem has_iff {ctx : Context α} {x : α} (d : Dir)
    : Has ctx x ↔ x ∈ beyond d ctx ∨ x ∈ beyond d.other ctx := by
  constructor
  · rintro ⟨e, h⟩
    rcases d.eq_or_other e with rfl | rfl
    · exact Or.inl h
    · exact Or.inr h
  · rintro (h | h)
    · exact ⟨_, h⟩
    · exact ⟨_, h⟩

theorem has_cons {f : Frame α} {up : Context α} {x : α}
    : Has (f :: up) x ↔ x = f.root ∨ f.sibling.Has x ∨ Has up x := by
  obtain ⟨d, red, a, S⟩ := f
  rw [has_iff d, has_iff d, beyond_cons_same, beyond_cons_other, List.mem_cons,
    List.mem_append, CTree.mem_traverse]
  tauto

theorem has_plug {ctx : Context α} {T : CTree α} {x : α}
    : (plug ctx T).Has x ↔ T.Has x ∨ Has ctx x := by
  rw [← CTree.mem_traverse (d := .right), traverse_plug, List.mem_append, List.mem_append,
    List.mem_reverse, CTree.mem_traverse, has_iff .right]
  tauto

/-- All elements of a tree are different. -/
def CTree.Distinct (T : CTree α) : Prop := (T.traverse .right).Nodup

/-- All elements of the frames are different. -/
def Distinct : Context α → Prop
  | [] => True
  | f :: up =>
      f.sibling.Distinct
      ∧ ¬ f.sibling.Has f.root
      ∧ ¬ Has up f.root
      ∧ (∀ x, f.sibling.Has x → ¬ Has up x)
      ∧ Distinct up

@[simp] theorem CTree.distinct_nil : (CTree.nil : CTree α).Distinct := by simp [CTree.Distinct]

theorem CTree.nodup_traverse {d : Dir} {T : CTree α} : (T.traverse d).Nodup ↔ T.Distinct :=
  CTree.nodup_traverse_iff d .right

theorem CTree.distinct_node {red : Bool} {a : α} {kids : Dir → CTree α} (d : Dir)
    : (CTree.node red a kids).Distinct
      ↔ (kids d).Distinct
        ∧ (kids d.other).Distinct
        ∧ ¬ (kids d).Has a
        ∧ ¬ (kids d.other).Has a
        ∧ ∀ x, (kids d).Has x → ¬ (kids d.other).Has x := by
  rw [← CTree.nodup_traverse (d := d), CTree.traverse_node, List.nodup_append, List.nodup_cons]
  simp only [CTree.nodup_traverse, CTree.mem_traverse, List.mem_cons]
  constructor
  · rintro ⟨far, ⟨absent, near⟩, apart⟩
    refine ⟨near, far, absent, fun h => apart _ h _ (Or.inl rfl) rfl, ?_⟩
    intro x hx ho
    exact apart x ho x (Or.inr hx) rfl
  · rintro ⟨near, far, absent, absent', apart⟩
    refine ⟨far, ⟨absent, near⟩, ?_⟩
    rintro x hx y (rfl | hy) rfl
    · exact absent' hx
    · exact apart x hy hx

theorem CTree.distinct_pair {red : Bool} {a : α} {d : Dir} {X Y : CTree α}
    : (CTree.node red a (pair d X Y)).Distinct
      ↔ X.Distinct ∧ Y.Distinct ∧ ¬ X.Has a ∧ ¬ Y.Has a ∧ ∀ x, X.Has x → ¬ Y.Has x := by
  rw [CTree.distinct_node d, pair_self, pair_other]

/-- A plugged tree has distinct elements when both halves do and they share none. -/
theorem distinct_plug (ctx : Context α) (T : CTree α)
    : (plug ctx T).Distinct
      ↔ T.Distinct ∧ Distinct ctx ∧ ∀ x, T.Has x → ¬ Has ctx x := by
  induction ctx generalizing T with
  | nil => simp [Distinct]
  | cons f up ih =>
      rw [plug_cons, ih, Frame.fill, CTree.distinct_pair]
      simp only [CTree.has_pair, has_cons, Distinct]
      constructor
      · rintro ⟨⟨hT, hS, rT, rS, apart⟩, hup, sep⟩
        refine ⟨hT, ⟨hS, rS, sep _ (Or.inl rfl), ?_, hup⟩, ?_⟩
        · intro x hx
          exact sep x (Or.inr (Or.inr hx))
        · rintro x hx (rfl | hs | hu)
          · exact rT hx
          · exact apart x hx hs
          · exact sep x (Or.inr (Or.inl hx)) hu
      · rintro ⟨hT, ⟨hS, rS, rup, sepS, hup⟩, sep⟩
        refine ⟨⟨hT, hS, ?_, rS, ?_⟩, hup, ?_⟩
        · intro h
          exact sep _ h (Or.inl rfl)
        · intro x hx hs
          exact sep x hx (Or.inr (Or.inl hs))
        · rintro x (rfl | hx | hx)
          · exact rup
          · exact fun h => sep x hx (Or.inr (Or.inr h))
          · exact sepS x hx

theorem distinct_plug_congr {T T' : CTree α} (d : Dir) (ctx : Context α)
    (h : T'.traverse d = T.traverse d) (distinct : (plug ctx T).Distinct)
    : (plug ctx T').Distinct := by
  rw [CTree.Distinct, traverse_plug_congr d .right ctx h]
  exact distinct

-----------------------------------------------------------------------------------------
-- Searching a traversal by the sign of a probe that grows along it
-----------------------------------------------------------------------------------------

/-- Once a probe is not negative it is positive from the next element on. -/
def Probes (probe : α → Int) (elements : List α) : Prop :=
  elements.Pairwise (fun a b => 0 ≤ probe a → 0 < probe b)

variable {probe : α → Int} {a : α} {xs ys : List α}

theorem Probes.left (h : Probes probe (xs ++ a :: ys)) : Probes probe xs :=
  (List.pairwise_append.mp h).1

theorem Probes.right (h : Probes probe (xs ++ a :: ys)) : Probes probe ys :=
  (List.pairwise_cons.mp (List.pairwise_append.mp h).2.1).2

/-- Elements before one that is not too large are too small. -/
theorem Probes.neg_left (h : Probes probe (xs ++ a :: ys)) (le : probe a ≤ 0)
    : ∀ x ∈ xs, probe x < 0 := by
  intro x hx
  have apart := (List.pairwise_append.mp h).2.2 x hx a (by simp)
  omega

/-- Elements after one that is not too small are too large. -/
theorem Probes.pos_right (h : Probes probe (xs ++ a :: ys)) (ge : 0 ≤ probe a)
    : ∀ x ∈ ys, 0 < probe x := by
  intro x hx
  exact (List.pairwise_cons.mp (List.pairwise_append.mp h).2.1).1 x hx ge

/-- Walking the other way meets a decreasing probe, whose negation grows. -/
theorem Probes.reverse (h : Probes probe xs) : Probes (fun x => - probe x) xs.reverse := by
  rw [Probes, List.pairwise_reverse]
  refine List.Pairwise.imp ?_ h
  intro a b grows le
  omega

/-- The first element that is not too small, found from the sign at one element. -/
theorem find?_nonneg_of_neg (h : Probes probe (xs ++ a :: ys)) (neg : probe a < 0)
    : (xs ++ a :: ys).find? (fun x => 0 ≤ probe x) = ys.find? (fun x => 0 ≤ probe x) := by
  have none : xs.find? (fun x => decide (0 ≤ probe x)) = .none := by
    rw [List.find?_eq_none]
    intro x hx
    have := h.neg_left (by omega) x hx
    simpa using this
  have fails : ¬ 0 ≤ probe a := by omega
  simp [none, fails]

theorem find?_nonneg_of_zero (h : Probes probe (xs ++ a :: ys)) (zero : probe a = 0)
    : (xs ++ a :: ys).find? (fun x => 0 ≤ probe x) = some a := by
  have none : xs.find? (fun x => decide (0 ≤ probe x)) = .none := by
    rw [List.find?_eq_none]
    intro x hx
    have := h.neg_left (by omega) x hx
    simpa using this
  simp [none, zero]

theorem find?_nonneg_of_pos (probe : α → Int) (xs ys : List α) (pos : 0 < probe a)
    : (xs ++ a :: ys).find? (fun x => 0 ≤ probe x)
      = some ((xs.find? (fun x => 0 ≤ probe x)).getD a) := by
  have holds : 0 ≤ probe a := by omega
  rw [List.find?_append, List.find?_cons_of_pos (by simpa using holds)]
  cases xs.find? (fun x => decide (0 ≤ probe x)) <;> simp

/-- The element where the probe vanishes, found from the sign at one element. -/
theorem find?_zero_of_neg (h : Probes probe (xs ++ a :: ys)) (neg : probe a < 0)
    : (xs ++ a :: ys).find? (fun x => probe x = 0) = ys.find? (fun x => probe x = 0) := by
  have none : xs.find? (fun x => decide (probe x = 0)) = .none := by
    rw [List.find?_eq_none]
    intro x hx
    have := h.neg_left (by omega) x hx
    simp only [decide_eq_true_eq]
    omega
  have fails : ¬ probe a = 0 := by omega
  simp [none, fails]

theorem find?_zero_of_pos (h : Probes probe (xs ++ a :: ys)) (pos : 0 < probe a)
    : (xs ++ a :: ys).find? (fun x => probe x = 0) = xs.find? (fun x => probe x = 0) := by
  have none : ys.find? (fun x => decide (probe x = 0)) = .none := by
    rw [List.find?_eq_none]
    intro x hx
    have := h.pos_right (by omega) x hx
    simp only [decide_eq_true_eq]
    omega
  have fails : ¬ probe a = 0 := by omega
  simp [none, fails]

theorem find?_zero_of_zero (h : Probes probe (xs ++ a :: ys)) (zero : probe a = 0)
    : (xs ++ a :: ys).find? (fun x => probe x = 0) = some a := by
  have none : xs.find? (fun x => decide (probe x = 0)) = .none := by
    rw [List.find?_eq_none]
    intro x hx
    have := h.neg_left (by omega) x hx
    simp only [decide_eq_true_eq]
    omega
  simp [none, zero]

end BSDLibC.ColorTree
