import BSDLibC.Radix.Tree

/-! Well-formed trees: leafs at the bottom only, no empty node, and in every entry the tags of the
leafs below it.
-/

namespace BSDLibC.Radix

variable {P : Type} {n : Fin 16 → Entry P} {e x : Entry P} {f : Frame P} {up ctx : List (Frame P)}
  {h : Nat}

-----------------------------------------------------------------------------------------
-- Sums over a node
-----------------------------------------------------------------------------------------

/-- One tag of an entry. -/
def Entry.Tagged (e : Entry P) (b : Nat) : Prop := e.tagmask.getLsbD b = true

theorem getLsbD_sumTags (n : Fin 16 → Entry P) (b : Nat)
    : (sumTags n).getLsbD b = true ↔ ∃ i, (n i).Tagged b := by
  have fold (is : List (Fin 16))
      : (is.foldr (fun i tags => (n i).tagmask ||| tags) 0).getLsbD b = true
        ↔ ∃ i ∈ is, (n i).Tagged b := by
    induction is with
    | nil => simp
    | cons i is ih =>
        rw [List.foldr_cons, BitVec.getLsbD_or, Bool.or_eq_true, ih, List.exists_mem_cons_iff]
        rfl
  rw [sumTags, fold]
  simp

theorem tags_ext {s t : Tags} (same : ∀ b, s.getLsbD b = true ↔ t.getLsbD b = true) : s = t := by
  apply BitVec.eq_of_getLsbD_eq
  intro b _
  exact Bool.eq_iff_iff.mpr (same b)

theorem and_eq_zero_iff {s t : Tags}
    : s &&& t = 0 ↔ ∀ b, s.getLsbD b = true → ¬ t.getLsbD b = true := by
  constructor
  · intro zero b inS inT
    have bit : (s &&& t).getLsbD b = true := by simp [inS, inT]
    rw [zero] at bit
    simp at bit
  · intro apart
    refine tags_ext fun b => ?_
    have := apart b
    simp only [BitVec.getLsbD_and, Bool.and_eq_true, BitVec.ofNat_eq_ofNat, BitVec.getLsbD_zero,
      Bool.false_eq_true, iff_false, not_and]
    exact this

theorem Entry.isZero_iff : e.isZero = true ↔ e = .null 0 := by
  cases e <;> simp [Entry.isZero, Entry.isNull, Entry.tagmask]

theorem sumNonzero_iff : sumNonzero n = true ↔ ∃ i, n i ≠ .null 0 := by
  have some_entry (i : Fin 16) : (!(n i).isZero) = true ↔ n i ≠ .null 0 := by
    rw [Ne, ← Entry.isZero_iff, Bool.not_eq_true', Bool.not_eq_true]
  rw [sumNonzero, List.any_eq_true]
  refine exists_congr fun i => ?_
  rw [some_entry i]
  simp

theorem sumNonzero_false : sumNonzero n = false ↔ ∀ i, n i = .null 0 := by
  rw [← Bool.not_eq_true, sumNonzero_iff]
  simp

-----------------------------------------------------------------------------------------
-- Well-formed entries
-----------------------------------------------------------------------------------------

/-- An entry that stands `h` nodes above the leafs. -/
def Wf : Nat → Entry P → Prop
  | _, .null tags => tags = 0
  | 0, .leaf _ _ => True
  | 0, .node _ _ => False
  | _ + 1, .leaf _ _ => False
  | h + 1, .node tags n => (∀ i, Wf h (n i)) ∧ sumNonzero n = true ∧ tags = sumTags n

theorem wf_null (h : Nat) : Wf h (.null 0 : Entry P) := by
  cases h <;> rfl

/-- The node that the code keeps for some entries: none if they are all empty. -/
def settle (n : Fin 16 → Entry P) : Entry P :=
  if sumNonzero n then .node (sumTags n) n else .null 0

theorem Wf.settle (kids : ∀ i, Wf h (n i)) : Wf (h + 1) (settle n) := by
  rw [Radix.settle]
  split
  · next nonzero => exact ⟨kids, nonzero, rfl⟩
  · exact wf_null (h + 1)

/-- A tree whose nodes from a slot up are settled again. -/
def rebuild : List (Frame P) → Entry P → Entry P
  | [], e => e
  | f :: up, e => rebuild up (settle (f.put e))

/-- The other slots of the nodes around a slot at height `h`. -/
def Around : Nat → List (Frame P) → Prop
  | _, [] => True
  | h, f :: up => (∀ j, j ≠ f.i → Wf h (f.n j)) ∧ Around (h + 1) up

theorem Around.put (h' : Around h (f :: up)) (wf : Wf h e) : ∀ j, Wf h (f.put e j) := by
  intro j
  by_cases here : j = f.i
  · rw [here, Frame.put_self]
    exact wf
  · rw [Frame.put_ne here]
    exact h'.1 j here

theorem Around.rebuild (h' : Around h ctx) (wf : Wf h e) : Wf (h + ctx.length) (rebuild ctx e) := by
  induction ctx generalizing h e with
  | nil => exact wf
  | cons f up ih =>
      rw [List.length_cons, Nat.add_comm up.length, ← Nat.add_assoc]
      exact ih h'.2 (Wf.settle (h'.put wf))

/-- The parts of a well-formed tree are well-formed. -/
theorem Wf.parts (wf : Wf (h + ctx.length) (plug ctx e)) : Around h ctx ∧ Wf h e := by
  induction ctx generalizing h e with
  | nil => exact ⟨trivial, wf⟩
  | cons f up ih =>
      rw [List.length_cons, Nat.add_comm up.length, ← Nat.add_assoc] at wf
      obtain ⟨above, kids, -, -⟩ := ih wf
      refine ⟨⟨fun j other => ?_, above⟩, ?_⟩
      · have kid := kids j
        rwa [Frame.put_ne other] at kid
      · have kid := kids f.i
        rwa [Frame.put_self] at kid

theorem Wf.frame (wf : Wf (h + (f :: up).length) (plug (f :: up) e))
    : sumNonzero (f.put e) = true ∧ f.tags = sumTags (f.put e) := by
  rw [List.length_cons, Nat.add_comm up.length, ← Nat.add_assoc] at wf
  exact (Wf.parts wf).2.2

theorem Wf.above (wf : Wf (h + (f :: up).length) (plug (f :: up) e))
    : Wf (h + 1 + up.length) (plug up (f.fill e)) := by
  rwa [List.length_cons, Nat.add_comm up.length, ← Nat.add_assoc] at wf

/-- Nothing is left to do where the sums of a node are what they were. -/
theorem rebuild_eq_plug (wf : Wf (h + ctx.length) (plug ctx e)) (nonzero : x ≠ .null 0)
    (tags : x.tagmask = e.tagmask)
    : rebuild ctx x = plug ctx x := by
  induction ctx generalizing h e x with
  | nil => rfl
  | cons f up ih =>
      obtain ⟨-, sums⟩ := wf.frame
      have filled : sumNonzero (f.put x) = true := sumNonzero_iff.mpr ⟨f.i, by simpa using nonzero⟩
      have same : sumTags (f.put x) = sumTags (f.put e) := by
        refine tags_ext fun b => ?_
        rw [getLsbD_sumTags, getLsbD_sumTags]
        refine exists_congr fun j => ?_
        by_cases here : j = f.i
        · rw [here, Frame.put_self, Frame.put_self, Entry.Tagged, Entry.Tagged, tags]
        · rw [Frame.put_ne here, Frame.put_ne here]
      have settled : settle (f.put x) = f.fill x := by
        rw [settle, if_pos filled, same, ← sums, Frame.fill]
      rw [rebuild, settled, plug_cons]
      exact ih wf.above (by simp [Frame.fill]) rfl

/-- The same where a node has got its sums. -/
theorem rebuild_eq_plug_cons (wf : Wf (h + (f :: up).length) (plug (f :: up) e))
    (filled : sumNonzero (f.put x) = true) (same : sumTags (f.put x) = f.tags)
    : rebuild (f :: up) x = plug (f :: up) x := by
  have settled : settle (f.put x) = f.fill x := by rw [settle, if_pos filled, same, Frame.fill]
  rw [rebuild, settled, plug_cons]
  exact rebuild_eq_plug wf.above (by simp [Frame.fill]) rfl

-----------------------------------------------------------------------------------------
-- Leafs
-----------------------------------------------------------------------------------------

/-- A pointer of the user with its tags. -/
def Entry.leaf? : Entry P → Option (P × Tags)
  | .leaf tags p => some (p, tags)
  | _ => none

/-- The leaf in a slot. -/
def leafAt (e : Entry P) (vpp : Slot) : Option (P × Tags) := (getSlot e vpp).bind Entry.leaf?

theorem leafAt_plug (ctx : List (Frame P)) (e : Entry P) (vpp : Slot)
    : leafAt (plug ctx e) (route ctx ++ vpp) = leafAt e vpp := by
  rw [leafAt, getSlot_plug, leafAt]

theorem leafAt_node (tags : Tags) (n : Fin 16 → Entry P) (i : Fin 16) (vpp : Slot)
    : leafAt (.node tags n) (i :: vpp) = leafAt (n i) vpp :=
  rfl

@[simp] theorem leafAt_null (tags : Tags) (vpp : Slot) : leafAt (.null tags : Entry P) vpp = none := by
  cases vpp <;> rfl

/-- There is a leaf below every entry. -/
theorem Wf.exists_leaf (wf : Wf h e) (nonzero : e ≠ .null 0)
    : ∃ vpp leaf, vpp.length = h ∧ leafAt e vpp = some leaf := by
  induction h generalizing e with
  | zero =>
      cases e with
      | null tags =>
          obtain rfl : tags = 0 := wf
          exact absurd rfl nonzero
      | leaf tags p => exact ⟨[], (p, tags), rfl, rfl⟩
      | node tags n => exact wf.elim
  | succ h ih =>
      cases e with
      | null tags =>
          obtain rfl : tags = 0 := wf
          exact absurd rfl nonzero
      | leaf tags p => exact wf.elim
      | node tags n =>
          obtain ⟨kids, filled, -⟩ := wf
          obtain ⟨i, kid⟩ := sumNonzero_iff.mp filled
          obtain ⟨vpp, leaf, length, below⟩ := ih (kids i) kid
          exact ⟨i :: vpp, leaf, by rw [List.length_cons, length], below⟩

/-- The leafs beside a slot do not depend on what it holds. -/
theorem leafAt_plug_other {vpp : Slot} (other : ¬ route ctx <+: vpp) (x : Entry P)
    : leafAt (plug ctx e) vpp = leafAt (plug ctx x) vpp := by
  induction ctx generalizing e x with
  | nil => exact absurd List.nil_prefix other
  | cons f up ih =>
      rw [plug_cons, plug_cons]
      by_cases above : route up <+: vpp
      · obtain ⟨rest, rfl⟩ := above
        rw [leafAt_plug, leafAt_plug]
        obtain _ | ⟨j, rest⟩ := rest
        · rfl
        · have apart : j ≠ f.i := by
            rintro rfl
            exact other ⟨rest, by simp⟩
          rw [Frame.fill, leafAt_node, Frame.put_ne apart, Frame.fill, leafAt_node, Frame.put_ne apart]
      · exact ih above _

theorem leafAt_plug_congr (same : ∀ vpp, leafAt e vpp = leafAt x vpp) (vpp : Slot)
    : leafAt (plug ctx e) vpp = leafAt (plug ctx x) vpp := by
  by_cases below : route ctx <+: vpp
  · obtain ⟨rest, rfl⟩ := below
    rw [leafAt_plug, leafAt_plug, same]
  · exact leafAt_plug_other below x

theorem leafAt_settle (tags : Tags) (n : Fin 16 → Entry P) (vpp : Slot)
    : leafAt (settle n) vpp = leafAt (.node tags n) vpp := by
  rw [settle]
  split
  · cases vpp <;> rfl
  · next zero =>
      obtain _ | ⟨i, vpp⟩ := vpp
      · rfl
      · have empty := sumNonzero_false.mp (Bool.not_eq_true _ ▸ zero)
        rw [leafAt_node, empty i, leafAt_null, leafAt_null]

/-- Settling the nodes keeps all leafs. -/
theorem leafAt_rebuild (ctx : List (Frame P)) (e : Entry P) (vpp : Slot)
    : leafAt (rebuild ctx e) vpp = leafAt (plug ctx e) vpp := by
  induction ctx generalizing e with
  | nil => rfl
  | cons f up ih =>
      rw [rebuild, ih, plug_cons]
      exact leafAt_plug_congr (leafAt_settle f.tags (f.put e)) vpp

end BSDLibC.Radix
