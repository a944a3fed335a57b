import BSDLibC.RbTree.Linked
import BSDLibC.RbTree.Removal

/-! Runs of insertions and removals from `rb_tree_init`. A legal run always has a result,
whatever the shapes it passes through, and ends in a stored tree.
-/

namespace BSDLibC.RbTree
open BSDLibC.ColorTree

variable (rbt : Ptr) (compareNodes : Ptr → Ptr → Int)

inductive Update
  | insert (object : Ptr)
  | remove (object : Ptr)

/-- What the callers promise: a new node lies apart from the header and is not linked, and a
removed node is linked.
-/
def Update.Legal (m : Mem) : Update → Prop
  | .insert object => Valid rbt object ∧ ¬ m.Linked object
  | .remove object => m.Linked object

/-- The memory after an update, and what the call returns unless it is `void`. -/
def Update.apply (fuel : Nat) (m : Mem) : Update → Option (Mem × Option Ptr)
  | .insert object =>
      (rbTreeInsertNode rbt compareNodes fuel m object).map (fun result => (result.1, some result.2))
  | .remove object => (rbTreeRemoveNode rbt fuel m object).map (fun m' => (m', none))

def runUpdates (fuel : Nat) : Mem → List Update → Option Mem
  | m, [] => some m
  | m, update :: rest => do
      let (m', _) ← update.apply rbt compareNodes fuel m
      runUpdates fuel m' rest

/-- Each update is legal in the memory that the earlier ones leave. -/
def LegalUpdates (fuel : Nat) : Mem → List Update → Prop
  | _, [] => True
  | m, update :: rest =>
      update.Legal rbt m
      ∧ ∀ m' result, update.apply rbt compareNodes fuel m = some (m', result)
        → LegalUpdates fuel m' rest

/-- What an update does to the in-order list. -/
def Update.onElements (elements : List Ptr) : Update → List Ptr
  | .insert object =>
      if ∃ x ∈ elements, compareNodes x object = 0 then
        elements
      else
        insertSorted compareNodes object elements
  | .remove object => elements.erase object

def Update.LegalOn (elements : List Ptr) : Update → Prop
  | .insert object => Valid rbt object ∧ object ∉ elements
  | .remove object => object ∈ elements

/-- The legality of a run, decided on the in-order lists alone. -/
def LegalOnElements : List Ptr → List Update → Prop
  | _, [] => True
  | elements, update :: rest =>
      update.LegalOn rbt elements
      ∧ LegalOnElements (update.onElements compareNodes elements) rest

instance (elements : List Ptr) (update : Update) : Decidable (update.LegalOn rbt elements) :=
  match update with
  | .insert object => inferInstanceAs (Decidable (Valid rbt object ∧ object ∉ elements))
  | .remove object => inferInstanceAs (Decidable (object ∈ elements))

instance LegalOnElements.decide
    : ∀ (elements : List Ptr) (updates : List Update),
        Decidable (LegalOnElements rbt compareNodes elements updates)
  | _, [] => isTrue trivial
  | elements, update :: rest =>
      have := LegalOnElements.decide (update.onElements compareNodes elements) rest
      inferInstanceAs (Decidable (update.LegalOn rbt elements
        ∧ LegalOnElements rbt compareNodes (update.onElements compareNodes elements) rest))

variable {rbt compareNodes}
variable {m : Mem} {T : CTree Ptr} {fuel : Nat}

theorem length_onElements (compareNodes : Ptr → Ptr → Int) (update : Update)
    (elements : List Ptr)
    : (update.onElements compareNodes elements).length ≤ elements.length + 1 := by
  cases update with
  | insert object =>
      have halves : (elements.filter (fun x => decide (compareNodes x object < 0))).length
          + (elements.filter (fun x => decide (0 < compareNodes x object))).length
            ≤ elements.length := by
        induction elements with
        | nil => simp
        | cons x xs ih =>
            simp only [List.filter_cons, decide_eq_true_eq, List.length_cons]
            split
            · rw [if_neg (by omega), List.length_cons]
              omega
            · split
              · rw [List.length_cons]
                omega
              · omega
      simp only [Update.onElements, insertSorted]
      split
      · omega
      · simp only [List.length_append, List.length_cons]
        omega
  | remove object =>
      have shorter : (elements.erase object).length ≤ elements.length := List.length_erase_le
      simp only [Update.onElements]
      omega

/-- A sorted traversal is sorted, as faced, in both directions. -/
theorem pairwise_facing (order : TotalOrder compareNodes)
    (sorted : (T.traverse .right).Pairwise (fun a b => compareNodes a b < 0)) (d : Dir)
    : (T.traverse d).Pairwise (fun a b => facing d (compareNodes a b) < 0) := by
  cases d with
  | right => exact sorted
  | left =>
      have flip : T.traverse .left = (T.traverse .right).reverse := T.traverse_other .right
      rw [flip, List.pairwise_reverse]
      refine sorted.imp ?_
      intro a b less
      have := (order.swap a b).mp less
      simp only [facing]
      omega

theorem stored_init (rbtNe : rbt ≠ NULL) (m : Mem)
    : Stored rbt compareNodes (rbTreeInit m) .nil where
  layout := ⟨rbtNe, rfl, trivial, by simp⟩
  redBlack := ⟨rfl, trivial, 0, rfl⟩
  sorted := by simp
  extremes := by simp [Extremes]

theorem Stored.legal_iff (h : Stored rbt compareNodes m T) (update : Update)
    : update.Legal rbt m ↔ update.LegalOn rbt (T.traverse .right) := by
  cases update with
  | insert object => simp only [Update.Legal, Update.LegalOn, h.layout.linked_iff, CTree.Has]
  | remove object => simp only [Update.Legal, Update.LegalOn, h.layout.linked_iff, CTree.Has]

/-- One legal update has a result, keeps the tree stored and updates the in-order list. -/
theorem Stored.update (order : TotalOrder compareNodes) (h : Stored rbt compareNodes m T)
    {update : Update} (legal : update.Legal rbt m) (enough : size T < fuel)
    : ∃ m' result T', update.apply rbt compareNodes fuel m = some (m', result)
        ∧ Stored rbt compareNodes m' T'
        ∧ T'.traverse .right = update.onElements compareNodes (T.traverse .right) := by
  cases update with
  | insert object =>
      obtain ⟨valid, fresh⟩ := legal
      rw [h.layout.linked_iff] at fresh
      rcases h.insert order valid fresh enough with
        ⟨x, member, equal, run⟩ | ⟨different, m', T', run, stored, elements⟩
      · refine ⟨m, some x, T, by simp [Update.apply, run], h, ?_⟩
        rw [Update.onElements, if_pos ⟨x, member, equal⟩]
      · refine ⟨m', some object, T', by simp [Update.apply, run], stored, ?_⟩
        rw [elements, Update.onElements, if_neg]
        rintro ⟨x, member, equal⟩
        exact different x member equal
  | remove object =>
      have member := h.layout.linked_iff.mp legal
      obtain ⟨m', T', run, stored, elements⟩ := h.remove member (by omega : size T ≤ fuel)
      exact ⟨m', none, T', by simp [Update.apply, run], stored, elements⟩

/-- A legal run has a result and ends in a stored tree. -/
theorem Stored.runUpdates (order : TotalOrder compareNodes) (h : Stored rbt compareNodes m T)
    {updates : List Update} (legal : LegalUpdates rbt compareNodes fuel m updates)
    (enough : size T + updates.length < fuel)
    : ∃ m' T', RbTree.runUpdates rbt compareNodes fuel m updates = some m'
        ∧ Stored rbt compareNodes m' T'
        ∧ size T' ≤ size T + updates.length := by
  induction updates generalizing m T with
  | nil => exact ⟨m, T, rfl, h, by simp⟩
  | cons update rest ih =>
      simp only [List.length_cons] at enough ⊢
      obtain ⟨m₁, result, T₁, run₁, stored₁, elements₁⟩ :=
        h.update order legal.1 (show size T < fuel by omega)
      have grown := length_onElements compareNodes update (T.traverse .right)
      rw [← elements₁] at grown
      change size T₁ ≤ size T + 1 at grown
      obtain ⟨m', T', run, stored, size'⟩ := ih stored₁ (legal.2 _ _ run₁) (by omega)
      exact ⟨m', T', by simp [RbTree.runUpdates, run₁, run], stored, by omega⟩

/-- Legality can be decided on the in-order lists. -/
theorem Stored.legalUpdates (order : TotalOrder compareNodes) (h : Stored rbt compareNodes m T)
    {updates : List Update}
    (legal : LegalOnElements rbt compareNodes (T.traverse .right) updates)
    (enough : size T + updates.length < fuel)
    : LegalUpdates rbt compareNodes fuel m updates := by
  induction updates generalizing m T with
  | nil => trivial
  | cons update rest ih =>
      simp only [List.length_cons] at enough
      have here := (h.legal_iff update).mpr legal.1
      refine ⟨here, ?_⟩
      intro m' result run
      obtain ⟨m₁, result₁, T₁, run₁, stored₁, elements₁⟩ :=
        h.update order here (show size T < fuel by omega)
      obtain ⟨rfl, rfl⟩ : m₁ = m' ∧ result₁ = result := by simpa [run₁] using run
      have grown := length_onElements compareNodes update (T.traverse .right)
      rw [← elements₁] at grown
      change size T₁ ≤ size T + 1 at grown
      exact ih stored₁ (elements₁ ▸ legal.2) (by omega)

/-- In every run of legal insertions and removals from `rb_tree_init`, no step reads or writes
through `NULL`, every loop ends within one pass for each update so far, and the linked
structure reached is well formed.
-/
theorem runUpdates_wellFormed (order : TotalOrder compareNodes) (rbtNe : rbt ≠ NULL)
    (m₀ : Mem) (updates : List Update) (enough : updates.length < fuel)
    (legal : LegalUpdates rbt compareNodes fuel (rbTreeInit m₀) updates)
    : ∃ m, runUpdates rbt compareNodes fuel (rbTreeInit m₀) updates = some m
        ∧ WellFormed rbt compareNodes m := by
  obtain ⟨m, T, run, stored, -⟩ :=
    (stored_init rbtNe m₀).runUpdates order legal (by simpa [size] using enough)
  exact ⟨m, run, stored.wellFormed⟩

/-- Objects compared by their addresses. -/
def compareAddresses (a b : Ptr) : Int := (a.addr.toNat : Int) - b.addr.toNat

theorem compareAddresses_order : TotalOrder compareAddresses where
  swap a b := by simp only [compareAddresses]; omega
  trans a b c := by simp only [compareAddresses]; omega

/-- The `n`th of a row of nodes, each of three words. -/
def nodeNo (n : Fin 4) : Ptr where
  addr := BitVec.ofNat 64 (64 + 24 * n)
  aligned := by decide +revert

/-- A header in front of the row of nodes, with memory never written. -/
def header : Ptr := ⟨32#64, rfl⟩

def blank : Mem := ⟨NULL, fun _ => NULL, fun _ => ⟨fun _ => NULL, 0#64⟩⟩

/-- Witness: three insertions with a rotation, then the removal of the root. -/
theorem runUpdates_wellFormed_rotation
    : ∃ m, runUpdates header compareAddresses 5 (rbTreeInit blank)
          [.insert (nodeNo 1), .insert (nodeNo 2), .insert (nodeNo 3), .remove (nodeNo 2)] = some m
        ∧ WellFormed header compareAddresses m :=
  runUpdates_wellFormed compareAddresses_order (by decide) blank _ (by decide)
    ((stored_init (by decide) blank).legalUpdates compareAddresses_order (by decide) (by decide))

end BSDLibC.RbTree
