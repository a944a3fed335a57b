import Mathlib.Data.Finset.Fold
import Mathlib.Data.Finset.Card
import Mathlib.Data.Nat.Bitwise
import Mathlib.Tactic.Common

/-! Peeling of a hypergraph whose edges are numbers. The edges at a vertex are summarised by
their count and their exclusive or, and an order in which edges came out keeps, for each edge,
a vertex that no edge still in place shares.
-/

namespace BSDLibC.Hypergraph

variable {V ι : Type} [DecidableEq V] [Fintype ι] {ends : Nat → ι → V} {live : Finset Nat}

/-- The edges of `live` at a vertex. -/
def incident (ends : Nat → ι → V) (live : Finset Nat) (v : V) : Finset Nat :=
  live.filter (fun e => ∃ i, ends e i = v)

theorem mem_incident {v : V} {e : Nat}
    : e ∈ incident ends live v ↔ e ∈ live ∧ ∃ i, ends e i = v := by
  simp [incident]

theorem card_incident_le (ends : Nat → ι → V) (live : Finset Nat) (v : V)
    : (incident ends live v).card ≤ live.card :=
  Finset.card_le_card (Finset.filter_subset _ _)

theorem incident_insert_of_touches {v : V} {e : Nat} (touches : ∃ i, ends e i = v)
    : incident ends (insert e live) v = insert e (incident ends live v) := by
  rw [incident, Finset.filter_insert, if_pos touches, ← incident]

theorem incident_insert_of_not {v : V} {e : Nat} (apart : ¬ ∃ i, ends e i = v)
    : incident ends (insert e live) v = incident ends live v := by
  rw [incident, Finset.filter_insert, if_neg apart, ← incident]

theorem incident_erase {v : V} (e : Nat)
    : incident ends (live.erase e) v = (incident ends live v).erase e := by
  rw [incident, Finset.filter_erase, ← incident]

/-- The exclusive or of a set of edge numbers. -/
def xorOf (s : Finset Nat) : Nat := s.fold (· ^^^ ·) 0 id

@[simp] theorem xorOf_empty : xorOf ∅ = 0 := rfl

@[simp] theorem xorOf_singleton (e : Nat) : xorOf {e} = e := by
  simp [xorOf]

theorem xorOf_insert {s : Finset Nat} {e : Nat} (new : e ∉ s)
    : xorOf (insert e s) = xorOf s ^^^ e := by
  rw [xorOf, Finset.fold_insert new, ← xorOf, Nat.xor_comm]
  rfl

theorem xorOf_erase {s : Finset Nat} {e : Nat} (member : e ∈ s)
    : xorOf (s.erase e) = xorOf s ^^^ e := by
  have whole : xorOf s = xorOf (s.erase e) ^^^ e := by
    rw [← xorOf_insert (Finset.notMem_erase e s), Finset.insert_erase member]
  rw [whole, Nat.xor_assoc, Nat.xor_self, Nat.xor_zero]

/-- Some vertex of the edge is at no edge of `live`. -/
def HasFreeEnd (ends : Nat → ι → V) (live : Finset Nat) (e : Nat) : Prop :=
  ∃ i, ∀ other ∈ live, ∀ j, ends other j ≠ ends e i

/-- The edges of the list can be put back on top of `live` one by one, each with a free end. -/
def Peelable (ends : Nat → ι → V) : Finset Nat → List Nat → Prop
  | _, [] => True
  | live, e :: rest => HasFreeEnd ends live e ∧ Peelable ends (insert e live) rest

omit [DecidableEq V] [Fintype ι] in
/-- Each edge of such a list has a free end over the edges before it. -/
theorem Peelable.hasFreeEnd {order : List Nat} (h : Peelable ends live order) {i : Nat}
    (inside : i < order.length)
    : HasFreeEnd ends (live ∪ (order.take i).toFinset) order[i] := by
  induction order generalizing live i with
  | nil => simp at inside
  | cons e rest ih =>
      obtain ⟨free, later⟩ := h
      cases i with
      | zero => simpa using free
      | succ i =>
          have := ih later (Nat.lt_of_succ_lt_succ inside)
          simpa [Finset.insert_union, Finset.union_insert] using this

/-- An edge that is alone at one of its vertices has a free end once it is out. -/
theorem hasFreeEnd_erase {v : V} {e : Nat} (alone : incident ends live v = {e})
    : HasFreeEnd ends (live.erase e) e := by
  have member : e ∈ incident ends live v := by simp [alone]
  obtain ⟨-, i, rfl⟩ := mem_incident.mp member
  refine ⟨i, fun other others j same => ?_⟩
  obtain ⟨different, present⟩ := Finset.mem_erase.mp others
  have : other ∈ incident ends live (ends e i) := mem_incident.mpr ⟨present, j, same⟩
  rw [alone, Finset.mem_singleton] at this
  exact different this

end BSDLibC.Hypergraph
