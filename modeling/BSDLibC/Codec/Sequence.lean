import Mathlib.Algebra.Order.Ring.Nat
import Mathlib.Data.List.Basic
import Mathlib.Tactic.Common

/-! Self-delimiting formats: a reader takes a value from the front of its input and leaves the
rest. Sequences of values of one format.
-/

namespace BSDLibC.Codec

variable {α β : Type}

/-- A reader of values of one format. -/
abbrev Reader (β α : Type) := List β → Option (α × List β)

/-- Values read one after the other. -/
def readMany (read : Reader β α) : Nat → Reader β (List α)
  | 0, input => some ([], input)
  | n + 1, input => do
      let (value, input) ← read input
      let (values, input) ← readMany read n input
      return (value :: values, input)

/-- The reader gets back what the writer wrote, with anything behind it. -/
def Inverts (read : Reader β α) (write : α → List β) (valid : α → Prop) : Prop :=
  ∀ value, valid value → ∀ rest, read (write value ++ rest) = some (value, rest)

/-- Every value that is read has a property. -/
def Yields (read : Reader β α) (valid : α → Prop) : Prop :=
  ∀ input value rest, read input = some (value, rest) → valid value

theorem Inverts.many {read : Reader β α} {write : α → List β} {valid : α → Prop}
    (inverts : Inverts read write valid) (values : List α) (all : ∀ value ∈ values, valid value)
    (rest : List β)
    : readMany read values.length (values.flatMap write ++ rest) = some (values, rest) := by
  induction values with
  | nil => rfl
  | cons value values ih =>
      have first := inverts value (all value List.mem_cons_self) (values.flatMap write ++ rest)
      have others := ih (fun other h => all other (List.mem_cons_of_mem value h))
      rw [List.length_cons, readMany, List.flatMap_cons, List.append_assoc, first]
      simp [others]

theorem Yields.many {read : Reader β α} {valid : α → Prop} (yields : Yields read valid) (n : Nat)
    : Yields (readMany read n) (fun values => values.length = n ∧ ∀ value ∈ values, valid value) := by
  induction n with
  | zero =>
      rintro input values rest ⟨⟩
      exact ⟨rfl, by simp⟩
  | succ n ih =>
      intro input values rest done
      rw [readMany] at done
      obtain ⟨⟨value, next⟩, first, done⟩ := Option.bind_eq_some_iff.mp done
      obtain ⟨⟨others, last⟩, following, done⟩ := Option.bind_eq_some_iff.mp done
      cases done
      obtain ⟨length, all⟩ := ih next others rest following
      refine ⟨by rw [List.length_cons, length], fun other member => ?_⟩
      rcases List.mem_cons.mp member with rfl | member
      · exact yields input other next first
      · exact all other member

end BSDLibC.Codec
