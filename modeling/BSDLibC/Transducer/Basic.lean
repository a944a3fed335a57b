import Mathlib.Algebra.Order.Ring.Nat
import Mathlib.Data.List.Basic
import Mathlib.Tactic.Common

/-! Machines that read one symbol at a time and emit outputs on the way. What a machine does
on a sequence does not depend on how the sequence is cut.
-/

namespace BSDLibC.Transducer

variable {β ω σ : Type*}

/-- What a machine does with one symbol. A refusal says how far behind the start of the symbol
the machine stands.
-/
inductive Reaction (ω σ : Type*) where
  | more (next : σ)
  | emit (out : ω) (next : σ)
  | reject (taken : Nat)

/-- How a run ends: in a state, or with a refusal at a position. -/
inductive Ending (σ : Type*) where
  | stands (state : σ)
  | rejected (position : Nat)
deriving DecidableEq

/-- An ending seen from a number of symbols earlier. -/
def Ending.shift (n : Nat) : Ending σ → Ending σ
  | .stands state => .stands state
  | .rejected position => .rejected (n + position)

@[simp]
theorem Ending.shift_stands (n : Nat) (state : σ)
    : (Ending.stands state).shift n = .stands state := rfl

@[simp]
theorem Ending.shift_rejected (n position : Nat)
    : (Ending.rejected position : Ending σ).shift n = .rejected (n + position) := rfl

theorem Ending.shift_shift (m n : Nat) (ending : Ending σ)
    : (ending.shift n).shift m = ending.shift (m + n) := by
  cases ending with
  | stands state => rfl
  | rejected position => simp [Nat.add_assoc]

/-- The outputs of a run and its ending. -/
abbrev Outcome (ω σ : Type*) := List ω × Ending σ

/-- What a run continues with after one symbol. -/
def Reaction.continue (reaction : Reaction ω σ) (rest : σ → Outcome ω σ) : Outcome ω σ :=
  match reaction with
  | .more next => ((rest next).1, (rest next).2.shift 1)
  | .emit out next => (out :: (rest next).1, (rest next).2.shift 1)
  | .reject taken => ([], .rejected taken)

/-- The run of a machine over a sequence. -/
def run (step : σ → β → Reaction ω σ) : List β → σ → Outcome ω σ
  | [], state => ([], .stands state)
  | symbol :: symbols, state => (step state symbol).continue (run step symbols)

/-- An outcome with what a further run adds to it. -/
def Outcome.andThen (first : Outcome ω σ) (length : Nat) (rest : σ → Outcome ω σ)
    : Outcome ω σ :=
  match first.2 with
  | .stands state => (first.1 ++ (rest state).1, (rest state).2.shift length)
  | .rejected position => (first.1, .rejected position)

/-- The run over two sequences in a row goes on where the first one stood. -/
theorem run_append (step : σ → β → Reaction ω σ) (xs ys : List β) (state : σ)
    : run step (xs ++ ys) state
      = (run step xs state).andThen xs.length (run step ys) := by
  induction xs generalizing state with
  | nil =>
      simp only [List.nil_append, run, Outcome.andThen, List.length_nil]
      rcases run step ys state with ⟨outs, _ | _⟩ <;> simp
  | cons x xs ih =>
      simp only [List.cons_append, run, List.length_cons]
      cases step state x with
      | reject taken => rfl
      | more next =>
          simp only [Reaction.continue, ih, Outcome.andThen]
          cases (run step xs next).2 <;>
            simp [Ending.shift_shift, Nat.add_comm]
      | emit out next =>
          simp only [Reaction.continue, ih, Outcome.andThen]
          cases (run step xs next).2 <;>
            simp [Ending.shift_shift, Nat.add_comm]

/-- A run over the concatenation of pieces, one piece after the other. -/
theorem run_flatten_cons (step : σ → β → Reaction ω σ) (piece : List β)
    (pieces : List (List β)) (state : σ)
    : run step (piece :: pieces).flatten state
      = (run step piece state).andThen piece.length (run step pieces.flatten) := by
  rw [List.flatten_cons, run_append]

end BSDLibC.Transducer
