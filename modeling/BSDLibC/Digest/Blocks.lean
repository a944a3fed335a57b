import Mathlib.Algebra.Order.Ring.Nat
import Mathlib.Data.List.Basic
import Mathlib.Tactic.Common

/-! Iterated compression: a string is taken block by block into a state, and the bytes behind its
last whole block wait in a buffer.
-/

namespace BSDLibC.Digest

variable {σ β : Type} (compress : σ → List β → σ) (size : Nat)

/-- The first blocks of a string, taken into a state. -/
def foldBlocks : Nat → σ → List β → σ
  | 0, s, _ => s
  | n + 1, s, bytes => foldBlocks n (compress s (bytes.take size)) (bytes.drop size)

/-- All whole blocks of a string, taken into a state. -/
def chain (s : σ) (bytes : List β) : σ := foldBlocks compress size (bytes.length / size) s bytes

/-- The bytes behind the last whole block. -/
def tail (bytes : List β) : List β := bytes.drop (bytes.length / size * size)

/-- A state and a buffer after a message, from an initial state. -/
structure Taken (iv s : σ) (buffer message : List β) : Prop where
  state : s = chain compress size iv message
  waiting : buffer.take (message.length % size) = tail size message

variable {compress size} {s iv : σ} {bytes bytes' buffer message input : List β}

theorem foldBlocks_append (m n : Nat) (length : bytes.length = m * size)
    : foldBlocks compress size (m + n) s (bytes ++ bytes')
      = foldBlocks compress size n (foldBlocks compress size m s bytes) bytes' := by
  induction m generalizing s bytes with
  | zero =>
      rw [Nat.zero_mul] at length
      rw [List.eq_nil_of_length_eq_zero length, Nat.zero_add]
      rfl
  | succ m ih =>
      rw [Nat.succ_mul] at length
      rw [Nat.succ_add, foldBlocks, foldBlocks, List.take_append_of_le_length (by omega),
        List.drop_append_of_le_length (by omega), ih]
      rw [List.length_drop]
      omega

/-- A string of whole blocks is taken before what is behind it. -/
theorem chain_append (blocks : bytes.length % size = 0)
    : chain compress size s (bytes ++ bytes')
      = chain compress size (chain compress size s bytes) bytes' := by
  obtain ⟨m, length⟩ := Nat.dvd_of_mod_eq_zero blocks
  rcases Nat.eq_zero_or_pos size with rfl | positive
  · simp [chain, foldBlocks]
  · have first : bytes.length / size = m := by rw [length, Nat.mul_div_cancel_left _ positive]
    have all : (bytes ++ bytes').length / size = m + bytes'.length / size := by
      rw [List.length_append, length, Nat.mul_add_div positive]
    rw [chain, all, foldBlocks_append m _ (by rw [length, Nat.mul_comm]), chain, chain, first]

theorem tail_append (blocks : bytes.length % size = 0)
    : tail size (bytes ++ bytes') = tail size bytes' := by
  obtain ⟨m, length⟩ := Nat.dvd_of_mod_eq_zero blocks
  rcases Nat.eq_zero_or_pos size with rfl | positive
  · rw [Nat.zero_mul] at length
    rw [List.eq_nil_of_length_eq_zero length, List.nil_append]
  · have all : (bytes ++ bytes').length / size * size = bytes.length + bytes'.length / size * size := by
      rw [List.length_append, length, Nat.mul_add_div positive, Nat.add_mul, Nat.mul_comm]
    rw [tail, all, List.drop_append, List.drop_eq_nil_of_le (Nat.le_add_right _ _), List.nil_append,
      Nat.add_sub_cancel_left, tail]

theorem chain_short (short : bytes.length < size) : chain compress size s bytes = s := by
  rw [chain, Nat.div_eq_of_lt short, foldBlocks]

theorem tail_short (short : bytes.length < size) : tail size bytes = bytes := by
  rw [tail, Nat.div_eq_of_lt short, Nat.zero_mul, List.drop_zero]

theorem chain_block (positive : 0 < size) (block : bytes.length = size)
    : chain compress size s bytes = compress s bytes := by
  rw [chain, block, Nat.div_self positive, foldBlocks, foldBlocks,
    List.take_of_length_le (Nat.le_of_eq block)]

theorem length_tail (bytes : List β) : (tail size bytes).length = bytes.length % size := by
  rw [tail, List.length_drop]
  have := Nat.div_add_mod bytes.length size
  rw [Nat.mul_comm] at this
  omega

/-- A string is its whole blocks and what is behind them. -/
theorem exists_blocks (size : Nat) (bytes : List β)
    : ∃ blocks, bytes = blocks ++ tail size bytes ∧ blocks.length % size = 0 := by
  refine ⟨bytes.take (bytes.length / size * size), (List.take_append_drop _ _).symm, ?_⟩
  rw [List.length_take, Nat.min_eq_left (Nat.div_mul_le_self _ _), Nat.mul_mod_left]

theorem taken_nil (iv : σ) (buffer : List β) : Taken compress size iv iv buffer [] := by
  constructor
  · rw [chain, List.length_nil, Nat.zero_div, foldBlocks]
  · rw [List.length_nil, Nat.zero_mod, List.take_zero, tail, List.drop_nil]

section

variable (taken : Taken compress size iv s buffer message) (positive : 0 < size)

include taken positive

/-- More bytes behind a message go behind the bytes that wait. -/
theorem Taken.behind (input : List β)
    : chain compress size iv (message ++ input) = chain compress size s (tail size message ++ input)
      ∧ tail size (message ++ input) = tail size (tail size message ++ input)
      ∧ (message ++ input).length % size = (tail size message ++ input).length % size := by
  obtain ⟨blocks, split, whole⟩ := exists_blocks size message
  have first : s = chain compress size iv blocks := by
    rw [taken.state]
    conv_lhs => rw [split]
    rw [chain_append whole, chain_short]
    rw [length_tail]
    exact Nat.mod_lt _ positive
  refine ⟨?_, ?_, ?_⟩
  · conv_lhs => rw [split]
    rw [List.append_assoc, chain_append whole, first]
  · conv_lhs => rw [split]
    rw [List.append_assoc, tail_append whole]
  · rw [List.length_append, List.length_append, length_tail, Nat.mod_add_mod]

/-- Bytes that do not fill the buffer only wait. -/
theorem Taken.wait (short : message.length % size + input.length < size)
    : Taken compress size iv s
        (buffer.take (message.length % size) ++ input ++ buffer.drop (message.length % size + input.length))
        (message ++ input) := by
  obtain ⟨state, waiting, modulus⟩ := taken.behind positive input
  have length : (tail size message ++ input).length = message.length % size + input.length := by
    rw [List.length_append, length_tail]
  rw [length] at modulus
  have sum : (message.length % size + input.length) % size = message.length % size + input.length :=
    Nat.mod_eq_of_lt short
  constructor
  · rw [state, chain_short (by omega)]
  · rw [waiting, tail_short (by omega), modulus, sum, taken.waiting, List.take_left']
    rw [List.length_append, length_tail]

/-- Whole blocks, where none wait, are taken as they come. -/
theorem Taken.aligned {s' : σ} (none : message.length % size = 0) (state : s' = chain compress size s input)
    {buffer' : List β} (waiting : buffer'.take (tail size input).length = tail size input)
    : Taken compress size iv s' buffer' (message ++ input) := by
  obtain ⟨chained, left, modulus⟩ := taken.behind positive input
  have empty : tail size message = [] := List.eq_nil_of_length_eq_zero (by rw [length_tail, none])
  rw [empty, List.nil_append] at chained left modulus
  constructor
  · rw [state, chained]
  · rw [left, modulus, ← length_tail, waiting]

/-- Bytes that fill the buffer: its block is taken, then the whole blocks of the rest, and what is left
waits in the place of the block.
-/
theorem Taken.fill {s' : σ} (long : size ≤ message.length % size + input.length)
    (state : s' = chain compress size
      (compress s (buffer.take (message.length % size) ++ input.take (size - message.length % size)))
      (input.drop (size - message.length % size)))
    {buffer' : List β}
    (waiting : buffer'.take (tail size (input.drop (size - message.length % size))).length
      = tail size (input.drop (size - message.length % size)))
    : Taken compress size iv s' buffer' (message ++ input) := by
  obtain ⟨chained, left, modulus⟩ := taken.behind positive input
  have index := Nat.mod_lt message.length positive
  generalize part : size - message.length % size = n at *
  have block : (tail size message ++ input.take n).length = size := by
    rw [List.length_append, length_tail, List.length_take]
    omega
  have split : tail size message ++ input = (tail size message ++ input.take n) ++ input.drop n := by
    rw [List.append_assoc, List.take_append_drop]
  have blocks : (tail size message ++ input.take n).length % size = 0 := by rw [block, Nat.mod_self]
  constructor
  · rw [chained, split, chain_append blocks, chain_block positive block, state, taken.waiting]
  · rw [left, split, tail_append blocks, modulus, split, List.length_append, block, Nat.add_mod_left,
      ← length_tail, waiting]

end

/-- Pieces one after the other are one message, for an update that keeps track of a message. -/
theorem foldlM_pieces {κ : Type} {update : κ → List β → Option κ} {Good : κ → List β → Prop}
    {fits : List β → Prop}
    (step : ∀ context message piece, Good context message → fits piece
      → ∃ context', update context piece = some context' ∧ Good context' (message ++ piece))
    {context : κ} {pieces : List (List β)} (good : Good context message)
    (fit : ∀ piece ∈ pieces, fits piece)
    : ∃ context', pieces.foldlM update context = some context'
      ∧ Good context' (message ++ pieces.flatten) := by
  induction pieces generalizing context message with
  | nil => exact ⟨context, rfl, by rwa [List.flatten_nil, List.append_nil]⟩
  | cons piece pieces ih =>
      obtain ⟨context₁, first, good₁⟩ := step context message piece good (fit piece List.mem_cons_self)
      obtain ⟨context₂, others, good₂⟩ := ih good₁ fun other member =>
        fit other (List.mem_cons_of_mem piece member)
      refine ⟨context₂, ?_, by rwa [List.flatten_cons, ← List.append_assoc]⟩
      rw [List.foldlM_cons, first]
      exact others

end BSDLibC.Digest
