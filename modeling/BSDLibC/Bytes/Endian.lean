import Mathlib.Algebra.Order.Ring.Nat
import Mathlib.Data.List.Basic
import Mathlib.Tactic.Common

/-! Words of 32 bits as four bytes, the highest first, and fields of a fixed width, the lowest byte
first, with tables of them.
-/

namespace BSDLibC.Bytes

/-- The word of four bytes, the highest first. -/
def beWord : List (BitVec 8) → BitVec 32
  | [a, b, c, d] => a ++ b ++ c ++ d
  | _ => 0

/-- The four bytes of a word, the highest first. -/
def beBytes (word : BitVec 32) : List (BitVec 8) :=
  [word.extractLsb' 24 8, word.extractLsb' 16 8, word.extractLsb' 8 8, word.extractLsb' 0 8]

@[simp]
theorem length_beBytes (word : BitVec 32) : (beBytes word).length = 4 := rfl

@[simp]
theorem beWord_beBytes (word : BitVec 32) : beWord (beBytes word) = word := by
  simp only [beWord, beBytes]
  ext i inside
  have bit (j : Nat) (same : j = i) : word.getLsbD j = word[i] := by
    rw [same, BitVec.getLsbD_eq_getElem]
  simp only [BitVec.getElem_append, BitVec.getElem_extractLsb']
  split
  · exact bit _ (by omega)
  split
  · exact bit _ (by omega)
  split
  · exact bit _ (by omega)
  · exact bit _ (by omega)

theorem beBytes_beWord {bytes : List (BitVec 8)} (length : bytes.length = 4)
    : beBytes (beWord bytes) = bytes := by
  obtain ⟨a, b, c, d, rfl⟩ : ∃ a b c d, bytes = [a, b, c, d] := by
    match bytes, length with
    | [a, b, c, d], _ => exact ⟨a, b, c, d, rfl⟩
  have piece (start : Nat) (byte : BitVec 8)
      (same : ∀ i : Nat, i < 8 → (a ++ b ++ c ++ d).getLsbD (start + i) = byte.getLsbD i)
      : (a ++ b ++ c ++ d).extractLsb' start 8 = byte := by
    ext i inside
    rw [BitVec.getElem_extractLsb', same i inside, BitVec.getLsbD_eq_getElem]
  simp only [beWord, beBytes, List.cons.injEq, and_true]
  refine ⟨piece 24 a ?_, piece 16 b ?_, piece 8 c ?_, piece 0 d ?_⟩
  all_goals
    intro i inside
    simp only [BitVec.getLsbD_append]
    repeat rw [if_neg (by omega)]
    first
      | rw [if_pos (by omega)]; congr 1; omega
      | congr 1; omega

-----------------------------------------------------------------------------------------
-- Little-endian fields
-----------------------------------------------------------------------------------------

/-- The `width` low bytes of a value, lowest first. -/
def leBytes : Nat → Nat → List UInt8
  | 0, _ => []
  | width + 1, value => UInt8.ofNat value :: leBytes width (value / 256)

def leValue : List UInt8 → Nat
  | [] => 0
  | byte :: rest => byte.toNat + 256 * leValue rest

theorem leValue_lt (bytes : List UInt8) : leValue bytes < 256 ^ bytes.length := by
  induction bytes with
  | nil => exact Nat.one_pos
  | cons byte rest ih =>
      have := byte.toNat_lt
      rw [leValue, List.length_cons, Nat.pow_succ']
      omega

/-- The low bytes of a field hold the remainder. -/
theorem leValue_take (bytes : List UInt8) (n : Nat)
    : leValue (bytes.take n) = leValue bytes % 256 ^ n := by
  induction bytes generalizing n with
  | nil => simp [leValue]
  | cons byte rest ih =>
      cases n with
      | zero => simp [leValue, Nat.mod_one]
      | succ n =>
          have low := Nat.mod_eq_of_lt byte.toNat_lt
          have high : (byte.toNat + 256 * leValue rest) / 256 = leValue rest := by
            have := byte.toNat_lt
            omega
          rw [List.take_succ_cons, leValue, leValue, ih, Nat.pow_succ', Nat.mod_mul, high,
            Nat.add_mul_mod_self_left]
          exact congrArg (· + _) low.symm

@[simp] theorem length_leBytes (width value : Nat) : (leBytes width value).length = width := by
  induction width generalizing value with
  | zero => rfl
  | succ width ih => simp [leBytes, ih]

theorem take_leBytes {width narrow : Nat} (h : narrow ≤ width) (value : Nat)
    : (leBytes width value).take narrow = leBytes narrow value := by
  induction narrow generalizing width value with
  | zero => simp [leBytes]
  | succ narrow ih =>
      cases width with
      | zero => omega
      | succ width => simp [leBytes, ih (Nat.le_of_succ_le_succ h)]

theorem leValue_leBytes (width value : Nat) : leValue (leBytes width value) = value % 256 ^ width := by
  induction width generalizing value with
  | zero => simp [leBytes, leValue, Nat.mod_one]
  | succ width ih =>
      simp only [leBytes, leValue, ih, UInt8.toNat_ofNat', Nat.reducePow]
      rw [Nat.pow_succ', Nat.mod_mul]

theorem leValue_leBytes_of_lt {width value : Nat} (h : value < 256 ^ width)
    : leValue (leBytes width value) = value := by
  rw [leValue_leBytes, Nat.mod_eq_of_lt h]

/-- Distinct values of one width have distinct fields. -/
theorem leBytes_injOn {width a b : Nat} (ha : a < 256 ^ width) (hb : b < 256 ^ width)
    (h : leBytes width a = leBytes width b)
    : a = b := by
  rw [← leValue_leBytes_of_lt ha, h, leValue_leBytes_of_lt hb]

/-- A table of fields, all of one width. -/
def leTable (width : Nat) (values : List Nat) : List UInt8 :=
  values.flatMap (leBytes width)

@[simp] theorem length_leTable (width : Nat) (values : List Nat)
    : (leTable width values).length = values.length * width := by
  induction values with
  | nil => simp [leTable]
  | cons value rest ih =>
      rw [leTable, List.flatMap_cons, List.length_append, length_leBytes, ← leTable, ih,
        List.length_cons, Nat.succ_mul, Nat.add_comm]

/-- The field at an index of a table that lies anywhere in a larger byte string. -/
theorem slice_leTable {width i : Nat} {values : List Nat} (before after : List UInt8)
    (inside : i < values.length)
    : ((before ++ leTable width values ++ after).drop (before.length + i * width)).take width
      = leBytes width values[i] := by
  rw [List.append_assoc, List.drop_append]
  have past : before.drop (before.length + i * width) = [] := by simp
  rw [past, List.nil_append, Nat.add_sub_cancel_left]
  induction values generalizing i with
  | nil => simp at inside
  | cons value rest ih =>
      have unfold : leTable width (value :: rest) = leBytes width value ++ leTable width rest := by
        simp [leTable]
      rw [unfold, List.append_assoc]
      cases i with
      | zero => simp
      | succ i =>
          rw [List.drop_append, length_leBytes,
            List.drop_of_length_le (by rw [length_leBytes, Nat.succ_mul]; omega), List.nil_append,
            show (i + 1) * width - width = i * width by rw [Nat.succ_mul]; omega]
          simpa using ih (by simpa using inside)

end BSDLibC.Bytes
