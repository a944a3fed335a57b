import BSDLibC.Base64.Text
import Mathlib.Data.List.Nodup

/-! Steps of `b64_pton`. The decoder has finished some bytes, and may have begun one more. -/

namespace BSDLibC.Base64

open Bytes Ctype

variable {targsize : Nat} {d done : Decoder} {written rest : List UInt8} {old : UInt8}

-----------------------------------------------------------------------------------------
-- Characters
-----------------------------------------------------------------------------------------

theorem base64_toNat
    : base64.map UInt8.toNat
      = List.range' 65 26 ++ List.range' 97 26 ++ List.range' 48 10 ++ [43, 47] := by
  rfl

theorem base64_nodup : base64.Nodup := by
  refine List.Nodup.of_map UInt8.toNat ?_
  rw [base64_toNat]
  exact alphabet_nodup

theorem base64_plain {ch : UInt8} (member : ch ∈ base64)
    : ch ≠ 0 ∧ isspace ch.toNat = false ∧ ch ≠ pad64 := by
  have code : ch.toNat ∈ base64.map UInt8.toNat := List.mem_map_of_mem member
  rw [base64_toNat] at code
  simp only [List.mem_append, List.mem_range'_1, List.mem_pair] at code
  refine ⟨?_, ?_, ?_⟩
  · rintro rfl
    exact absurd code (by decide)
  · simp only [isspace, Bool.or_eq_false_iff, Bool.and_eq_false_iff, decide_eq_false_iff_not]
    omega
  · rintro rfl
    exact absurd code (by decide)

theorem symbol_plain {pos : Nat} (h : pos < 64)
    : symbol pos ≠ 0 ∧ isspace (symbol pos).toNat = false ∧ symbol pos ≠ pad64
      ∧ base64.findIdx? (· == symbol pos) = some pos := by
  have inside : pos < base64.length := h
  have place : symbol pos = base64[pos] := by
    rw [symbol, List.getD_eq_getElem?_getD, List.getElem?_eq_getElem inside, Option.getD_some]
  obtain ⟨nonzero, nospace, nopad⟩ := base64_plain (place ▸ List.getElem_mem inside)
  refine ⟨nonzero, nospace, nopad, List.findIdx?_eq_some_iff_getElem.mpr ⟨inside, ?_, ?_⟩⟩
  · rw [place]
    exact BEq.rfl
  · intro before less
    rw [place, Bool.not_eq_true, beq_eq_false_iff_ne]
    exact fun same => Nat.ne_of_lt less (base64_nodup.getElem_inj_iff.mp same)

theorem symbol_of_findIdx {ch : UInt8} {pos : Nat} (h : base64.findIdx? (· == ch) = some pos)
    : pos < 64 ∧ ch = symbol pos := by
  obtain ⟨inside, found, -⟩ := List.findIdx?_eq_some_iff_getElem.mp h
  refine ⟨inside, ?_⟩
  rw [symbol, List.getD_eq_getElem?_getD, List.getElem?_eq_getElem inside, Option.getD_some]
  exact (beq_iff_eq.mp found).symm

theorem b64Pton.loop_next {pos : Nat} {d' : Decoder} (h : pos < 64)
    (step : decodeDigit targsize d pos = some (.next d')) (src : List UInt8)
    : b64Pton.loop targsize (symbol pos :: src) d = b64Pton.loop targsize src d' := by
  obtain ⟨nonzero, nospace, nopad, found⟩ := symbol_plain h
  rw [b64Pton.loop, if_neg nonzero, nospace, if_neg Bool.false_ne_true, if_neg nopad, found]
  simp only [step]

theorem b64Pton.loop_fail {pos : Nat} {target : Option (List UInt8)} (h : pos < 64)
    (step : decodeDigit targsize d pos = some (.fail target)) (src : List UInt8)
    : b64Pton.loop targsize (symbol pos :: src) d = some (-1, target) := by
  obtain ⟨nonzero, nospace, nopad, found⟩ := symbol_plain h
  rw [b64Pton.loop, if_neg nonzero, nospace, if_neg Bool.false_ne_true, if_neg nopad, found]
  simp only [step]

-----------------------------------------------------------------------------------------
-- Bits
-----------------------------------------------------------------------------------------

/-- Bits below the ones that are there. -/
theorem toNat_or_low {high : UInt8} {n k : Nat} (clear : high.toNat % 2 ^ k = 0) (h : n < 2 ^ k)
    (small : n < 256)
    : (high ||| UInt8.ofNat n).toNat = high.toNat + n := by
  obtain ⟨m, product⟩ := Nat.dvd_of_mod_eq_zero clear
  rw [UInt8.toNat_or, UInt8.toNat_ofNat', Nat.mod_eq_of_lt small, product, Nat.mul_comm,
    ← Nat.shiftLeft_eq, Nat.shiftLeft_add_eq_or_of_lt h]

theorem toNat_high {pos : Nat} (h : pos < 64) : (UInt8.ofNat (pos <<< 2)).toNat = pos * 4 := by
  rw [UInt8.toNat_ofNat', Nat.shiftLeft_eq]
  omega

/-- The bits of a digit that begin the second byte. -/
theorem toNat_next1 (pos : Nat) : (UInt8.ofNat ((pos &&& 0x0f) <<< 4)).toNat = pos % 16 * 16 := by
  rw [UInt8.toNat_ofNat', Nat.shiftLeft_eq, show pos &&& 0x0f = pos % 16 from
    Nat.and_two_pow_sub_one_eq_mod pos 4]
  omega

/-- The bits of a digit that begin the third byte. -/
theorem toNat_next2 (pos : Nat) : (UInt8.ofNat ((pos &&& 0x03) <<< 6)).toNat = pos % 4 * 64 := by
  rw [UInt8.toNat_ofNat', Nat.shiftLeft_eq, show pos &&& 0x03 = pos % 4 from
    Nat.and_two_pow_sub_one_eq_mod pos 2]
  omega

theorem toNat_first {high : UInt8} {pos : Nat} (clear : high.toNat % 4 = 0) (h : pos < 64)
    : (high ||| UInt8.ofNat (pos >>> 4)).toNat = high.toNat + pos / 16 := by
  rw [Nat.shiftRight_eq_div_pow]
  exact toNat_or_low (k := 2) clear (by omega) (by omega)

theorem toNat_second {high : UInt8} {pos : Nat} (clear : high.toNat % 16 = 0) (h : pos < 64)
    : (high ||| UInt8.ofNat (pos >>> 2)).toNat = high.toNat + pos / 4 := by
  rw [Nat.shiftRight_eq_div_pow]
  exact toNat_or_low (k := 4) clear (by omega) (by omega)

theorem toNat_third {high : UInt8} {pos : Nat} (clear : high.toNat % 64 = 0) (h : pos < 64)
    : (high ||| UInt8.ofNat pos).toNat = high.toNat + pos :=
  toNat_or_low (k := 6) clear h (by omega)

-----------------------------------------------------------------------------------------
-- Stores
-----------------------------------------------------------------------------------------

theorem getElem?_behind {i : Nat} (index : i = written.length)
    : (written ++ old :: rest)[i]? = some old := by
  rw [index, List.getElem?_append_right (le_refl _), Nat.sub_self, List.getElem?_cons_zero]

theorem wholeBits_full {target : List UInt8} {merge : UInt8 → UInt8} {state : Fin 4} {i : Nat}
    (full : targsize ≤ i)
    : wholeBits targsize ⟨some target, state, i⟩ merge done = some (.fail (some target)) := by
  simp [wholeBits, full]

theorem wholeBits_eq {merge : UInt8 → UInt8} {state : Fin 4} {i : Nat} (index : i = written.length)
    (inside : i < targsize)
    : wholeBits targsize ⟨some (written ++ old :: rest), state, i⟩ merge done
      = some (.next { done with target := some (written ++ merge old :: rest) }) := by
  simp [wholeBits, Nat.not_le.mpr inside, getElem?_behind index, store_append index]

/-- The bits that wait behind the finished bytes: they are in the next byte, or there is none and
they are zero.
-/
def Pending (targsize i : Nat) (low : UInt8) (tail : List UInt8) : Prop :=
  (i < targsize ∧ ∃ rest, tail = low :: rest) ∨ (i = targsize ∧ low = 0)

theorem splitBits_full {target : List UInt8} {bits nextbyte : UInt8} {state : Fin 4} {i : Nat}
    (full : targsize ≤ i)
    : splitBits targsize ⟨some target, state, i⟩ bits nextbyte done = some (.fail (some target)) := by
  simp [splitBits, full]

theorem splitBits_eq (bits nextbyte : UInt8) {state : Fin 4} {i : Nat} (index : i = written.length)
    (inside : i < targsize) (size : targsize ≤ i + 1 + rest.length)
    (room : i + 1 < targsize ∨ nextbyte = 0)
    : ∃ tail, tail.length = rest.length ∧ Pending targsize (i + 1) nextbyte tail
      ∧ splitBits targsize ⟨some (written ++ old :: rest), state, i⟩ bits nextbyte done
        = some (.next { done with target := some (written ++ (old ||| bits) :: tail) }) := by
  by_cases more : i + 1 < targsize
  · obtain _ | ⟨next, rest⟩ := rest
    · simp only [List.length_nil] at size
      omega
    · refine ⟨nextbyte :: rest, rfl, Or.inl ⟨more, rest, rfl⟩, ?_⟩
      have second : store ((written ++ [old ||| bits]) ++ next :: rest) (i + 1) nextbyte = _ :=
        store_append (by simp [index]) nextbyte
      simp only [List.append_assoc, List.cons_append, List.nil_append] at second
      simp [splitBits, Nat.not_le.mpr inside, getElem?_behind index, store_append index, more, second]
  · have zero := room.resolve_left more
    refine ⟨rest, rfl, Or.inr ⟨by omega, zero⟩, ?_⟩
    simp [splitBits, Nat.not_le.mpr inside, getElem?_behind index, store_append index, more, zero]

theorem splitBits_lost (bits : UInt8) {nextbyte : UInt8} {state : Fin 4} {i : Nat}
    (index : i = written.length) (last : i + 1 = targsize) (lost : nextbyte ≠ 0)
    : ∃ target, splitBits targsize ⟨some (written ++ old :: rest), state, i⟩ bits nextbyte done
        = some (.fail target) := by
  refine ⟨some (written ++ (old ||| bits) :: rest), ?_⟩
  simp [splitBits, show ¬ targsize ≤ i by omega, getElem?_behind index, store_append index,
    show ¬ i + 1 < targsize by omega, lost]

/-- Where the bits that wait are checked. -/
theorem extraClear_eq {low : UInt8} {tail : List UInt8} {state : Fin 4} {i : Nat}
    (index : i = written.length) (pending : Pending targsize i low tail)
    : extraClear targsize ⟨some (written ++ tail), state, i⟩ = some (decide (low = 0)) := by
  rcases pending with ⟨inside, rest, rfl⟩ | ⟨full, zero⟩
  · simp [extraClear, inside, getElem?_behind index]
  · simp [extraClear, full, zero]

end BSDLibC.Base64
