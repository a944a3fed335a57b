import BSDLibC.Base64.Decoding

/-! The decoder inverts the encoder, and accepts nothing but canonical text. -/

namespace BSDLibC.Base64

open Bytes Ctype

variable {targsize : Nat} {out rest tail src : List UInt8} {a b low : UInt8}

-----------------------------------------------------------------------------------------
-- One digit
-----------------------------------------------------------------------------------------

theorem decodeDigit_zero {pos : Nat} {old : UInt8} (inside : out.length < targsize)
    : decodeDigit targsize ⟨some (out ++ old :: rest), 0, out.length⟩ pos
      = some (.next ⟨some (out ++ UInt8.ofNat (pos <<< 2) :: rest), 1, out.length⟩) := by
  rw [decodeDigit, wholeBits_eq rfl inside]

/-- The second digit completes the first byte. -/
theorem decodeDigit_one {pos : Nat} {high : UInt8} (rest : List UInt8) (clear : high.toNat % 4 = 0) (small : pos < 64)
    (inside : out.length < targsize) (size : targsize ≤ out.length + 1 + rest.length)
    (room : out.length + 1 < targsize ∨ pos % 16 = 0)
    : ∃ (a low : UInt8) (tail : List UInt8), a.toNat = high.toNat + pos / 16
      ∧ low.toNat = pos % 16 * 16 ∧ tail.length = rest.length
      ∧ Pending targsize (out.length + 1) low tail
      ∧ decodeDigit targsize ⟨some (out ++ high :: rest), 1, out.length⟩ pos
        = some (.next ⟨some (out ++ a :: tail), 2, out.length + 1⟩) := by
  have room' : out.length + 1 < targsize ∨ UInt8.ofNat ((pos &&& 0x0f) <<< 4) = 0 := by
    refine room.imp_right fun zero => UInt8.toNat_inj.mp ?_
    rw [toNat_next1, zero]
    rfl
  obtain ⟨tail, length, pending, step⟩ :=
    splitBits_eq (UInt8.ofNat (pos >>> 4)) _ rfl inside size room'
  exact ⟨_, _, tail, toNat_first clear small, toNat_next1 pos, length, pending, step⟩

/-- The third digit completes the second byte. -/
theorem decodeDigit_two {pos : Nat} (a : UInt8) (rest : List UInt8) (clear : low.toNat % 16 = 0) (small : pos < 64)
    (inside : out.length + 1 < targsize) (size : targsize ≤ out.length + 2 + rest.length)
    (room : out.length + 2 < targsize ∨ pos % 4 = 0)
    : ∃ (b low' : UInt8) (tail : List UInt8), b.toNat = low.toNat + pos / 4
      ∧ low'.toNat = pos % 4 * 64 ∧ tail.length = rest.length
      ∧ Pending targsize (out.length + 2) low' tail
      ∧ decodeDigit targsize ⟨some (out ++ a :: low :: rest), 2, out.length + 1⟩ pos
        = some (.next ⟨some (out ++ a :: b :: tail), 3, out.length + 2⟩) := by
  have room' : out.length + 2 < targsize ∨ UInt8.ofNat ((pos &&& 0x03) <<< 6) = 0 := by
    refine room.imp_right fun zero => UInt8.toNat_inj.mp ?_
    rw [toNat_next2, zero]
    rfl
  have index : out.length + 1 = (out ++ [a]).length := by simp
  obtain ⟨tail, length, pending, step⟩ :=
    splitBits_eq (UInt8.ofNat (pos >>> 2)) _ index inside size room'
  refine ⟨_, _, tail, toNat_second clear small, toNat_next2 pos, length, pending, ?_⟩
  simp only [List.append_assoc, List.cons_append, List.nil_append] at step
  rw [decodeDigit, step]

theorem decodeDigit_three {pos : Nat} (inside : out.length + 2 < targsize)
    : decodeDigit targsize ⟨some (out ++ a :: b :: low :: rest), 3, out.length + 2⟩ pos
      = some (.next ⟨some (out ++ a :: b :: (low ||| UInt8.ofNat pos) :: rest), 0, out.length + 3⟩) := by
  have index : out.length + 2 = (out ++ [a, b]).length := by simp
  have target : out ++ a :: b :: low :: rest = (out ++ [a, b]) ++ low :: rest := by simp
  rw [target]
  simp only [decodeDigit]
  rw [wholeBits_eq index inside]
  simp

-----------------------------------------------------------------------------------------
-- Decoding of canonical text
-----------------------------------------------------------------------------------------

/-- Two digits give a byte and the high bits of the next one. -/
theorem loop_first (a b : UInt8) (src : List UInt8) (inside : out.length < targsize)
    (size : targsize ≤ out.length + rest.length) (room : out.length + 1 < targsize ∨ b = 0)
    : ∃ (low : UInt8) (tail : List UInt8), low.toNat = b.toNat / 16 * 16
      ∧ tail.length + 1 = rest.length ∧ Pending targsize (out.length + 1) low tail
      ∧ b64Pton.loop targsize (symbol (output0 a).toNat :: symbol (output1 a b).toNat :: src)
          ⟨some (out ++ rest), 0, out.length⟩
        = b64Pton.loop targsize src ⟨some (out ++ a :: tail), 2, out.length + 1⟩ := by
  have a_lt := a.toNat_lt
  have b_lt := b.toNat_lt
  obtain _ | ⟨old, rest⟩ := rest
  · simp only [List.length_nil] at size
    omega
  have zero_room : out.length + 1 < targsize ∨ (output1 a b).toNat % 16 = 0 := by
    refine room.imp_right ?_
    rintro rfl
    rw [toNat_output1]
    simp
  have high := toNat_high (output0_lt a)
  obtain ⟨a', low, tail, a_eq, low_eq, length, pending, step⟩ := decodeDigit_one rest
    (by rw [high]; omega) (output1_lt a b) inside (by rw [List.length_cons] at size; omega)
    zero_room
  obtain rfl : a' = a := by
    apply UInt8.toNat_inj.mp
    rw [a_eq, high, toNat_output0, toNat_output1]
    omega
  refine ⟨low, tail, ?_, by rw [length, List.length_cons], pending, ?_⟩
  · rw [low_eq, toNat_output1]
    omega
  · rw [b64Pton.loop_next (output0_lt a') (decodeDigit_zero inside),
      b64Pton.loop_next (output1_lt a' b) step]

/-- Three digits give two bytes and the high bits of the next one. -/
theorem loop_second (a b c : UInt8) (src : List UInt8) (inside : out.length + 1 < targsize)
    (size : targsize ≤ out.length + rest.length) (room : out.length + 2 < targsize ∨ c = 0)
    : ∃ (low : UInt8) (tail : List UInt8), low.toNat = c.toNat / 64 * 64
      ∧ tail.length + 2 = rest.length ∧ Pending targsize (out.length + 2) low tail
      ∧ b64Pton.loop targsize (symbol (output0 a).toNat :: symbol (output1 a b).toNat
            :: symbol (output2 b c).toNat :: src) ⟨some (out ++ rest), 0, out.length⟩
        = b64Pton.loop targsize src ⟨some (out ++ a :: b :: tail), 3, out.length + 2⟩ := by
  have b_lt := b.toNat_lt
  have c_lt := c.toNat_lt
  obtain ⟨low, tail, low_eq, length, pending, first⟩ := loop_first a b
    (symbol (output2 b c).toNat :: src) (Nat.lt_of_succ_lt inside) size (Or.inl inside)
  rcases pending with ⟨-, rest', rfl⟩ | ⟨full, -⟩
  · rw [List.length_cons] at length
    have zero_room : out.length + 2 < targsize ∨ (output2 b c).toNat % 4 = 0 := by
      refine room.imp_right ?_
      rintro rfl
      rw [toNat_output2]
      simp
    obtain ⟨b', low', tail, b_eq, low'_eq, length', pending, step⟩ := decodeDigit_two a rest'
      (by rw [low_eq]; omega) (output2_lt b c) inside (by omega) zero_room
    obtain rfl : b' = b := by
      apply UInt8.toNat_inj.mp
      rw [b_eq, low_eq, toNat_output2]
      omega
    refine ⟨low', tail, ?_, by omega, pending, ?_⟩
    · rw [low'_eq, toNat_output2]
      omega
    · rw [first, b64Pton.loop_next (output2_lt b' c) step]
  · omega

theorem loop_group (a b c : UInt8) (src : List UInt8) (inside : out.length + 2 < targsize)
    (size : targsize ≤ out.length + rest.length)
    : ∃ tail, tail.length + 3 = rest.length
      ∧ b64Pton.loop targsize (group a b c ++ src) ⟨some (out ++ rest), 0, out.length⟩
        = b64Pton.loop targsize src ⟨some (out ++ a :: b :: c :: tail), 0, out.length + 3⟩ := by
  have c_lt := c.toNat_lt
  obtain ⟨low, tail, low_eq, length, pending, second⟩ := loop_second a b c
    (symbol (output3 c).toNat :: src) (Nat.lt_of_succ_lt inside) size (Or.inl inside)
  rcases pending with ⟨-, tail, rfl⟩ | ⟨full, -⟩
  · refine ⟨tail, by rw [List.length_cons] at length; omega, ?_⟩
    have third : low ||| UInt8.ofNat (output3 c).toNat = c := by
      apply UInt8.toNat_inj.mp
      rw [toNat_third (by rw [low_eq]; omega) (output3_lt c), low_eq, toNat_output3]
      omega
    rw [group, List.cons_append, List.cons_append, List.cons_append, List.cons_append,
      List.nil_append, second, b64Pton.loop_next (output3_lt c) (decodeDigit_three inside), third]
  · omega

/-- The text of the bytes that are still to come is decoded behind the finished ones. -/
theorem loop_encode (x junk : List UInt8) (inside : out.length + x.length ≤ targsize)
    (size : targsize ≤ out.length + rest.length)
    : ∃ tail, x.length + tail.length = rest.length
      ∧ b64Pton.loop targsize (encode x ++ 0 :: junk) ⟨some (out ++ rest), 0, out.length⟩
        = some (toInt (out.length + x.length), some (out ++ x ++ tail)) := by
  induction x using encode.induct generalizing out rest with
  | case1 a b c x ih =>
      simp only [List.length_cons] at inside
      obtain ⟨tail, length, step⟩ := loop_group a b c (encode x ++ 0 :: junk) (by omega) size
      have written : (out ++ [a, b, c]).length = out.length + 3 := by simp
      have size' : targsize ≤ (out ++ [a, b, c]).length + tail.length := by omega
      obtain ⟨tail', length', run⟩ := ih (by omega) size'
      refine ⟨tail', by simp only [List.length_cons]; omega, ?_⟩
      rw [encode, List.append_assoc, step]
      simpa [Nat.add_assoc, Nat.add_comm, Nat.add_left_comm] using run
  | case2 a b =>
      simp only [List.length_cons, List.length_nil] at inside
      obtain ⟨low, tail, low_eq, length, pending, step⟩ := loop_second a b 0
        ([pad64, 0] ++ junk) (by omega) size (Or.inr rfl)
      have zero : low = 0 := UInt8.toNat_inj.mp low_eq
      have index : out.length + 2 = (out ++ [a, b]).length := by simp
      have clear : extraClear targsize ⟨some ((out ++ [a, b]) ++ tail), 3, out.length + 2⟩ = _ :=
        extraClear_eq index pending
      simp only [List.append_assoc, List.cons_append, List.nil_append] at clear
      refine ⟨tail, by simp only [List.length_cons, List.length_nil]; omega, ?_⟩
      rw [encode]
      simp only [List.cons_append, List.nil_append] at step ⊢
      rw [step]
      simp [b64Pton.loop, pad64, isspace, b64Pton.finish, trailer, skipSpaces, clear, zero]
  | case3 a =>
      simp only [List.length_cons, List.length_nil] at inside
      obtain ⟨low, tail, low_eq, length, pending, step⟩ := loop_first a 0
        ([pad64, pad64, 0] ++ junk) (by omega) size (Or.inr rfl)
      have zero : low = 0 := UInt8.toNat_inj.mp low_eq
      have index : out.length + 1 = (out ++ [a]).length := by simp
      have clear : extraClear targsize ⟨some ((out ++ [a]) ++ tail), 2, out.length + 1⟩ = _ :=
        extraClear_eq index pending
      simp only [List.append_assoc, List.cons_append, List.nil_append] at clear
      refine ⟨tail, by simp only [List.length_cons, List.length_nil]; omega, ?_⟩
      rw [encode]
      simp only [List.cons_append, List.nil_append] at step ⊢
      rw [step]
      simp [b64Pton.loop, pad64, isspace, b64Pton.finish, trailer, skipSpaces, spaceAt, clear, zero]
  | case4 =>
      exact ⟨rest, by simp, by simp [encode, b64Pton.loop, b64Pton.finish]⟩

end BSDLibC.Base64
