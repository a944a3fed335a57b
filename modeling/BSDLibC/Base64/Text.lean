import BSDLibC.Base64.Codec

/-! The canonical text of a byte string, and how `b64_ntop` writes it. -/

namespace BSDLibC.Base64

open Bytes Ctype

/-- The character for a value below 64. -/
def symbol (pos : Nat) : UInt8 := base64.getD pos 0

/-- The characters for three bytes. -/
def group (a b c : UInt8) : List UInt8 :=
  [symbol (output0 a).toNat, symbol (output1 a b).toNat, symbol (output2 b c).toNat,
    symbol (output3 c).toNat]

/-- The canonical text. -/
def encode : List UInt8 → List UInt8
  | a :: b :: c :: rest => group a b c ++ encode rest
  | [a, b] =>
      [symbol (output0 a).toNat, symbol (output1 a b).toNat, symbol (output2 b 0).toNat, pad64]
  | [a] => [symbol (output0 a).toNat, symbol (output1 a 0).toNat, pad64, pad64]
  | [] => []

theorem length_encode (x : List UInt8) : (encode x).length = 4 * ((x.length + 2) / 3) := by
  induction x using encode.induct with
  | case1 a b c rest ih =>
      simp only [encode, group, List.length_append, List.length_cons, List.length_nil, ih]
      omega
  | case2 a b => simp [encode]
  | case3 a => simp [encode]
  | case4 => rfl

/-- A text after full groups. -/
theorem encode_append (full x : List UInt8) (h : full.length % 3 = 0)
    : encode (full ++ x) = encode full ++ encode x := by
  induction full using encode.induct with
  | case1 a b c rest ih =>
      have full : rest.length % 3 = 0 := by
        simp only [List.length_cons] at h
        omega
      simp [encode, ih full]
  | case2 a b => simp at h
  | case3 a => simp at h
  | case4 => rfl

-----------------------------------------------------------------------------------------
-- The values of the characters
-----------------------------------------------------------------------------------------

theorem toNat_output0 (a : UInt8) : (output0 a).toNat = a.toNat / 4 := by
  simp [output0, Nat.shiftRight_eq_div_pow]

theorem toNat_output1 (a b : UInt8) : (output1 a b).toNat = a.toNat % 4 * 16 + b.toNat / 16 := by
  have := b.toNat_lt
  have low : a.toNat &&& 3 = a.toNat % 4 := Nat.and_two_pow_sub_one_eq_mod a.toNat 2
  simp only [output1, UInt8.toNat_add, UInt8.toNat_shiftLeft, UInt8.toNat_and, UInt8.toNat_shiftRight,
    UInt8.reduceToNat, Nat.reduceMod, low, Nat.shiftLeft_eq, Nat.shiftRight_eq_div_pow, Nat.reducePow]
  omega

theorem toNat_output2 (b c : UInt8) : (output2 b c).toNat = b.toNat % 16 * 4 + c.toNat / 64 := by
  have := c.toNat_lt
  have low : b.toNat &&& 15 = b.toNat % 16 := Nat.and_two_pow_sub_one_eq_mod b.toNat 4
  simp only [output2, UInt8.toNat_add, UInt8.toNat_shiftLeft, UInt8.toNat_and, UInt8.toNat_shiftRight,
    UInt8.reduceToNat, Nat.reduceMod, low, Nat.shiftLeft_eq, Nat.shiftRight_eq_div_pow, Nat.reducePow]
  omega

theorem toNat_output3 (c : UInt8) : (output3 c).toNat = c.toNat % 64 := by
  simpa [output3] using Nat.and_two_pow_sub_one_eq_mod c.toNat 6

theorem output0_lt (a : UInt8) : (output0 a).toNat < 64 := by
  have := a.toNat_lt
  rw [toNat_output0]
  omega

theorem output1_lt (a b : UInt8) : (output1 a b).toNat < 64 := by
  have := b.toNat_lt
  rw [toNat_output1]
  omega

theorem output2_lt (b c : UInt8) : (output2 b c).toNat < 64 := by
  have := c.toNat_lt
  rw [toNat_output2]
  omega

theorem output3_lt (c : UInt8) : (output3 c).toNat < 64 := by
  rw [toNat_output3]
  omega

/-- The assertions of `b64_ntop` hold. -/
theorem digit_eq {output : UInt8} (h : output.toNat < 64)
    : digit output = some (symbol output.toNat) := by
  have inside : output.toNat < base64.length := h
  rw [digit, symbol, List.getD_eq_getElem?_getD, List.getElem?_eq_getElem inside, Option.getD_some]

theorem digit_output0 (a : UInt8) : digit (output0 a) = some (symbol (output0 a).toNat) :=
  digit_eq (output0_lt a)

theorem digit_output1 (a b : UInt8) : digit (output1 a b) = some (symbol (output1 a b).toNat) :=
  digit_eq (output1_lt a b)

theorem digit_output2 (b c : UInt8) : digit (output2 b c) = some (symbol (output2 b c).toNat) :=
  digit_eq (output2_lt b c)

theorem digit_output3 (c : UInt8) : digit (output3 c) = some (symbol (output3 c).toNat) :=
  digit_eq (output3_lt c)

-----------------------------------------------------------------------------------------
-- `b64_ntop`
-----------------------------------------------------------------------------------------

/-- The terminator goes behind the text. -/
theorem store_end {written rest : List UInt8} {i : Nat} (h : i = written.length)
    (room : 0 < rest.length)
    : store (written ++ rest) i 0 = some (written ++ 0 :: rest.drop 1) := by
  obtain _ | ⟨old, rest⟩ := rest
  · simp at room
  · simpa using store_append h 0

/-- The last group and the terminator. -/
theorem b64Ntop.finish_eq {src written rest : List UInt8} {targsize : Nat} (short : src.length < 3)
    (room : (encode src).length < rest.length)
    (size : written.length + (encode src).length < targsize)
    : b64Ntop.finish targsize src (written ++ rest) written.length
      = some (toInt (written.length + (encode src).length),
          written ++ encode src ++ 0 :: rest.drop ((encode src).length + 1)) := by
  have ends (chars : List UInt8) (length : chars.length = 4) (fits : 4 < rest.length)
      (size : written.length + 4 < targsize)
      : (storeAll (written ++ rest) written.length chars).bind (fun target =>
          if written.length + 4 ≥ targsize then some (-1, target) else
          (store target (written.length + 4) 0).bind (fun target =>
            some (toInt (written.length + 4), target)))
        = some (toInt (written.length + 4), written ++ chars ++ 0 :: rest.drop 5) := by
    rw [storeAll_append chars rfl (by omega), Option.bind_some, if_neg (by omega),
      store_end (by simp [length]) (by rw [List.length_drop]; omega), Option.bind_some,
      List.drop_drop, length]
  obtain _ | ⟨a, _ | ⟨b, _ | ⟨c, src⟩⟩⟩ := src
  · have size : written.length < targsize := by simpa [encode] using size
    have room : 0 < rest.length := by simpa [encode] using room
    have big : ¬ targsize ≤ written.length := by omega
    simp [b64Ntop.finish, encode, big, store_end rfl room]
  · have size : written.length + 4 < targsize := by simpa [encode] using size
    have big : ¬ targsize < written.length + 4 := by omega
    have := ends (encode [a]) (by simp [encode]) room size
    simpa [b64Ntop.finish, encode, digit_output0, digit_output1, digit_output2, big] using this
  · have size : written.length + 4 < targsize := by simpa [encode] using size
    have big : ¬ targsize < written.length + 4 := by omega
    have := ends (encode [a, b]) (by simp [encode]) room size
    simpa [b64Ntop.finish, encode, digit_output0, digit_output1, digit_output2, big] using this
  · simp only [List.length_cons] at short
    omega

theorem b64Ntop.loop_eq {src written rest : List UInt8} {targsize : Nat}
    (room : (encode src).length < rest.length)
    (size : written.length + (encode src).length < targsize)
    : b64Ntop.loop targsize src (written ++ rest) written.length
      = some (toInt (written.length + (encode src).length),
          written ++ encode src ++ 0 :: rest.drop ((encode src).length + 1)) := by
  induction src using encode.induct generalizing written rest with
  | case1 a b c src ih =>
      simp only [encode, List.length_append] at room size ⊢
      have four : (group a b c).length = 4 := rfl
      have stored : storeAll (written ++ rest) written.length (group a b c) = _ :=
        storeAll_append (group a b c) rfl (by omega)
      have rest_eq : b64Ntop.loop targsize src ((written ++ group a b c) ++ rest.drop 4) _ = _ :=
        ih (by rw [List.length_drop]; omega) (by rw [List.length_append]; omega)
      rw [b64Ntop.loop]
      simp only [digit_output0, digit_output1, digit_output2, digit_output3, Option.bind_eq_bind,
        Option.bind_some]
      rw [if_neg (by omega), ← group, stored, Option.bind_some, four]
      rw [List.length_append, four] at rest_eq
      rw [rest_eq, List.drop_drop]
      simp only [List.append_assoc, Nat.add_assoc]
  | case2 a b => exact b64Ntop.finish_eq (by simp) room size
  | case3 a => exact b64Ntop.finish_eq (by simp) room size
  | case4 => exact b64Ntop.finish_eq (by simp) room size

/-- With room for the text, `b64_ntop` writes it and its terminator. -/
theorem b64Ntop_eq {x target : List UInt8} {targsize : Nat} (inside : targsize ≤ target.length)
    (size : (encode x).length < targsize)
    : b64Ntop x target targsize
      = some (toInt (encode x).length, encode x ++ 0 :: target.drop ((encode x).length + 1)) := by
  have run : b64Ntop.loop targsize x ([] ++ target) _ = _ :=
    b64Ntop.loop_eq (by omega) (by simpa using size)
  simpa [b64Ntop] using run

end BSDLibC.Base64
