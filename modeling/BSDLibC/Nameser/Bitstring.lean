import BSDLibC.Nameser.Print

/-! How `encode_bitsring` reads the digits of a bit string. -/

namespace BSDLibC.Nameser

open Bytes Ctype

variable {room left : Nat} {bits : Bits} {cp : List UInt8}

-----------------------------------------------------------------------------------------
-- Digits of the bits
-----------------------------------------------------------------------------------------

/-- The step for a digit, without the check of the number of bits. -/
def Bits.feed (bits : Bits) (d : Nat) : Bits :=
  let value := (bits.value <<< 4 + d) % 2 ^ 32
  if bits.count + 4 = 8 then
    { bits with
      value := value,
      count := 0,
      tbcount := bits.tbcount + 4,
      tp := bits.tp ++ [UInt8.ofNat value] }
  else
    { bits with value := value, count := bits.count + 4, tbcount := bits.tbcount + 4 }

@[simp] theorem Bits.feed_tbcount (bits : Bits) (d : Nat) : (bits.feed d).tbcount = bits.tbcount + 4 := by
  rw [Bits.feed]
  split <;> rfl

@[simp] theorem Bits.feed_afterslash (bits : Bits) (d : Nat)
    : (bits.feed d).afterslash = bits.afterslash := by
  rw [Bits.feed]
  split <;> rfl

@[simp] theorem Bits.feed_begBlen (bits : Bits) (d : Nat) : (bits.feed d).begBlen = bits.begBlen := by
  rw [Bits.feed]
  split <;> rfl

theorem hexDigit_plain {d : Nat} (h : d < 16)
    : isxdigit (digitByte d).toNat = true ∧ digitvalue (digitByte d) = d ∧ digitByte d ≠ 0x5d
      ∧ digitByte d ≠ 0x2f := by
  have all : ∀ d : Fin 16, isxdigit (digitByte d).toNat = true ∧ digitvalue (digitByte d) = d
      ∧ digitByte d ≠ 0x5d ∧ digitByte d ≠ 0x2f := by
    decide
  exact all ⟨d, h⟩

theorem bitsDigit_eq {d : Nat} (h : d < 16)
    : bitsDigit bits (digitByte d)
      = if bits.tbcount + 4 > 256 then .error .EINVAL else .ok (bits.feed d) := by
  obtain ⟨isHex, value, -, -⟩ := hexDigit_plain h
  rw [bitsDigit, isHex, value, if_neg (by simp), Bits.feed]
  split
  · rfl
  · split <;> rfl

theorem scanBits_digit {d : Nat} (h : d < 16) (before : bits.afterslash = false)
    (space : bits.tp.length < room)
    : scanBits room (left + 1) (digitByte d :: cp) bits
      = if bits.tbcount + 4 > 256 then .error .EINVAL else scanBits room left cp (bits.feed d) := by
  obtain ⟨-, -, noClose, noSlash⟩ := hexDigit_plain h
  rw [scanBits, if_neg (by omega), List.headD_cons, if_neg noClose, if_neg noSlash, before,
    if_neg Bool.false_ne_true, bitsDigit_eq h]
  by_cases full : bits.tbcount + 4 > 256
  · rw [if_pos full, if_pos full]
  · rw [if_neg full, if_neg full, List.tail_cons]

theorem length_tp_le_foldl (bits : Bits) (ds : List Nat)
    : bits.tp.length ≤ (ds.foldl Bits.feed bits).tp.length := by
  induction ds generalizing bits with
  | nil => exact le_rfl
  | cons d ds ih =>
      refine Nat.le_trans ?_ (ih (bits.feed d))
      rw [Bits.feed]
      split
      · simp
      · exact le_rfl

theorem scanBits_digits {ds : List Nat} (small : ∀ d ∈ ds, d < 16) (before : bits.afterslash = false)
    (space : (ds.foldl Bits.feed bits).tp.length < room) (total : bits.tbcount + 4 * ds.length ≤ 256)
    (left : Nat) (cp : List UInt8)
    : scanBits room (ds.length + left) (ds.map digitByte ++ cp) bits
      = scanBits room left cp (ds.foldl Bits.feed bits) := by
  induction ds generalizing bits with
  | nil => simp
  | cons d ds ih =>
      rw [List.length_cons] at total
      have here := Nat.lt_of_le_of_lt (length_tp_le_foldl bits (d :: ds)) space
      have later : scanBits room (ds.length + left) (ds.map digitByte ++ cp) (bits.feed d) = _ :=
        ih (fun d member => small d (by simp [member])) (by rw [Bits.feed_afterslash]; exact before)
          space (by rw [Bits.feed_tbcount]; omega)
      rw [List.length_cons, show ds.length + 1 + left = ds.length + left + 1 by omega, List.map_cons,
        List.cons_append, scanBits_digit (small d (by simp)) before here, if_neg (by omega), later,
        List.foldl_cons]

-----------------------------------------------------------------------------------------
-- Whole bytes
-----------------------------------------------------------------------------------------

/-- The digits of whole bytes. -/
def nibbles (data : List UInt8) : List Nat :=
  data.flatMap (fun byte => [byte.toNat / 16, byte.toNat % 16])

theorem nibbles_lt (data : List UInt8) : ∀ d ∈ nibbles data, d < 16 := by
  intro d member
  obtain ⟨byte, -, digit⟩ := List.mem_flatMap.mp member
  have := byte.toNat_lt
  simp only [List.mem_cons, List.not_mem_nil, or_false] at digit
  omega

theorem length_nibbles (data : List UInt8) : (nibbles data).length = 2 * data.length := by
  induction data with
  | nil => rfl
  | cons byte data ih =>
      rw [nibbles, List.flatMap_cons, List.length_append, ← nibbles, ih, List.length_cons]
      simp only [List.length_cons, List.length_nil]
      omega

/-- The two digits of a byte store it. It is the last byte of `value` then. -/
theorem Bits.feed_byte (byte : UInt8) (start : bits.count = 0)
    : ∃ value, (bits.feed (byte.toNat / 16)).feed (byte.toNat % 16)
        = { bits with value := value, tbcount := bits.tbcount + 8, tp := bits.tp ++ [byte] }
      ∧ UInt8.ofNat value = byte := by
  have lt := byte.toNat_lt
  have stored : UInt8.ofNat
      ((((bits.value <<< 4 + byte.toNat / 16) % 2 ^ 32) <<< 4 + byte.toNat % 16) % 2 ^ 32) = byte := by
    apply UInt8.toNat_inj.mp
    rw [UInt8.toNat_ofNat', Nat.shiftLeft_eq, Nat.shiftLeft_eq]
    omega
  refine ⟨_, ?_, stored⟩
  simp only [Bits.feed, start, Nat.zero_add, show ¬ 4 = 8 by decide, if_false, Nat.reduceAdd, if_true,
    stored]

theorem foldl_nibbles (data : List UInt8) (bits : Bits) (start : bits.count = 0)
    : ∃ value, (nibbles data).foldl Bits.feed bits
        = { bits with
            value := value, tbcount := bits.tbcount + 8 * data.length, tp := bits.tp ++ data }
      ∧ UInt8.ofNat value = data.getLastD (UInt8.ofNat bits.value) := by
  induction data generalizing bits with
  | nil => exact ⟨bits.value, by simp [nibbles], rfl⟩
  | cons byte data ih =>
      obtain ⟨value, fed, last⟩ := Bits.feed_byte byte start
      obtain ⟨value', rest, last'⟩ := ih
        { bits with value := value, tbcount := bits.tbcount + 8, tp := bits.tp ++ [byte] } start
      refine ⟨value', ?_, ?_⟩
      · have total : bits.tbcount + 8 + 8 * data.length = bits.tbcount + 8 * (data.length + 1) := by
          omega
        rw [nibbles, List.flatMap_cons, ← nibbles, List.cons_append, List.cons_append, List.nil_append,
          List.foldl_cons, List.foldl_cons, fed, rest, List.length_cons]
        simp [total]
      · rw [last', last, List.getLastD_cons]

-----------------------------------------------------------------------------------------
-- The length
-----------------------------------------------------------------------------------------

theorem decimal_plain {d : Nat} (h : d < 10)
    : isdigit (digitByte d).toNat = true ∧ (digitByte d).toNat - 0x30 = d ∧ digitByte d ≠ 0x5d
      ∧ digitByte d ≠ 0x2f ∧ (digitByte d = 0x30 → d = 0) := by
  have all : ∀ d : Fin 10, isdigit (digitByte d).toNat = true ∧ (digitByte d).toNat - 0x30 = d
      ∧ digitByte d ≠ 0x5d ∧ digitByte d ≠ 0x2f ∧ (digitByte d = 0x30 → d.val = 0) := by
    decide
  exact all ⟨d, h⟩

/-- The digits of a length after its first one. -/
theorem scanBits_length {ds : List Nat} (small : ∀ d ∈ ds, d < 10) (after : bits.afterslash = true)
    (begun : bits.begBlen ≠ none) (space : bits.tp.length < room)
    : scanBits room (ds.length + left) (ds.map digitByte ++ cp) bits = scanBits room left cp bits := by
  induction ds with
  | nil => simp
  | cons d ds ih =>
      obtain ⟨isDigit, -, noClose, noSlash, -⟩ := decimal_plain (small d (by simp))
      have digit : lengthDigit bits (digitByte d :: (ds.map digitByte ++ cp)) (digitByte d) = .ok bits := by
        simp [lengthDigit, isDigit, begun]
      rw [List.length_cons, show ds.length + 1 + left = ds.length + left + 1 by omega, List.map_cons,
        List.cons_append, scanBits, if_neg (by omega), List.headD_cons, if_neg noClose, if_neg noSlash,
        after, if_pos rfl, digit, List.tail_cons]
      exact ih fun d member => small d (by simp [member])

theorem strtol10_digits {ds : List Nat} (small : ∀ d ∈ ds, d < 10) (val : Nat)
    : strtol10 (ds.map digitByte ++ 0x5d :: cp) val
      = (min (ds.foldl (fun v d => v * 10 + d) val) (2 ^ 63 - 1), 0x5d :: cp) := by
  induction ds generalizing val with
  | nil => simp [strtol10, isdigit]
  | cons d ds ih =>
      obtain ⟨isDigit, value, -⟩ := decimal_plain (small d (by simp))
      rw [List.map_cons, List.cons_append, strtol10, if_pos isDigit, value,
        ih fun d member => small d (by simp [member]), List.foldl_cons]

theorem toInt_small {n : Nat} (h : n ≤ 256) : toInt n = n := by
  rw [toInt, if_pos (by omega)]
  omega

theorem Bits.padded_tbcount (bits : Bits) : bits.padded.tbcount = bits.tbcount := by
  rw [Bits.padded]
  split <;> rfl

theorem Bits.padded_value (bits : Bits) : bits.padded.value = bits.value := by
  rw [Bits.padded]
  split <;> rfl

/-- The variables behind a length. -/
def Bits.measured (bits : Bits) (text : List UInt8) : Bits :=
  { bits with afterslash := true, begBlen := some text }

/-- A length and the closing bracket. -/
theorem scanBits_tail {count : Nat} (pos : 1 ≤ count) (max : count ≤ 256)
    (fresh : bits.begBlen = none) (space : bits.tp.length < room)
    : scanBits room ((numeral 10 count).length + left + 2)
          (0x2f :: (numeral 10 count ++ 0x5d :: cp)) bits
      = .ok ⟨(bits.measured (numeral 10 count ++ 0x5d :: cp)).padded, count, cp, left⟩ := by
  have small : ∀ d ∈ numeralDigits 10 count, d < 10 := fun d => numeralDigits_lt (by decide)
  have value := foldl_numeralDigits 10 count
  have number : strtol10 (numeral 10 count ++ 0x5d :: cp) 0 = _ := strtol10_digits small 0
  rw [value, Nat.min_eq_left (by omega)] at number
  cases digits : numeralDigits 10 count with
  | nil =>
      have := numeralDigits_length_pos 10 count
      simp [digits] at this
  | cons d more =>
      rw [digits] at small value
      obtain ⟨isDigit, -, noClose, noSlash, zero⟩ := decimal_plain (small d (by simp))
      have nonzero : digitByte d ≠ 0x30 := by
        intro same
        rw [zero same] at digits value
        rw [numeralDigits_head digits] at value
        simp at value
        omega
      have text : numeral 10 count = digitByte d :: more.map digitByte := by
        rw [numeral, digits, List.map_cons]
      -- The length begins at its first digit.
      have first : lengthDigit { bits with afterslash := true }
          (digitByte d :: (more.map digitByte ++ 0x5d :: cp)) (digitByte d)
          = .ok (bits.measured (numeral 10 count ++ 0x5d :: cp)) := by
        simp [lengthDigit, isDigit, fresh, nonzero, text, Bits.measured]
      have rest : scanBits room (more.length + (left + 1)) (more.map digitByte ++ 0x5d :: cp)
          (bits.measured (numeral 10 count ++ 0x5d :: cp)) = _ :=
        scanBits_length (fun d member => small d (by simp [member])) rfl (by simp [Bits.measured]) space
      have close : closeBits (bits.measured (numeral 10 count ++ 0x5d :: cp)) cp left
          = .ok ⟨(bits.measured (numeral 10 count ++ 0x5d :: cp)).padded, count, cp, left⟩ := by
        simp [closeBits, Bits.measured, number, toInt_small max]
      calc scanBits room ((numeral 10 count).length + left + 2)
            (0x2f :: (numeral 10 count ++ 0x5d :: cp)) bits
          = scanBits room (more.length + (left + 1) + 1)
              (digitByte d :: (more.map digitByte ++ 0x5d :: cp)) { bits with afterslash := true } := by
            rw [scanBits, if_neg (Nat.not_le.mpr space), List.headD_cons, if_neg (by decide),
              if_pos rfl, List.tail_cons, text]
            simp only [List.length_cons, List.length_map, List.cons_append]
            congr 1
            omega
        _ = scanBits room (more.length + (left + 1)) (more.map digitByte ++ 0x5d :: cp)
              (bits.measured (numeral 10 count ++ 0x5d :: cp)) := by
            rw [scanBits, if_neg (Nat.not_le.mpr space), List.headD_cons, if_neg noClose,
              if_neg noSlash, if_pos rfl, first, List.tail_cons]
        _ = scanBits room (left + 1) (0x5d :: cp) (bits.measured (numeral 10 count ++ 0x5d :: cp)) :=
            rest
        _ = .ok ⟨(bits.measured (numeral 10 count ++ 0x5d :: cp)).padded, count, cp, left⟩ := by
            have space' : ¬ (bits.measured (numeral 10 count ++ 0x5d :: cp)).tp.length ≥ room :=
              Nat.not_le.mpr space
            rw [scanBits, if_neg space', List.headD_cons, if_pos rfl, List.tail_cons, close]

-----------------------------------------------------------------------------------------
-- The digits that are printed
-----------------------------------------------------------------------------------------

theorem numeral_digit {n : Nat} (h : n < 16) : numeral 16 n = [digitByte n] := by
  rw [numeral, numeralDigits]
  split
  · next zero => simp [zero]
  · next nonzero => rw [Nat.digits_of_lt 16 n nonzero h, List.reverse_singleton, List.map_singleton]

theorem hex2_byte (byte : UInt8)
    : hex2 byte.toNat = [byte.toNat / 16, byte.toNat % 16].map digitByte := by
  have lt := byte.toNat_lt
  by_cases small : byte.toNat < 16
  · rw [hex2, numeral_digit small, Nat.div_eq_of_lt small, Nat.mod_eq_of_lt small]
    rfl
  · have digits : Nat.digits 16 byte.toNat = [byte.toNat % 16, byte.toNat / 16] := by
      rw [Nat.digits_def' (by decide) (by omega), Nat.digits_of_lt 16 _ (by omega) (by omega)]
    rw [hex2, numeral, numeralDigits, if_neg (by omega), digits]
    rfl

theorem flatMap_hex2 (data : List UInt8)
    : data.flatMap (fun byte => hex2 byte.toNat) = (nibbles data).map digitByte := by
  rw [nibbles, List.map_flatMap]
  congr
  funext byte
  exact hex2_byte byte

/-- Five bits or more of a byte with a clear sign are printed as its two digits. -/
theorem lastBits_two {b : Nat} {tc : UInt8} (low : 4 < b) (high : b < 8) (plus : tc < 0x80)
    (pad : tc.toNat % 2 ^ (8 - b) = 0)
    : lastBits b tc = [tc.toNat / 16, tc.toNat % 16].map digitByte := by
  have all : ∀ (b : Fin 8) (n : Fin 128), 4 < b.val → n.val % 2 ^ (8 - b.val) = 0
      → n.val &&& 0xff <<< (8 - b.val) = n.val := by
    decide +kernel
  have mask := all ⟨b, high⟩ ⟨tc.toNat, UInt8.lt_iff_toNat_lt.mp plus⟩ low pad
  simp only at mask
  rw [lastBits, if_pos low, signExtend, if_pos plus, mask, hex2_byte]

/-- Four bits or less are printed as one digit. -/
theorem lastBits_one {b : Nat} {tc : UInt8} (pos : 0 < b) (low : b ≤ 4)
    (pad : tc.toNat % 2 ^ (8 - b) = 0)
    : lastBits b tc = [digitByte (tc.toNat / 16)] := by
  have all : ∀ (b : Fin 5) (n : Fin 256), 0 < b.val → n.val % 2 ^ (8 - b.val) = 0
      → n.val >>> 4 &&& 0x0f &&& 0x0f <<< (4 - b.val) = n.val / 16
        ∧ (0xffffff00 + n.val) >>> 4 &&& 0x0f &&& 0x0f <<< (4 - b.val) = n.val / 16 := by
    decide +kernel
  obtain ⟨plus, minus⟩ := all ⟨b, Nat.lt_succ_of_le low⟩ ⟨tc.toNat, tc.toNat_lt⟩ pos pad
  simp only at plus minus
  have digit : signExtend tc >>> 4 &&& 0x0f &&& 0x0f <<< (4 - b) = tc.toNat / 16 := by
    rw [signExtend]
    split
    · exact plus
    · exact minus
  have lt := tc.toNat_lt
  rw [lastBits, if_neg (by omega), digit, numeral_digit (by omega)]

/-- With a sign, there is a third digit. -/
theorem lastBits_signed {b : Nat} {tc : UInt8} (low : 4 < b) (high : b < 8) (minus : ¬ tc < 0x80)
    : ∃ ds : List Nat, lastBits b tc = ds.map digitByte ∧ ds.length = 3 ∧ ∀ d ∈ ds, d < 16 := by
  have all : ∀ (b : Fin 8) (n : Fin 128), 4 < b.val
      → 256 ≤ (0xffffff00 + (n.val + 128)) &&& 0xff <<< (8 - b.val)
        ∧ (0xffffff00 + (n.val + 128)) &&& 0xff <<< (8 - b.val) < 16 ^ 3 := by
    decide +kernel
  have lt := tc.toNat_lt
  have ge : 128 ≤ tc.toNat := Nat.not_lt.mp (fun small => minus (UInt8.lt_iff_toNat_lt.mpr small))
  obtain ⟨big, fits⟩ := all ⟨b, high⟩ ⟨tc.toNat - 128, by omega⟩ low
  simp only [Nat.sub_add_cancel ge] at big fits
  refine ⟨numeralDigits 16 ((0xffffff00 + tc.toNat) &&& 0xff <<< (8 - b)), ?_, ?_, ?_⟩
  · have digits := lt_length_numeralDigits (by decide) (show 16 ^ 2 ≤ _ from big)
    rw [lastBits, if_pos low, signExtend, if_neg minus, hex2, length_numeral,
      show 2 - _ = 0 from Nat.sub_eq_zero_of_le digits.le]
    rfl
  · have digits := lt_length_numeralDigits (by decide) (show 16 ^ 2 ≤ _ from big)
    have most := numeralDigits_length_le (by decide) (by decide) fits
    omega
  · exact fun d => numeralDigits_lt (by decide)

end BSDLibC.Nameser
