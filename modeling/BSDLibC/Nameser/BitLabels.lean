import BSDLibC.Nameser.Bitstring

/-! A bit string label is read back, unless a sign has spoilt its last byte. -/

namespace BSDLibC.Nameser

open Bytes Ctype

variable {room left count : Nat} {data cp : List UInt8}

/-- The last byte is printed through a `char` that has a sign when more than four of its bits
are used. The label is fine if it is positive then.
-/
def Label.Unsigned : Label → Prop
  | .ordinary _ => True
  | .bits count data => 4 < count % 8 → data.getLastD 0 < 0x80

/-- The digits of a label that is fine. -/
def goodDigits (count : Nat) (data : List UInt8) : List Nat :=
  if 0 < count % 8 ∧ count % 8 ≤ 4 then
    nibbles (data.take (count / 8)) ++ [(data.getLastD 0).toNat / 16]
  else
    nibbles data

/-- A last byte that is not used up stands alone. -/
theorem data_split (length : data.length = (count + 7) / 8) (partly : 0 < count % 8)
    : data = data.take (count / 8) ++ [data.getLastD 0]
      ∧ data.getD (count / 8) 0 = data.getLastD 0 := by
  have index : count / 8 = data.length - 1 := by omega
  have nonempty : data ≠ [] := List.ne_nil_of_length_pos (by omega)
  have last : data.getLastD 0 = data.getLast nonempty := by
    rw [List.getLastD_eq_getLast?, List.getLast?_eq_some_getLast nonempty, Option.getD_some]
  refine ⟨?_, ?_⟩
  · rw [last, index, ← List.dropLast_eq_take, List.dropLast_append_getLast]
  · rw [index, List.getD_eq_getElem?_getD, ← List.getLast?_eq_getElem?, ← List.getLastD_eq_getLast?]

theorem pad_last (h : (Label.bits count data).Valid) (partly : 0 < count % 8)
    : (data.getLastD 0).toNat % 2 ^ (8 - count % 8) = 0 := by
  obtain ⟨-, -, length, pad⟩ := h
  have := Nat.div_add_mod count 8
  rw [padClear, length, show 8 * ((count + 7) / 8) - count = 8 - count % 8 by omega] at pad
  exact pad

/-- What is printed for a label that is fine. -/
theorem bitsText_good (h : (Label.bits count data).Valid) (good : (Label.bits count data).Unsigned)
    : bitsText count data = (goodDigits count data).map digitByte := by
  have length := h.2.2.1
  rw [bitsText, flatMap_hex2]
  by_cases partly : 0 < count % 8
  · have pad := pad_last h partly
    obtain ⟨split, last⟩ := data_split length partly
    rw [if_pos partly, last, goodDigits]
    by_cases four : count % 8 ≤ 4
    · rw [if_pos ⟨partly, four⟩, lastBits_one partly four pad, List.map_append, List.map_singleton]
    · rw [if_neg (by omega), lastBits_two (by omega) (Nat.mod_lt _ (by decide)) (good (by omega)) pad]
      conv_rhs => rw [split]
      rw [nibbles, nibbles, List.flatMap_append, List.map_append]
      rfl
  · have all : data.take (count / 8) = data := List.take_of_length_le (by omega)
    rw [if_neg partly, goodDigits, if_neg (by omega), all, List.append_nil]

/-- The variables before the first digit. -/
def Bits.start : Bits := ⟨false, none, 0, 0, 0, []⟩

/-- The bits that the length leaves out of the last digit are zero. -/
theorem trail_zero {value last t : Nat} (low : t < 8) (same : value % 2 ^ t = last % 2 ^ t)
    (pad : last % 2 ^ t = 0)
    : value <<< (8 - t) % 256 = 0 := by
  have whole : 2 ^ 8 = 2 ^ t * 2 ^ (8 - t) := by rw [← Nat.pow_add, Nat.add_sub_cancel' low.le]
  rw [Nat.shiftLeft_eq, show 256 = 2 ^ t * 2 ^ (8 - t) from whole, Nat.mul_mod_mul_right, same, pad,
    Nat.zero_mul]

/-- The variables after the digits: the label is complete but for the padding, and the bits that
the length leaves out are zero.
-/
structure Complete (bits : Bits) (count : Nat) (data : List UInt8) : Prop where
  tp : ∀ text, (bits.measured text).padded.tp = data
  length : bits.tp.length ≤ data.length
  tbcount : bits.tbcount = (count + 3) / 4 * 4
  trail : bits.value <<< (8 - (bits.tbcount - count)) % 256 = 0
  begBlen : bits.begBlen = none

/-- A single digit at the end. -/
theorem complete_one (h : (Label.bits count data).Valid) (partly : 0 < count % 8)
    (four : count % 8 ≤ 4)
    : Complete ((nibbles (data.take (count / 8)) ++ [(data.getLastD 0).toNat / 16]).foldl Bits.feed
        Bits.start) count data := by
  have length := h.2.2.1
  have pad := pad_last h partly
  obtain ⟨split, -⟩ := data_split length partly
  have taken : (data.take (count / 8)).length = count / 8 := by
    rw [List.length_take]
    omega
  obtain ⟨value, whole, -⟩ := foldl_nibbles (data.take (count / 8)) Bits.start rfl
  have lt := (data.getLastD 0).toNat_lt
  generalize data.getLastD 0 = tc at split pad lt ⊢
  have sixteen : tc.toNat % 16 = 0 := by
    have divides : 2 ^ 4 ∣ 2 ^ (8 - count % 8) := Nat.pow_dvd_pow 2 (by omega)
    exact Nat.mod_eq_zero_of_dvd (Nat.dvd_trans divides (Nat.dvd_of_mod_eq_zero pad))
  rw [List.foldl_append, whole, taken]
  have fed : Bits.feed { Bits.start with
        value := value, tbcount := Bits.start.tbcount + 8 * (count / 8),
        tp := Bits.start.tp ++ data.take (count / 8) } (tc.toNat / 16)
      = ⟨false, none, (value <<< 4 + tc.toNat / 16) % 2 ^ 32, 4, 8 * (count / 8) + 4,
          data.take (count / 8)⟩ := by
    simp [Bits.feed, Bits.start]
  rw [List.foldl_cons, List.foldl_nil, fed]
  refine ⟨?_, ?_, ?_, ?_, rfl⟩
  · intro text
    have last : UInt8.ofNat (((value <<< 4 + tc.toNat / 16) % 2 ^ 32) <<< 4) = tc := by
      apply UInt8.toNat_inj.mp
      rw [UInt8.toNat_ofNat', Nat.shiftLeft_eq, Nat.shiftLeft_eq]
      omega
    rw [Bits.padded, if_pos (by simp [Bits.measured])]
    simp only [Bits.measured, last]
    exact split.symm
  · simp only [taken]
    omega
  · simp only
    omega
  · have amount : 8 * (count / 8) + 4 - count = 4 - count % 8 := by omega
    have digit : tc.toNat / 16 % 2 ^ (4 - count % 8) = 0 := by
      rw [← Nat.mod_mul_right_div_self, show 16 * 2 ^ (4 - count % 8) = 2 ^ (8 - count % 8) by
        rw [show 8 - count % 8 = 4 + (4 - count % 8) by omega, Nat.pow_add], pad]
    have bits32 : 2 ^ (4 - count % 8) ∣ 2 ^ 32 := Nat.pow_dvd_pow 2 (by omega)
    have high : 2 ^ (4 - count % 8) ∣ value <<< 4 := by
      rw [Nat.shiftLeft_eq]
      exact Nat.dvd_mul_left_of_dvd (Nat.pow_dvd_pow 2 (by omega)) value
    simp only [amount]
    refine trail_zero (by omega) ?_ digit
    rw [Nat.mod_mod_of_dvd _ bits32, Nat.add_mod, Nat.mod_eq_zero_of_dvd high, Nat.zero_add,
      Nat.mod_mod]

theorem foldl_good (h : (Label.bits count data).Valid)
    : Complete ((goodDigits count data).foldl Bits.feed Bits.start) count data := by
  rw [goodDigits]
  split
  · next some => exact complete_one h some.1 some.2
  · next whole =>
      obtain ⟨pos, max, length, pad⟩ := h
      obtain ⟨value, fed, last⟩ := foldl_nibbles data Bits.start rfl
      rw [fed]
      refine ⟨fun _ => rfl, le_rfl, ?_, ?_, rfl⟩
      · simp only [Bits.start]
        omega
      · simp only [Bits.start, Nat.zero_add]
        have low : 8 * data.length - count < 8 := by omega
        refine trail_zero low ?_ pad
        have byte : (data.getLastD 0).toNat = value % 256 := by
          rw [← UInt8.toNat_ofNat' , last]
          rfl
        rw [byte, Nat.mod_mod_of_dvd _ (Nat.pow_dvd_pow 2 low.le)]

-----------------------------------------------------------------------------------------
-- Labels
-----------------------------------------------------------------------------------------

/-- The text of a bit string behind its bracket, and what follows the label. -/
def bracketed (ds : List Nat) (count : Nat) (cp : List UInt8) : List UInt8 :=
  0x78 :: (ds.map digitByte ++ 0x2f :: (numeral 10 count ++ 0x5d :: cp))

/-- The number of characters up to `end`. -/
def bracketedLeft (ds : List Nat) (count : Nat) : Nat :=
  1 + (ds.length + ((numeral 10 count).length + 1 + 2))

theorem goodDigits_lt (count : Nat) (data : List UInt8) : ∀ d ∈ goodDigits count data, d < 16 := by
  rw [goodDigits]
  split
  · intro d member
    rcases List.mem_append.mp member with inside | last
    · exact nibbles_lt _ d inside
    · have := (data.getLastD 0).toNat_lt
      rw [List.mem_singleton.mp last]
      omega
  · exact nibbles_lt data

theorem tbcount_foldl (bits : Bits) (ds : List Nat)
    : (ds.foldl Bits.feed bits).tbcount = bits.tbcount + 4 * ds.length := by
  induction ds generalizing bits with
  | nil => rfl
  | cons d ds ih =>
      rw [List.foldl_cons, ih, Bits.feed_tbcount, List.length_cons]
      omega

theorem validLength_eq {scanned : Scanned} (pos : 1 ≤ count) (blen : scanned.blen = count)
    (tbcount : scanned.bits.tbcount = (count + 3) / 4 * 4)
    (trail : scanned.bits.value <<< (8 - (scanned.bits.tbcount - count)) % 256 = 0)
    : validLength scanned = .ok count := by
  have whole : ¬ ((count : Int) + 3) / 4 * 4 ≠ scanned.bits.tbcount := by
    rw [tbcount]
    omega
  rw [validLength, blen, if_pos (by omega), if_neg whole]
  simp only [Int.toNat_natCast, trail, ne_eq, not_true_eq_false, if_false]

theorem ofNat_count (max : count ≤ 256)
    : UInt8.ofNat (if (count : Int) = 256 then 0 else (count : Int).toNat) = UInt8.ofNat count := by
  by_cases all : count = 256
  · subst all
    rfl
  · rw [if_neg (by omega), Int.toNat_natCast]

/-- The scan of a text that has digits first. -/
theorem encodeBitsring_eq {ds : List Nat} (small : ∀ d ∈ ds, d < 16) (nonempty : ds ≠ [])
    : encodeBitsring (bracketed ds count cp) (bracketedLeft ds count) room
      = (scanBits (room - 1) (ds.length + ((numeral 10 count).length + 1 + 2))
          (ds.map digitByte ++ 0x2f :: (numeral 10 count ++ 0x5d :: cp)) Bits.start).bind
            (finishBits room) := by
  obtain ⟨d, ds, rfl⟩ := List.exists_cons_of_ne_nil nonempty
  obtain ⟨isHex, -⟩ := hexDigit_plain (small d (by simp))
  have first : isxdigit (((d :: ds).map digitByte ++ 0x2f :: (numeral 10 count ++ 0x5d :: cp)).headD 0).toNat
      = true := isHex
  rw [encodeBitsring, if_neg (by rw [bracketedLeft]; omega), bracketed, List.headD_cons,
    if_neg (by simp), List.tail_cons, first, if_neg (by simp), bracketedLeft, Nat.add_sub_cancel_left]
  rfl

/-- A label that is fine is read back. -/
theorem encodeBitsring_good (h : (Label.bits count data).Valid) (space : data.length + 1 < room)
    (cp : List UInt8)
    : encodeBitsring (bracketed (goodDigits count data) count cp)
        (bracketedLeft (goodDigits count data) count) room
      = .ok (UInt8.ofNat count :: data, cp) := by
  have complete := foldl_good h
  obtain ⟨pos, max, length, -⟩ := h
  have total := tbcount_foldl Bits.start (goodDigits count data)
  rw [complete.tbcount] at total
  simp only [Bits.start, Nat.zero_add] at total
  have nonempty : goodDigits count data ≠ [] := by
    intro empty
    rw [empty, List.length_nil] at total
    omega
  have fits : ((goodDigits count data).foldl Bits.feed Bits.start).tp.length < room - 1 := by
    have := complete.length
    omega
  have digits : scanBits (room - 1) ((goodDigits count data).length + ((numeral 10 count).length + 1 + 2))
      ((goodDigits count data).map digitByte ++ 0x2f :: (numeral 10 count ++ 0x5d :: cp)) Bits.start
      = _ := scanBits_digits (goodDigits_lt count data) rfl fits (by simp only [Bits.start]; omega) _ _
  rw [encodeBitsring_eq (goodDigits_lt count data) nonempty, digits,
    scanBits_tail pos max complete.begBlen fits]
  have trail := complete.trail
  have written := complete.tp (numeral 10 count ++ 0x5d :: cp)
  have tbcount := (Bits.padded_tbcount (Bits.measured _ (numeral 10 count ++ 0x5d :: cp))).trans
    complete.tbcount
  have value : (((goodDigits count data).foldl Bits.feed Bits.start).measured
      (numeral 10 count ++ 0x5d :: cp)).padded.value
      = ((goodDigits count data).foldl Bits.feed Bits.start).value := Bits.padded_value _
  rw [complete.tbcount, ← value] at trail
  generalize (((goodDigits count data).foldl Bits.feed Bits.start).measured
    (numeral 10 count ++ 0x5d :: cp)).padded = final at written tbcount value trail ⊢
  have valid : validLength ⟨final, count, cp, 1⟩ = .ok (count : Int) :=
    validLength_eq pos rfl tbcount (by rw [tbcount]; exact trail)
  have inside : ¬ ((1 = 0 || data.length + 1 ≥ room) = true) := by
    simp only [Bool.or_eq_true, decide_eq_true_eq]
    omega
  rw [Except.bind, finishBits, valid]
  simp only [written]
  rw [if_neg inside, Except.map, ofNat_count max]

-----------------------------------------------------------------------------------------
-- Labels that are spoilt
-----------------------------------------------------------------------------------------

/-- A scan that does not lead to a label. -/
def Spoilt (room : Nat) (result : Except Errno Scanned) : Prop :=
  ∀ scanned, result = .ok scanned → scanned.left = 0 ∨ room ≤ scanned.bits.tp.length
    ∨ (0 < scanned.blen ∧ (scanned.blen + 3) / 4 * 4 ≠ scanned.bits.tbcount)

theorem scanBits_full {bits : Bits} (full : room ≤ bits.tp.length)
    : Spoilt room (scanBits room (left + 1) cp bits) := by
  rw [scanBits, if_pos full]
  rintro _ ⟨⟩
  exact Or.inr (Or.inl full)

/-- The number of digits does not agree with the length. -/
theorem scanBits_spoilt {ds : List Nat} (small : ∀ d ∈ ds, d < 16) (pos : 1 ≤ count)
    (max : count ≤ 256) {bits : Bits} (before : bits.afterslash = false)
    (fresh : bits.begBlen = none) (differs : (count + 3) / 4 * 4 ≠ bits.tbcount + 4 * ds.length)
    : Spoilt room (scanBits room (ds.length + ((numeral 10 count).length + 1 + 2))
        (ds.map digitByte ++ 0x2f :: (numeral 10 count ++ 0x5d :: cp)) bits) := by
  induction ds generalizing bits with
  | nil =>
      by_cases space : bits.tp.length < room
      · rw [List.length_nil, Nat.zero_add, List.map_nil, List.nil_append,
          scanBits_tail pos max fresh space]
        rintro _ ⟨⟩
        refine Or.inr (Or.inr ⟨by simp only; omega, ?_⟩)
        simp only [Bits.padded_tbcount, Bits.measured]
        rw [List.length_nil] at differs
        omega
      · exact scanBits_full (Nat.not_lt.mp space)
  | cons d ds ih =>
      rw [List.length_cons] at differs
      rw [List.length_cons, show ds.length + 1 + ((numeral 10 count).length + 1 + 2)
          = ds.length + ((numeral 10 count).length + 1 + 2) + 1 by omega]
      by_cases space : bits.tp.length < room
      · rw [List.map_cons, List.cons_append, scanBits_digit (small d (by simp)) before space]
        split
        · rintro _ ⟨⟩
        · exact ih (fun d member => small d (by simp [member])) (by rw [Bits.feed_afterslash, before])
            (by rw [Bits.feed_begBlen, fresh]) (by rw [Bits.feed_tbcount]; omega)
      · exact scanBits_full (Nat.not_lt.mp space)

theorem encodeBitsring_spoilt {ds : List Nat} (small : ∀ d ∈ ds, d < 16) (nonempty : ds ≠ [])
    (pos : 1 ≤ count) (max : count ≤ 256) (differs : (count + 3) / 4 * 4 ≠ 4 * ds.length)
    : ∃ errno, encodeBitsring (bracketed ds count cp) (bracketedLeft ds count) room = .error errno := by
  have spoilt : Spoilt (room - 1) (scanBits (room - 1) (ds.length + ((numeral 10 count).length + 1 + 2))
      (ds.map digitByte ++ 0x2f :: (numeral 10 count ++ 0x5d :: cp)) Bits.start) :=
    scanBits_spoilt small pos max rfl rfl (by simpa [Bits.start] using differs)
  rw [encodeBitsring_eq small nonempty]
  generalize scanBits (room - 1) (ds.length + ((numeral 10 count).length + 1 + 2))
    (ds.map digitByte ++ 0x2f :: (numeral 10 count ++ 0x5d :: cp)) Bits.start = result at spoilt ⊢
  cases result with
  | error errno => exact ⟨errno, rfl⟩
  | ok scanned =>
      rw [Except.bind, finishBits]
      split
      · exact ⟨.EMSGSIZE, rfl⟩
      · next inside =>
          simp only [Bool.or_eq_true, decide_eq_true_eq, not_or] at inside
          rcases spoilt scanned rfl with none_left | full | ⟨positive, wrong⟩
          · exact absurd none_left inside.1
          · omega
          · rw [validLength, if_pos positive, if_pos wrong]
            exact ⟨.EINVAL, rfl⟩

end BSDLibC.Nameser
