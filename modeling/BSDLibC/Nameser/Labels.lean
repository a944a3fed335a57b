import BSDLibC.Nameser.Parse

/-! Domain names as lists of labels, with their wire format and their text. -/

namespace BSDLibC.Nameser

open Bytes Ctype

inductive Label
  | ordinary (bytes : List UInt8)
  | bits (count : Nat) (data : List UInt8)
deriving DecidableEq, Repr

/-- The bits behind the last one are zero. -/
def padClear (count : Nat) (data : List UInt8) : Prop :=
  (data.getLastD 0).toNat % 2 ^ (8 * data.length - count) = 0

def Label.Valid : Label → Prop
  | .ordinary bytes => 1 ≤ bytes.length ∧ bytes.length ≤ 63
  | .bits count data =>
      1 ≤ count ∧ count ≤ 256 ∧ data.length = (count + 7) / 8 ∧ padClear count data

def Label.wire : Label → List UInt8
  | .ordinary bytes => UInt8.ofNat bytes.length :: bytes
  | .bits count data => bitstringType :: UInt8.ofNat count :: data

/-- A name ends with the root label. -/
def wireName (labels : List Label) : List UInt8 := labels.flatMap Label.wire ++ [0]

/-- The digits of a bit string, as `decode_bitstring` prints them. -/
def bitsText (count : Nat) (data : List UInt8) : List UInt8 :=
  (data.take (count / 8)).flatMap (fun byte => hex2 byte.toNat)
    ++ (if count % 8 > 0 then lastBits (count % 8) (data.getD (count / 8) 0) else [])

def Label.text : Label → List UInt8
  | .ordinary bytes => bytes.flatMap escape
  | .bits count data =>
      [backslash, 0x5b, 0x78] ++ bitsText count data ++ (0x2f :: numeral 10 count ++ [0x5d])

/-- The labels after the first one. -/
def moreText (labels : List Label) : List UInt8 := labels.flatMap (fun label => dot :: label.text)

def nameText : List Label → List UInt8
  | [] => [dot]
  | label :: labels => label.text ++ moreText labels

theorem length_wire_pos (label : Label) : 0 < label.wire.length := by
  cases label <;> simp [Label.wire]

theorem wireName_cons (label : Label) (labels : List Label)
    : wireName (label :: labels) = label.wire ++ wireName labels := by
  simp [wireName]

-----------------------------------------------------------------------------------------
-- Lengths of the texts
-----------------------------------------------------------------------------------------

theorem length_escape_le (c : UInt8) : (escape c).length ≤ 4 := by
  rw [escape]
  split
  · simp
  · split
    · simp
    · simp

theorem escape_ne_nil (c : UInt8) : escape c ≠ [] := by
  rw [escape]
  split
  · simp
  · split
    · simp
    · simp

theorem length_hex2_le {n k : Nat} (two : 2 ≤ k) (h : n < 16 ^ k) : (hex2 n).length ≤ k := by
  have := numeralDigits_length_le (by decide) (by omega) h
  rw [hex2, List.length_append, List.length_replicate, length_numeral]
  omega

theorem length_lastBits_le {b : Nat} (pos : 0 < b) (small : b < 8) (tc : UInt8)
    : (lastBits b tc).length ≤ 3 := by
  have mask : ∀ b : Fin 8, 0xff <<< (8 - b.val) < 16 ^ 3 ∨ b.val = 0 ∨ b.val ≤ 4 := by decide
  rw [lastBits]
  split
  · refine length_hex2_le (by decide) (Nat.lt_of_le_of_lt Nat.and_le_right ?_)
    rcases mask ⟨b, small⟩ with fits | zero | four
    · exact fits
    · simp only at zero
      omega
    · simp only at four
      omega
  · rw [length_numeral]
    have nibble : signExtend tc >>> 4 &&& 0x0f &&& 0x0f <<< (4 - b) < 16 ^ 1 :=
      Nat.lt_of_le_of_lt (Nat.le_trans Nat.and_le_left Nat.and_le_right) (by decide)
    have := numeralDigits_length_le (by decide) (by decide) nibble
    omega

theorem length_bitsText_le {count : Nat} {data : List UInt8} (h : data.length = (count + 7) / 8)
    : (bitsText count data).length ≤ 2 * data.length + 1 := by
  have whole (bytes : List UInt8)
      : (bytes.flatMap (fun byte => hex2 byte.toNat)).length ≤ 2 * bytes.length := by
    induction bytes with
    | nil => simp
    | cons byte bytes ih =>
        have : (hex2 byte.toNat).length ≤ 2 := length_hex2_le le_rfl byte.toNat_lt
        rw [List.flatMap_cons, List.length_append, List.length_cons]
        omega
  have first := whole (data.take (count / 8))
  rw [List.length_take] at first
  rw [bitsText, List.length_append]
  split
  · next rest =>
      have := length_lastBits_le rest (Nat.mod_lt _ (by decide)) (data.getD (count / 8) 0)
      omega
  · simp only [List.length_nil]
    omega

theorem length_flatMap_escape_le (bytes : List UInt8)
    : (bytes.flatMap escape).length ≤ 4 * bytes.length := by
  induction bytes with
  | nil => simp
  | cons c bytes ih =>
      have := length_escape_le c
      rw [List.flatMap_cons, List.length_append, List.length_cons]
      omega

/-- Four characters for each byte are enough, with the dot before the label. -/
theorem Label.Valid.length_text {label : Label} (h : label.Valid)
    : label.text.length + 1 ≤ 4 * label.wire.length := by
  cases label with
  | ordinary bytes =>
      have := length_flatMap_escape_le bytes
      simp only [Label.text, Label.wire, List.length_cons]
      omega
  | bits count data =>
      obtain ⟨pos, max, length, -⟩ := h
      have hex := length_bitsText_le length
      have decimal : (numeral 10 count).length ≤ 3 := by
        rw [length_numeral]
        exact numeralDigits_length_le (by decide) (by decide) (by omega)
      simp only [Label.text, Label.wire, List.length_append, List.length_cons, List.length_nil]
      omega

end BSDLibC.Nameser
