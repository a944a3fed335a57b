import BSDLibC.Utf8.Machine

/-! UTF-8 as the standard has it, and the decoder's characters as its well-formed sequences:
the bytes of a character are the shortest form of a scalar value.
-/

namespace BSDLibC.Utf8

open BSDLibC.Transducer (Reaction Outcome Ending run)

/-- The code points that have a UTF-8 form: no surrogates, nothing above the last plane. -/
def Scalar (v : Nat) : Prop := v < 0x110000 ∧ ¬ (0xd800 ≤ v ∧ v ≤ 0xdfff)

/-- The shortest form of a scalar value. -/
def utf8 (v : Nat) : List UInt8 :=
  (if v < 0x80 then [v]
    else if v < 0x800 then [0xc0 + v / 64, 0x80 + v % 64]
    else if v < 0x10000 then [0xe0 + v / 4096, 0x80 + v / 64 % 64, 0x80 + v % 64]
    else [0xf0 + v / 262144, 0x80 + v / 4096 % 64, 0x80 + v / 64 % 64, 0x80 + v % 64]).map
    UInt8.ofNat

/-- A concatenation of shortest forms of scalar values. -/
def WellFormed (bytes : List UInt8) : Prop :=
  ∃ vs : List Nat, (∀ v ∈ vs, Scalar v) ∧ bytes = vs.flatMap utf8

/-- The tables at a lead byte. -/
theorem lead_cases
    : ∀ lead < 256,
      tables.count lead = 0
      ∨ (tables.count lead = 1 ∧ lead < 0x80)
      ∨ (tables.count lead = 2 ∧ 0xc2 ≤ lead ∧ lead ≤ 0xdf ∧ tables.byte2 lead = ⟨0x80, 0xbf⟩)
      ∨ (tables.count lead = 3 ∧ 0xe0 ≤ lead ∧ lead ≤ 0xef
        ∧ tables.byte2 lead
          = ⟨if lead = 0xe0 then 0xa0 else 0x80, if lead = 0xed then 0x9f else 0xbf⟩)
      ∨ (tables.count lead = 4 ∧ 0xf0 ≤ lead ∧ lead ≤ 0xf4
        ∧ tables.byte2 lead
          = ⟨if lead = 0xf0 then 0x90 else 0x80, if lead = 0xf4 then 0x8f else 0xbf⟩) := by
  decide +kernel

/-- The bytes that are not a lead byte, told by their two top bits. -/
theorem trailer_iff : ∀ byte < 256, byte &&& 0xc0 = 0x80 ↔ 0x80 ≤ byte ∧ byte ≤ 0xbf := by
  decide +kernel

/-- Six more bits at the end of a code point. -/
theorem toNat_append_six (wchar : WChar) (low : Nat) (room : wchar.toNat < 2 ^ 26)
    (six : low < 64)
    : ((wchar <<< 6) ||| BitVec.ofNat 32 low).toNat = wchar.toNat * 64 + low := by
  rw [BitVec.toNat_or, BitVec.toNat_shiftLeft, BitVec.toNat_ofNat,
    Nat.mod_eq_of_lt (by omega : low < 2 ^ 32), Nat.shiftLeft_eq,
    Nat.mod_eq_of_lt (by omega : wchar.toNat * 2 ^ 6 < 2 ^ 32), ← Nat.shiftLeft_eq,
    ← Nat.shiftLeft_add_eq_or_of_lt (by omega : low < 2 ^ 6), Nat.shiftLeft_eq]

theorem and_ones (x : Nat) : x &&& 0x3f = x % 64 ∧ x &&& (0x7f >>> 2) = x % 32
    ∧ x &&& (0x7f >>> 3) = x % 16 ∧ x &&& (0x7f >>> 4) = x % 8 :=
  ⟨Nat.and_two_pow_sub_one_eq_mod x 6, Nat.and_two_pow_sub_one_eq_mod x 5,
    Nat.and_two_pow_sub_one_eq_mod x 4, Nat.and_two_pow_sub_one_eq_mod x 3⟩

section

variable (a b c d : UInt8)

theorem assemble_two : (assemble 2 [a, b]).toNat = a.toNat % 32 * 64 + b.toNat % 64 := by
  simp only [assemble, List.foldl_cons, List.foldl_nil, and_ones]
  rw [toNat_append_six, BitVec.toNat_ofNat, Nat.mod_eq_of_lt (by omega)]
  · rw [BitVec.toNat_ofNat, Nat.mod_eq_of_lt (by omega)]
    omega
  · omega

theorem assemble_three
    : (assemble 3 [a, b, c]).toNat
      = (a.toNat % 16 * 64 + b.toNat % 64) * 64 + c.toNat % 64 := by
  have first : (BitVec.ofNat 32 (a.toNat % 16)).toNat = a.toNat % 16 := by
    rw [BitVec.toNat_ofNat, Nat.mod_eq_of_lt (by omega)]
  have second := toNat_append_six (BitVec.ofNat 32 (a.toNat % 16)) (b.toNat % 64) (by omega) (by omega)
  rw [first] at second
  simp only [assemble, List.foldl_cons, List.foldl_nil, and_ones]
  rw [toNat_append_six _ _ (by omega) (by omega), second]

theorem assemble_four
    : (assemble 4 [a, b, c, d]).toNat
      = ((a.toNat % 8 * 64 + b.toNat % 64) * 64 + c.toNat % 64) * 64 + d.toNat % 64 := by
  have first : (BitVec.ofNat 32 (a.toNat % 8)).toNat = a.toNat % 8 := by
    rw [BitVec.toNat_ofNat, Nat.mod_eq_of_lt (by omega)]
  have second := toNat_append_six (BitVec.ofNat 32 (a.toNat % 8)) (b.toNat % 64) (by omega) (by omega)
  rw [first] at second
  have third := toNat_append_six
    (BitVec.ofNat 32 (a.toNat % 8) <<< 6 ||| BitVec.ofNat 32 (b.toNat % 64)) (c.toNat % 64)
    (by omega) (by omega)
  rw [second] at third
  simp only [assemble, List.foldl_cons, List.foldl_nil, and_ones]
  rw [toNat_append_six _ _ (by omega) (by omega), third]

/-- A byte within the range of second bytes of a lead byte. -/
def SecondByte (lead byte : UInt8) : Prop :=
  (tables.byte2 lead.toNat).low ≤ byte.toNat ∧ byte.toNat ≤ (tables.byte2 lead.toNat).high

/-- A byte that can stand behind the second one. -/
def Trailer (byte : UInt8) : Prop := 0x80 ≤ byte.toNat ∧ byte.toNat ≤ 0xbf

theorem map_ofNat_toNat (bytes : List UInt8)
    : (bytes.map UInt8.toNat).map UInt8.ofNat = bytes := by
  simp [Function.comp_def]

variable {a b c d}

/-- A character of one byte. -/
theorem single_utf8 (lead : tables.count a.toNat = 1)
    : Scalar a.toNat ∧ [a] = utf8 a.toNat := by
  have := lead_cases a.toNat a.toNat_lt
  have low : a.toNat < 0x80 := by omega
  refine ⟨⟨by omega, by omega⟩, ?_⟩
  rw [utf8, if_pos low]
  simp

/-- A character of two bytes. -/
theorem assemble_two_utf8 (lead : tables.count a.toNat = 2) (second : SecondByte a b)
    : ∃ v, Scalar v ∧ [a, b] = utf8 v ∧ assemble 2 [a, b] = BitVec.ofNat 32 v := by
  have row := lead_cases a.toNat a.toNat_lt
  rw [SecondByte] at second
  have bytes : 0xc2 ≤ a.toNat ∧ a.toNat ≤ 0xdf ∧ 0x80 ≤ b.toNat ∧ b.toNat ≤ 0xbf := by
    rcases row with h | h | ⟨-, h1, h2, h3⟩ | h | h
    · omega
    · omega
    · rw [h3] at second
      exact ⟨h1, h2, second⟩
    · omega
    · omega
  refine ⟨a.toNat % 32 * 64 + b.toNat % 64, ⟨by omega, by omega⟩, ?_, ?_⟩
  · have digits : 0xc0 + (a.toNat % 32 * 64 + b.toNat % 64) / 64 = a.toNat
        ∧ 0x80 + (a.toNat % 32 * 64 + b.toNat % 64) % 64 = b.toNat := by omega
    rw [utf8, if_neg (by omega), if_pos (by omega), digits.1, digits.2]
    exact (map_ofNat_toNat [a, b]).symm
  · rw [← assemble_two a b, BitVec.ofNat_toNat, BitVec.setWidth_eq]

/-- A character of three bytes. -/
theorem assemble_three_utf8 (lead : tables.count a.toNat = 3) (second : SecondByte a b)
    (third : Trailer c)
    : ∃ v, Scalar v ∧ [a, b, c] = utf8 v ∧ assemble 3 [a, b, c] = BitVec.ofNat 32 v := by
  have row := lead_cases a.toNat a.toNat_lt
  rw [SecondByte] at second
  rw [Trailer] at third
  have bytes : 0xe0 ≤ a.toNat ∧ a.toNat ≤ 0xef ∧ 0x80 ≤ b.toNat ∧ b.toNat ≤ 0xbf
      ∧ (a.toNat = 0xe0 → 0xa0 ≤ b.toNat) ∧ (a.toNat = 0xed → b.toNat ≤ 0x9f) := by
    rcases row with h | h | h | ⟨-, h1, h2, h3⟩ | h
    · omega
    · omega
    · omega
    · rw [h3] at second
      simp only at second
      split at second <;> split at second <;> omega
    · omega
  obtain ⟨v, value⟩ : ∃ v, v = (a.toNat % 16 * 64 + b.toNat % 64) * 64 + c.toNat % 64 := ⟨_, rfl⟩
  refine ⟨v, ⟨by omega, by omega⟩, ?_, ?_⟩
  · have digits : 0xe0 + v / 4096 = a.toNat ∧ 0x80 + v / 64 % 64 = b.toNat
        ∧ 0x80 + v % 64 = c.toNat := by omega
    rw [utf8, if_neg (by omega), if_neg (by omega), if_pos (by omega), digits.1, digits.2.1,
      digits.2.2]
    exact (map_ofNat_toNat [a, b, c]).symm
  · rw [value, ← assemble_three a b c, BitVec.ofNat_toNat, BitVec.setWidth_eq]

/-- A character of four bytes. -/
theorem assemble_four_utf8 (lead : tables.count a.toNat = 4) (second : SecondByte a b)
    (third : Trailer c) (fourth : Trailer d)
    : ∃ v, Scalar v ∧ [a, b, c, d] = utf8 v ∧ assemble 4 [a, b, c, d] = BitVec.ofNat 32 v := by
  have row := lead_cases a.toNat a.toNat_lt
  rw [SecondByte] at second
  rw [Trailer] at third fourth
  have bytes : 0xf0 ≤ a.toNat ∧ a.toNat ≤ 0xf4 ∧ 0x80 ≤ b.toNat ∧ b.toNat ≤ 0xbf
      ∧ (a.toNat = 0xf0 → 0x90 ≤ b.toNat) ∧ (a.toNat = 0xf4 → b.toNat ≤ 0x8f) := by
    rcases row with h | h | h | h | ⟨-, h1, h2, h3⟩
    · omega
    · omega
    · omega
    · omega
    · rw [h3] at second
      simp only at second
      split at second <;> split at second <;> omega
  obtain ⟨v, value⟩ : ∃ v, v
      = ((a.toNat % 8 * 64 + b.toNat % 64) * 64 + c.toNat % 64) * 64 + d.toNat % 64 := ⟨_, rfl⟩
  refine ⟨v, ⟨by omega, by omega⟩, ?_, ?_⟩
  · have digits : 0xf0 + v / 262144 = a.toNat ∧ 0x80 + v / 4096 % 64 = b.toNat
        ∧ 0x80 + v / 64 % 64 = c.toNat ∧ 0x80 + v % 64 = d.toNat := by omega
    rw [utf8, if_neg (by omega), if_neg (by omega), if_neg (by omega), digits.1, digits.2.1,
      digits.2.2.1, digits.2.2.2]
    exact (map_ofNat_toNat [a, b, c, d]).symm
  · rw [value, ← assemble_four a b c d, BitVec.ofNat_toNat, BitVec.setWidth_eq]

end

/-- The beginnings of characters that the decoder holds between two bytes. -/
inductive Begun : State → Prop where
  | nothing : Begun []
  | one {a : UInt8} (more : 2 ≤ tables.count a.toNat) : Begun [a]
  | two {a b : UInt8} (more : 3 ≤ tables.count a.toNat) (second : SecondByte a b) : Begun [a, b]
  | three {a b c : UInt8} (more : tables.count a.toNat = 4) (second : SecondByte a b)
      (third : Trailer c)
      : Begun [a, b, c]

theorem count_le_four (a : UInt8) : tables.count a.toNat ≤ 4 := by
  have := lead_cases a.toNat a.toNat_lt
  omega

/-- What one byte can do, in terms of well-formed characters. -/
inductive Moves (ch : State) (byte : UInt8) : Reaction WChar State → Prop where
  | more (begun : Begun (ch ++ [byte])) : Moves ch byte (.more (ch ++ [byte]))
  | emit {v : Nat} (scalar : Scalar v) (form : ch ++ [byte] = utf8 v)
      : Moves ch byte (.emit (BitVec.ofNat 32 v) [])
  | reject (taken : Nat) : Moves ch byte (.reject taken)

theorem secondByte_of_allowed {a byte : UInt8}
    (allowed : ¬ (([a] : State).length = 1 ∧ badByte2 a.toNat [byte]))
    : SecondByte a byte := by
  simp only [List.length_singleton, badByte2, Bool.or_eq_true, decide_eq_true_eq, true_and] at allowed
  rw [SecondByte]
  omega

theorem trailer_of_bits {byte : UInt8} (bits : ¬ byte.toNat &&& 0xc0 ≠ 0x80) : Trailer byte := by
  rw [not_not] at bits
  exact (trailer_iff byte.toNat byte.toNat_lt).mp bits

/-- A byte takes the beginning of a character on, ends the character or is refused. -/
theorem step_moves {ch : State} (begun : Begun ch) (byte : UInt8)
    : Moves ch byte (step ch byte) := by
  cases begun with
  | nothing =>
      rw [step]
      split
      · exact .reject 1
      split
      · next one =>
        obtain ⟨scalar, form⟩ := single_utf8 one
        exact .emit scalar form
      · exact .more (.one (by omega))
  | @one a more =>
      rw [step]
      split
      · exact .reject 0
      next allowed =>
      have second := secondByte_of_allowed allowed
      split
      · exact .reject 0
      split
      · next longer => exact .more (.two longer second)
      next full =>
      have two : tables.count a.toNat = 2 := by simp at full; omega
      obtain ⟨v, scalar, form, value⟩ := assemble_two_utf8 two second
      rw [two]
      simp only [List.cons_append, List.nil_append]
      rw [value]
      exact .emit scalar form
  | @two a b more second =>
      rw [step]
      split
      · exact .reject 0
      split
      · exact .reject 0
      next bits =>
      split
      · next longer =>
        have := count_le_four a
        exact .more (.three (by simp at longer; omega) second (trailer_of_bits bits))
      next full =>
      have three : tables.count a.toNat = 3 := by simp at full; omega
      obtain ⟨v, scalar, form, value⟩ := assemble_three_utf8 three second (trailer_of_bits bits)
      rw [three]
      simp only [List.cons_append, List.nil_append]
      rw [value]
      exact .emit scalar form
  | @three a b c more second third =>
      rw [step]
      split
      · exact .reject 0
      split
      · exact .reject 0
      next bits =>
      split
      · next longer =>
        simp at longer
        omega
      obtain ⟨v, scalar, form, value⟩ :=
        assemble_four_utf8 more second third (trailer_of_bits bits)
      rw [more]
      simp only [List.cons_append, List.nil_append]
      rw [value]
      exact .emit scalar form

end BSDLibC.Utf8
