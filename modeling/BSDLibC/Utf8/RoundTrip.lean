import BSDLibC.Utf8.WellFormed

/-! The decoder accepts exactly the well-formed sequences however they are cut, and the encoder
is its inverse.
-/

namespace BSDLibC.Utf8

open BSDLibC.Transducer (Reaction Outcome Ending run)

/-- The number of bytes a lead byte announces. -/
theorem count_of_lead
    : ∀ lead < 256,
      (lead < 0x80 → tables.count lead = 1) ∧ (0xc2 ≤ lead ∧ lead ≤ 0xdf → tables.count lead = 2)
      ∧ (0xe0 ≤ lead ∧ lead ≤ 0xef → tables.count lead = 3)
      ∧ (0xf0 ≤ lead ∧ lead ≤ 0xf4 → tables.count lead = 4) := by
  decide +kernel

section

variable {a b c d : UInt8}

theorem SecondByte.trailer (longer : 2 ≤ tables.count a.toNat) (second : SecondByte a b)
    : Trailer b := by
  have row := lead_cases a.toNat a.toNat_lt
  rw [SecondByte] at second
  rw [Trailer]
  rcases row with h | h | ⟨-, -, -, h⟩ | ⟨-, -, -, h⟩ | ⟨-, -, -, h⟩
  · omega
  · omega
  · rw [h] at second
    exact second
  · rw [h] at second
    simp only at second
    split at second <;> split at second <;> omega
  · rw [h] at second
    simp only at second
    split at second <;> split at second <;> omega

/-- A second byte is a trailer that keeps to the shortest form, off the surrogates and below
the last plane.
-/
theorem secondByte_of_trailer (longer : 2 ≤ tables.count a.toNat) (trailer : Trailer b)
    (low : (a.toNat = 0xe0 → 0xa0 ≤ b.toNat) ∧ (a.toNat = 0xf0 → 0x90 ≤ b.toNat))
    (high : (a.toNat = 0xed → b.toNat ≤ 0x9f) ∧ (a.toNat = 0xf4 → b.toNat ≤ 0x8f))
    : SecondByte a b := by
  have row := lead_cases a.toNat a.toNat_lt
  rw [Trailer] at trailer
  rw [SecondByte]
  rcases row with h | h | ⟨-, -, -, h⟩ | ⟨-, -, -, h⟩ | ⟨-, -, -, h⟩
  · omega
  · omega
  · rw [h]
    exact trailer
  · rw [h]
    constructor <;> simp only <;> split <;> omega
  · rw [h]
    constructor <;> simp only <;> split <;> omega

theorem bits_of_trailer (trailer : Trailer b) : ¬ b.toNat &&& 0xc0 ≠ 0x80 := by
  rw [not_not]
  exact (trailer_iff b.toNat b.toNat_lt).mpr trailer

theorem step_lead (longer : 2 ≤ tables.count a.toNat) : step [] a = .more [a] := by
  rw [step, if_neg (by omega), if_neg (by omega)]

theorem step_second (longer : 2 ≤ tables.count a.toNat) (second : SecondByte a b)
    : step [a] b
      = if 2 < tables.count a.toNat then .more [a, b]
        else .emit (assemble (tables.count a.toNat) [a, b]) [] := by
  have allowed : ¬ (([a] : State).length = 1 ∧ badByte2 a.toNat [b]) := by
    rw [SecondByte] at second
    simp only [List.length_singleton, badByte2, Bool.or_eq_true, decide_eq_true_eq, true_and]
    omega
  rw [step, if_neg allowed, if_neg (bits_of_trailer (second.trailer longer))]
  rfl

theorem step_behind (rest : State) (trailer : Trailer b)
    : step (a :: c :: rest) b
      = if rest.length + 3 < tables.count a.toNat then .more (a :: c :: rest ++ [b])
        else .emit (assemble (tables.count a.toNat) (a :: c :: rest ++ [b])) [] := by
  rw [step, if_neg (by simp), if_neg (bits_of_trailer trailer)]
  rfl

theorem run_two (lead : tables.count a.toNat = 2) (second : SecondByte a b)
    : run step [a, b] [] = ([assemble 2 [a, b]], .stands []) := by
  simp [run, step_lead (a := a) (by omega), step_second (a := a) (by omega) second, lead, Reaction.continue]

theorem run_three (lead : tables.count a.toNat = 3) (second : SecondByte a b)
    (third : Trailer c)
    : run step [a, b, c] [] = ([assemble 3 [a, b, c]], .stands []) := by
  simp [run, step_lead (a := a) (by omega), step_second (a := a) (by omega) second, step_behind [] third, lead,
    Reaction.continue]

theorem run_four (lead : tables.count a.toNat = 4) (second : SecondByte a b)
    (third : Trailer c) (fourth : Trailer d)
    : run step [a, b, c, d] [] = ([assemble 4 [a, b, c, d]], .stands []) := by
  simp [run, step_lead (a := a) (by omega), step_second (a := a) (by omega) second, step_behind [] third,
    step_behind [c] fourth, lead, Reaction.continue]

end

theorem toNat_ofNat_byte {n : Nat} (small : n < 256) : (UInt8.ofNat n).toNat = n := by
  rw [UInt8.toNat_ofNat', Nat.mod_eq_of_lt small]

/-- The decoder reads a scalar value from its shortest form. -/
theorem run_utf8 {v : Nat} (scalar : Scalar v)
    : run step (utf8 v) [] = ([BitVec.ofNat 32 v], .stands []) := by
  obtain ⟨top, notSurrogate⟩ := scalar
  have value {wc : WChar} (h : wc.toNat = v) : wc = BitVec.ofNat 32 v := by
    rw [← h, BitVec.ofNat_toNat, BitVec.setWidth_eq]
  rw [utf8]
  split
  · next one =>
    have lead : (UInt8.ofNat v).toNat = v := toNat_ofNat_byte (by omega)
    have single := (count_of_lead v (by omega)).1 one
    simp [run, step, lead, single, Reaction.continue]
  split
  · next two =>
    obtain ⟨a, ha⟩ : ∃ a, a = UInt8.ofNat (0xc0 + v / 64) := ⟨_, rfl⟩
    obtain ⟨b, hb⟩ : ∃ b, b = UInt8.ofNat (0x80 + v % 64) := ⟨_, rfl⟩
    have a_eq : a.toNat = 0xc0 + v / 64 := ha ▸ toNat_ofNat_byte (by omega)
    have b_eq : b.toNat = 0x80 + v % 64 := hb ▸ toNat_ofNat_byte (by omega)
    have lead := (count_of_lead a.toNat a.toNat_lt).2.1 (by omega)
    have second : SecondByte a b :=
      secondByte_of_trailer (by omega) ⟨by omega, by omega⟩ (by omega) (by omega)
    simp only [List.map_cons, List.map_nil, ← ha, ← hb]
    rw [run_two lead second, value ((assemble_two a b).trans (by omega))]
  split
  · next three =>
    obtain ⟨a, ha⟩ : ∃ a, a = UInt8.ofNat (0xe0 + v / 4096) := ⟨_, rfl⟩
    obtain ⟨b, hb⟩ : ∃ b, b = UInt8.ofNat (0x80 + v / 64 % 64) := ⟨_, rfl⟩
    obtain ⟨c, hc⟩ : ∃ c, c = UInt8.ofNat (0x80 + v % 64) := ⟨_, rfl⟩
    have a_eq : a.toNat = 0xe0 + v / 4096 := ha ▸ toNat_ofNat_byte (by omega)
    have b_eq : b.toNat = 0x80 + v / 64 % 64 := hb ▸ toNat_ofNat_byte (by omega)
    have c_eq : c.toNat = 0x80 + v % 64 := hc ▸ toNat_ofNat_byte (by omega)
    have lead := (count_of_lead a.toNat a.toNat_lt).2.2.1 (by omega)
    have second : SecondByte a b :=
      secondByte_of_trailer (by omega) ⟨by omega, by omega⟩ (by omega) (by omega)
    simp only [List.map_cons, List.map_nil, ← ha, ← hb, ← hc]
    rw [run_three lead second ⟨by omega, by omega⟩,
      value ((assemble_three a b c).trans (by omega))]
  · next four =>
    obtain ⟨a, ha⟩ : ∃ a, a = UInt8.ofNat (0xf0 + v / 262144) := ⟨_, rfl⟩
    obtain ⟨b, hb⟩ : ∃ b, b = UInt8.ofNat (0x80 + v / 4096 % 64) := ⟨_, rfl⟩
    obtain ⟨c, hc⟩ : ∃ c, c = UInt8.ofNat (0x80 + v / 64 % 64) := ⟨_, rfl⟩
    obtain ⟨d, hd⟩ : ∃ d, d = UInt8.ofNat (0x80 + v % 64) := ⟨_, rfl⟩
    have a_eq : a.toNat = 0xf0 + v / 262144 := ha ▸ toNat_ofNat_byte (by omega)
    have b_eq : b.toNat = 0x80 + v / 4096 % 64 := hb ▸ toNat_ofNat_byte (by omega)
    have c_eq : c.toNat = 0x80 + v / 64 % 64 := hc ▸ toNat_ofNat_byte (by omega)
    have d_eq : d.toNat = 0x80 + v % 64 := hd ▸ toNat_ofNat_byte (by omega)
    have lead := (count_of_lead a.toNat a.toNat_lt).2.2.2 (by omega)
    have second : SecondByte a b :=
      secondByte_of_trailer (by omega) ⟨by omega, by omega⟩ (by omega) (by omega)
    simp only [List.map_cons, List.map_nil, ← ha, ← hb, ← hc, ← hd]
    rw [run_four lead second ⟨by omega, by omega⟩ ⟨by omega, by omega⟩,
      value ((assemble_four a b c d).trans (by omega))]

/-- The decoder reads a well-formed sequence to its end. -/
theorem run_flatMap_utf8 (vs : List Nat) (scalars : ∀ v ∈ vs, Scalar v)
    : run step (vs.flatMap utf8) [] = (vs.map (BitVec.ofNat 32), .stands []) := by
  induction vs with
  | nil => rfl
  | cons v vs ih =>
      rw [List.flatMap_cons, Transducer.run_append, run_utf8 (scalars v (by simp))]
      simp only [Outcome.andThen, ih (fun w among => scalars w (by simp [among]))]
      rfl

/-- Whatever the decoder has read so far: scalar values, and the beginning of one more. -/
theorem run_sound {s : List UInt8} {ch : State} (begun : Begun ch)
    : ∃ vs : List Nat, (∀ v ∈ vs, Scalar v) ∧ (run step s ch).1 = vs.map (BitVec.ofNat 32)
      ∧ ∀ next, (run step s ch).2 = .stands next → Begun next
        ∧ ch ++ s = vs.flatMap utf8 ++ next := by
  induction s generalizing ch with
  | nil =>
      refine ⟨[], by simp, rfl, fun next stands => ?_⟩
      cases stands
      exact ⟨begun, by simp⟩
  | cons byte s ih =>
      have unshift {ending : Ending State} {next : State} (h : ending.shift 1 = .stands next)
          : ending = .stands next := by
        cases ending with
        | stands state => exact h
        | rejected position => cases h
      have moves := step_moves begun byte
      simp only [run]
      generalize step ch byte = reaction at moves
      cases moves with
      | reject taken => exact ⟨[], by simp, rfl, fun next stands => by cases stands⟩
      | more begun' =>
          obtain ⟨vs, scalars, outs, ends⟩ := ih begun'
          refine ⟨vs, scalars, outs, fun next stands => ?_⟩
          have := ends next (unshift stands)
          simpa using this
      | @emit v scalar form =>
          obtain ⟨vs, scalars, outs, ends⟩ := ih .nothing
          refine ⟨v :: vs, ?_, ?_, fun next stands => ?_⟩
          · simpa using ⟨scalar, scalars⟩
          · simp [Reaction.continue, outs]
          · obtain ⟨begun', rest⟩ := ends next (unshift stands)
            refine ⟨begun', ?_⟩
            rw [List.flatMap_cons, ← form, List.append_assoc, List.append_assoc, ← rest]
            rfl

theorem exists_secondByte {a : UInt8} (longer : 2 ≤ tables.count a.toNat)
    : ∃ b, SecondByte a b := by
  by_cases special : a.toNat = 0xe0 ∨ a.toNat = 0xf0
  · have byte : (0xa0 : UInt8).toNat = 0xa0 := by decide
    exact ⟨0xa0, secondByte_of_trailer longer ⟨by omega, by omega⟩ (by omega) (by omega)⟩
  · have byte : (0x80 : UInt8).toNat = 0x80 := by decide
    exact ⟨0x80, secondByte_of_trailer longer ⟨by omega, by omega⟩ (by omega) (by omega)⟩

/-- The beginning of a character can be completed. -/
theorem Begun.completes {ch : State} (begun : Begun ch)
    : ∃ more, WellFormed (ch ++ more) := by
  have trailer : Trailer 0x80 := ⟨by decide, by decide⟩
  have character {bytes : List UInt8} {v : Nat} (scalar : Scalar v) (form : bytes = utf8 v)
      : WellFormed bytes := ⟨[v], by simpa using scalar, by simpa using form⟩
  cases begun with
  | nothing => exact ⟨[], [], by simp, by simp⟩
  | @one a more =>
      obtain ⟨b, second⟩ := exists_secondByte more
      have := count_le_four a
      obtain two | three | four : tables.count a.toNat = 2 ∨ tables.count a.toNat = 3
          ∨ tables.count a.toNat = 4 := by omega
      · obtain ⟨v, scalar, form, -⟩ := assemble_two_utf8 two second
        exact ⟨[b], character scalar form⟩
      · obtain ⟨v, scalar, form, -⟩ := assemble_three_utf8 three second trailer
        exact ⟨[b, 0x80], character scalar form⟩
      · obtain ⟨v, scalar, form, -⟩ := assemble_four_utf8 four second trailer trailer
        exact ⟨[b, 0x80, 0x80], character scalar form⟩
  | @two a b more second =>
      have := count_le_four a
      obtain three | four : tables.count a.toNat = 3 ∨ tables.count a.toNat = 4 := by omega
      · obtain ⟨v, scalar, form, -⟩ := assemble_three_utf8 three second trailer
        exact ⟨[0x80], character scalar form⟩
      · obtain ⟨v, scalar, form, -⟩ := assemble_four_utf8 four second trailer trailer
        exact ⟨[0x80, 0x80], character scalar form⟩
  | @three a b c more second third =>
      obtain ⟨v, scalar, form, -⟩ := assemble_four_utf8 more second third trailer
      exact ⟨[0x80], character scalar form⟩

/-- The number of bytes the encoder reserves. -/
theorem findlen_eq (wc : WChar)
    : findlen wc = if wc.toNat < 0x80 then 1 else if wc.toNat < 0x800 then 2
        else if wc.toNat < 0x10000 then 3 else if wc.toNat < 0x110000 then 4 else -1 := by
  simp only [findlen, range, List.find?_cons, List.getD_cons_succ, List.getD_cons_zero]
  split_ifs with one two three four
  · simp [one]
  · simp [one, two, Nat.not_lt.mp one]
  · simp [one, two, three, Nat.not_lt.mp two]
  · simp [one, two, three, four, Nat.not_lt.mp three]
  · simp [one, two, three, four]

theorem not_surrogate_of_scalar {wc : WChar} (top : wc.toNat < 0x110000)
    : surrogate wc = decide (0xd800 ≤ wc.toNat ∧ wc.toNat ≤ 0xdfff) := by
  have positive : wc.toInt = wc.toNat := by
    rw [BitVec.toInt_eq_toNat_of_lt]
    omega
  rw [surrogate, positive, Bool.decide_and]
  congr 1 <;> exact decide_eq_decide.mpr (by omega)

/-- Shifting out six bits of a code point. -/
theorem toNat_sshiftRight_six {c : WChar} (positive : c.toNat < 2 ^ 31)
    : (c.sshiftRight 6).toNat = c.toNat / 64 := by
  have sign : c.msb = false := by
    rw [BitVec.msb_eq_decide]
    simpa using positive
  rw [BitVec.sshiftRight_eq_of_msb_false sign, BitVec.toNat_ushiftRight,
    Nat.shiftRight_eq_div_pow]

theorem or_bits
    : (∀ x < 64, 0x80 ||| x = 0x80 + x) ∧ (∀ x < 32, x ||| 0xc0 = 0xc0 + x)
      ∧ (∀ x < 16, x ||| 0xe0 = 0xe0 + x) ∧ (∀ x < 8, x ||| 0xf0 = 0xf0 + x) := by
  decide +kernel

theorem trailer_byte (x : Nat) : 0x80 ||| (x &&& 0x3f) = 0x80 + x % 64 := by
  rw [(and_ones x).1]
  exact or_bits.1 _ (by omega)

/-- The first byte the encoder writes, from what the loop leaves of the code point. -/
def leadByte (cnt : Nat) (c : WChar) : Nat :=
  if cnt = 1 then c.toNat &&& 0x7f
  else (c.toNat &&& (0x7f >>> cnt)) ||| ((0xff00 >>> cnt) &&& 0xff)

theorem wcrtombPriv_of_findlen {wc : WChar} (cnt : Nat) (plain : ¬ surrogate wc = true)
    (length : findlen wc = (cnt : Int)) (positive : 1 ≤ cnt) (atMost : cnt ≤ 4) (n : Nat)
    : wcrtombPriv n wc
      = if n < cnt then .error .e2big
        else .ok (UInt8.ofNat (leadByte cnt (trailers (cnt - 1) wc []).2)
          :: (trailers (cnt - 1) wc []).1) := by
  have one : ((cnt : Int) = 1) = (cnt = 1) := propext (by omega)
  have room : ((n : Int) < (cnt : Int)) = (n < cnt) := propext (by omega)
  rw [wcrtombPriv, if_neg plain, length, if_neg (by omega)]
  simp only [Int.toNat_natCast, leadByte, one, room]

/-- The encoder on a code point: its shortest form, if there is room for it. -/
theorem wcrtombPriv_scalar {wc : WChar} (scalar : Scalar wc.toNat) (n : Nat)
    : wcrtombPriv n wc
      = if n < (utf8 wc.toNat).length then .error .e2big else .ok (utf8 wc.toNat) := by
  obtain ⟨top, notSurrogate⟩ := scalar
  have plain : ¬ surrogate wc = true := by
    rw [not_surrogate_of_scalar top]
    simpa using notSurrogate
  have six := toNat_sshiftRight_six (c := wc) (by omega)
  have twelve := toNat_sshiftRight_six (c := wc.sshiftRight 6) (by omega)
  have eighteen := toNat_sshiftRight_six (c := (wc.sshiftRight 6).sshiftRight 6) (by omega)
  have length := findlen_eq wc
  by_cases one : wc.toNat < 0x80
  · have form : utf8 wc.toNat = [UInt8.ofNat wc.toNat] := by simp [utf8, one]
    have low : wc.toNat &&& 0x7f = wc.toNat :=
      (Nat.and_two_pow_sub_one_eq_mod wc.toNat 7).trans (Nat.mod_eq_of_lt one)
    rw [if_pos one] at length
    rw [wcrtombPriv_of_findlen 1 plain length (by decide) (by decide), form]
    simp [trailers, leadByte, low]
  by_cases two : wc.toNat < 0x800
  · have lead : (wc.toNat / 64 &&& (0x7f >>> 2)) ||| ((0xff00 >>> 2) &&& 0xff)
        = 0xc0 + wc.toNat / 64 := by
      rw [(and_ones _).2.1, Nat.mod_eq_of_lt (by omega)]
      exact or_bits.2.1 _ (by omega)
    have form : utf8 wc.toNat
        = [UInt8.ofNat (0xc0 + wc.toNat / 64), UInt8.ofNat (0x80 + wc.toNat % 64)] := by
      simp [utf8, one, two]
    rw [if_neg one, if_pos two] at length
    rw [wcrtombPriv_of_findlen 2 plain length (by decide) (by decide), form]
    simp only [trailers, Nat.reduceSub, leadByte, six, lead, trailer_byte]
    rfl
  by_cases three : wc.toNat < 0x10000
  · have lead : (wc.toNat / 64 / 64 &&& (0x7f >>> 3)) ||| ((0xff00 >>> 3) &&& 0xff)
        = 0xe0 + wc.toNat / 4096 := by
      rw [(and_ones _).2.2.1, Nat.mod_eq_of_lt (by omega), Nat.div_div_eq_div_mul]
      exact or_bits.2.2.1 _ (by omega)
    have form : utf8 wc.toNat
        = [UInt8.ofNat (0xe0 + wc.toNat / 4096), UInt8.ofNat (0x80 + wc.toNat / 64 % 64),
          UInt8.ofNat (0x80 + wc.toNat % 64)] := by
      simp [utf8, one, two, three]
    rw [if_neg one, if_neg two, if_pos three] at length
    rw [wcrtombPriv_of_findlen 3 plain length (by decide) (by decide), form]
    simp only [trailers, Nat.reduceSub, leadByte, twelve, six, lead, trailer_byte]
    rfl
  · have lead : (wc.toNat / 64 / 64 / 64 &&& (0x7f >>> 4)) ||| ((0xff00 >>> 4) &&& 0xff)
        = 0xf0 + wc.toNat / 262144 := by
      rw [(and_ones _).2.2.2, Nat.mod_eq_of_lt (by omega), Nat.div_div_eq_div_mul,
        Nat.div_div_eq_div_mul]
      exact or_bits.2.2.2 _ (by omega)
    have form : utf8 wc.toNat
        = [UInt8.ofNat (0xf0 + wc.toNat / 262144), UInt8.ofNat (0x80 + wc.toNat / 64 / 64 % 64),
          UInt8.ofNat (0x80 + wc.toNat / 64 % 64), UInt8.ofNat (0x80 + wc.toNat % 64)] := by
      simp [utf8, one, two, three, Nat.div_div_eq_div_mul]
    rw [if_neg one, if_neg two, if_neg three, if_pos top] at length
    rw [wcrtombPriv_of_findlen 4 plain length (by decide) (by decide), form]
    simp only [trailers, Nat.reduceSub, leadByte, eighteen, twelve, six, lead, trailer_byte]
    rfl

/-- The encoder refuses everything else. -/
theorem wcrtombPriv_not_scalar {wc : WChar} (other : ¬ Scalar wc.toNat) (n : Nat)
    : wcrtombPriv n wc = .error .eilseq := by
  rw [wcrtombPriv]
  split
  · rfl
  next plain =>
  by_cases top : wc.toNat < 0x110000
  · rw [not_surrogate_of_scalar top, decide_eq_true_eq] at plain
    exact absurd ⟨top, plain⟩ other
  · have length : findlen wc = -1 := by
      rw [findlen_eq, if_neg (by omega), if_neg (by omega), if_neg (by omega), if_neg top]
    rw [length, if_pos (by decide)]

/-- Calls on the pieces of a sequence give the characters, the state and the point of a refusal
that calls on the whole of it give.
-/
def CutIndependent : Prop :=
  ∀ pieces : List (List UInt8), ∃ outcome,
    feedAll pieces [] = some outcome ∧ feedAll [pieces.flatten] [] = some outcome

/-- A sequence decodes to its end exactly if it is well-formed, and decodes without error
exactly if it is the beginning of a well-formed one.
-/
def AcceptsWellFormed : Prop :=
  ∀ bytes : List UInt8,
    ((∃ wcs, feedAll [bytes] [] = some (wcs, .stands [])) ↔ WellFormed bytes)
    ∧ ((∃ wcs state, feedAll [bytes] [] = some (wcs, .stands state))
      ↔ ∃ more, WellFormed (bytes ++ more))

/-- The encoder writes exactly the bytes that the decoder reads as the one character. -/
def Inverse : Prop :=
  ∀ (wc : WChar) (bytes : List UInt8),
    (∃ n, wcrtombPriv n wc = .ok bytes) ↔ feedAll [bytes] [] = some ([wc], .stands [])

/-- The encoder fails with `EILSEQ` exactly on what the decoder never produces, and with room for
four bytes in no other way.
-/
def FailsExactly : Prop :=
  ∀ (wc : WChar) (n : Nat),
    (wcrtombPriv n wc = .error .eilseq
      ↔ ¬ ∃ bytes wcs ending, feedAll [bytes] [] = some (wcs, ending) ∧ wc ∈ wcs)
    ∧ (4 ≤ n → wcrtombPriv n wc ≠ .error .e2big)

theorem feedAll_whole (bytes : List UInt8) : feedAll [bytes] [] = some (run step bytes []) := by
  rw [feedAll_eq_run [bytes] (show Pending [] from trivial), List.flatten_singleton]

theorem cutIndependent : CutIndependent := by
  intro pieces
  exact ⟨_, feedAll_eq_run pieces (show Pending [] from trivial), feedAll_whole pieces.flatten⟩

/-- The bytes read so far, when the decoder has not refused any. -/
theorem stands_sound {bytes : List UInt8} {wcs : List WChar} {state : State}
    (stands : run step bytes [] = (wcs, .stands state))
    : ∃ vs : List Nat, (∀ v ∈ vs, Scalar v) ∧ wcs = vs.map (BitVec.ofNat 32) ∧ Begun state
      ∧ bytes = vs.flatMap utf8 ++ state := by
  obtain ⟨vs, scalars, outs, ends⟩ := run_sound (s := bytes) .nothing
  rw [stands] at outs ends
  obtain ⟨begun, whole⟩ := ends state rfl
  exact ⟨vs, scalars, outs, begun, whole⟩

theorem acceptsWellFormed : AcceptsWellFormed := by
  intro bytes
  simp only [feedAll_whole, Option.some.injEq]
  constructor
  · constructor
    · rintro ⟨wcs, stands⟩
      obtain ⟨vs, scalars, -, -, whole⟩ := stands_sound stands
      exact ⟨vs, scalars, by simpa using whole⟩
    · rintro ⟨vs, scalars, rfl⟩
      exact ⟨_, run_flatMap_utf8 vs scalars⟩
  · constructor
    · rintro ⟨wcs, state, stands⟩
      obtain ⟨vs, scalars, -, begun, rfl⟩ := stands_sound stands
      obtain ⟨more, vs', scalars', form⟩ := begun.completes
      refine ⟨more, vs ++ vs', ?_, ?_⟩
      · intro v among
        rcases List.mem_append.mp among with h | h
        · exact scalars v h
        · exact scalars' v h
      · rw [List.append_assoc, form, List.flatMap_append]
    · rintro ⟨more, vs, scalars, form⟩
      have whole := run_flatMap_utf8 vs scalars
      rw [← form, Transducer.run_append] at whole
      rcases ran : run step bytes [] with ⟨wcs, state | position⟩
      · exact ⟨wcs, state, rfl⟩
      · rw [ran] at whole
        cases whole

/-- The shortest form of one value, read back from the decoder's answer. -/
theorem single_of_stands {bytes : List UInt8} {wc : WChar}
    (stands : run step bytes [] = ([wc], .stands []))
    : Scalar wc.toNat ∧ bytes = utf8 wc.toNat := by
  obtain ⟨vs, scalars, outs, -, whole⟩ := stands_sound stands
  obtain ⟨v, rfl, rfl⟩ := List.map_eq_singleton_iff.mp outs.symm
  have scalar := scalars v (by simp)
  have small : v < 2 ^ 32 := by
    have := scalar.1
    omega
  rw [BitVec.toNat_ofNat, Nat.mod_eq_of_lt small]
  exact ⟨scalar, by simpa using whole⟩

theorem ofNat_toNat_wchar (wc : WChar) : BitVec.ofNat 32 wc.toNat = wc := by
  rw [BitVec.ofNat_toNat, BitVec.setWidth_eq]

theorem inverse : Inverse := by
  intro wc bytes
  rw [feedAll_whole, Option.some.injEq]
  constructor
  · rintro ⟨n, written⟩
    by_cases scalar : Scalar wc.toNat
    · rw [wcrtombPriv_scalar scalar] at written
      split at written
      · cases written
      · cases written
        rw [run_utf8 scalar, ofNat_toNat_wchar]
    · rw [wcrtombPriv_not_scalar scalar] at written
      cases written
  · intro stands
    obtain ⟨scalar, rfl⟩ := single_of_stands stands
    refine ⟨(utf8 wc.toNat).length, ?_⟩
    rw [wcrtombPriv_scalar scalar, if_neg (by omega)]

theorem utf8_length_le (v : Nat) : (utf8 v).length ≤ 4 := by
  rw [utf8]
  split_ifs <;> simp

theorem failsExactly : FailsExactly := by
  intro wc n
  by_cases scalar : Scalar wc.toNat
  · rw [wcrtombPriv_scalar scalar]
    have produced : ∃ bytes wcs ending, feedAll [bytes] [] = some (wcs, ending) ∧ wc ∈ wcs := by
      refine ⟨utf8 wc.toNat, [wc], .stands [], ?_, by simp⟩
      rw [feedAll_whole, run_utf8 scalar, ofNat_toNat_wchar]
    constructor
    · constructor
      · intro failed
        split at failed <;> cases failed
      · exact fun never => absurd produced never
    · intro room
      have := utf8_length_le wc.toNat
      rw [if_neg (by omega)]
      simp
  · rw [wcrtombPriv_not_scalar scalar]
    refine ⟨iff_of_true rfl ?_, fun _ => by simp⟩
    rintro ⟨bytes, wcs, ending, decoded, among⟩
    rw [feedAll_whole, Option.some.injEq] at decoded
    obtain ⟨vs, scalars, outs, -⟩ := run_sound (s := bytes) .nothing
    rw [decoded] at outs
    simp only at outs
    rw [outs] at among
    obtain ⟨v, inside, rfl⟩ := List.mem_map.mp among
    have here := scalars v inside
    have small : v < 2 ^ 32 := by
      have := here.1
      omega
    rw [BitVec.toNat_ofNat, Nat.mod_eq_of_lt small] at scalar
    exact scalar here

/-- The decoder and the encoder of UTF-8 fit together. -/
theorem utf8_codec : CutIndependent ∧ AcceptsWellFormed ∧ Inverse ∧ FailsExactly :=
  ⟨cutIndependent, acceptsWellFormed, inverse, failsExactly⟩

end BSDLibC.Utf8
