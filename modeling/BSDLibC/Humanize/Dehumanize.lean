import BSDLibC.Ctype.CLocale
import BSDLibC.Strsuftoll.Exact

/-! `dehumanize_number`, and when it accepts exactly the numbers with a unit. Products are reduced to
64 bits.
-/

namespace BSDLibC.Humanize
open BSDLibC.Strto BSDLibC.Strsuftoll

/-- A letter in either case and what it multiplies by. -/
def IsUnit (c : UInt8) (m : Int) : Prop :=
  ((c = 0x62 ∨ c = 0x42) ∧ m = 1)
    ∨ ((c = 0x6b ∨ c = 0x4b) ∧ m = 2 ^ 10)
    ∨ ((c = 0x6d ∨ c = 0x4d) ∧ m = 2 ^ 20)
    ∨ ((c = 0x67 ∨ c = 0x47) ∧ m = 2 ^ 30)

/-- The `switch` over the lower case of the last character. -/
def unitMultiplier (c : UInt8) : Option Int :=
  if c = 0x62 then some 1
  else if c = 0x6b then some 1024
  else if c = 0x6d then some (1024 * 1024)
  else if c = 0x67 then some (1024 * 1024 * 1024)
  else none

/-- What a locale takes for letters. In each the units are letters, and digits are not. -/
structure Letters where
  isalpha : UInt8 → Bool
  tolower : UInt8 → UInt8
  units (c : UInt8) (m : Int) : isalpha c = true ∧ unitMultiplier (tolower c) = some m ↔ IsUnit c m
  digits (c : UInt8) : 0x30 ≤ c → c ≤ 0x39 → isalpha c = false

/-- The result, the number at `size`, and `errno`. -/
structure Outcome where
  ret : Int
  size : Int
  errno : Int
deriving DecidableEq

/-- The conversion and its checks, for the unit found and its place. -/
def scaledNumber (loc : Strto.Locale) (text : Text) (multiplier : Int) (delimit : Option Nat)
    (size : Int)
    : Option Outcome := do
  let ⟨tmp, ep, errno⟩ ← strtoll loc text 10 0
  let next ← text.memory[ep]?
  if text.memory.head? = some 0 ∨ (some ep ≠ delimit ∧ next ≠ 0) then
    return ⟨-1, size, EINVAL⟩
  else if errno = ERANGE ∧ (tmp = long.max ∨ tmp = long.min) then
    return ⟨-1, size, errno⟩
  else if tmp ≠ (wrap (tmp * multiplier)).tdiv multiplier then
    return ⟨-1, size, ERANGE⟩
  else
    return ⟨0, wrap (tmp * multiplier), errno⟩

def dehumanizeNumber (loc : Strto.Locale) (letters : Letters) (text : Text) (size : Int)
    : Option Outcome :=
  match text.bytes.getLast? with
  | none => some ⟨-1, size, EINVAL⟩
  | some unit =>
      if letters.isalpha unit then
        match unitMultiplier (letters.tolower unit) with
        | none => some ⟨-1, size, EINVAL⟩
        | some multiplier =>
            scaledNumber loc text multiplier (some (text.bytes.length - 1)) size
      else
        scaledNumber loc text 1 none size

-----------------------------------------------------------------------------------------
-- What a string denotes
-----------------------------------------------------------------------------------------

/-- A unit at the end, if any, and what it multiplies by. -/
def IsSuffix (suffix : List UInt8) (m : Int) : Prop :=
  (suffix = [] ∧ m = 1) ∨ ∃ c, suffix = [c] ∧ IsUnit c m

/-- White space, a sign, digits and a unit, nothing else, and their value. -/
def Denotes (loc : Strto.Locale) (text : Text) (v : Int) : Prop :=
  ∃ (n : Numeral) (suffix : List UInt8) (m : Int),
    n.Valid loc 10 ∧ IsSuffix suffix m ∧ text.bytes = n.bytes ++ suffix ∧ v = n.value 10 * m

/-- What is promised: the number of a string that denotes one that fits, else failure with the old
number left.
-/
structure Exact (loc : Strto.Locale) (letters : Letters) (text : Text) (size : Int) : Prop where
  accepted (v : Int) : Denotes loc text v → Fits v
    → ∃ errno, dehumanizeNumber loc letters text size = some ⟨0, v, errno⟩
  refused : (∀ v, Denotes loc text v → ¬ Fits v)
    → ∃ errno, dehumanizeNumber loc letters text size = some ⟨-1, size, errno⟩

/-- A unit alone, without any digit. -/
def BareUnit (text : Text) : Prop := ∃ c m, text.bytes = [c] ∧ IsUnit c m

variable {loc : Strto.Locale}

theorem digit_bounds {d : UInt8} (digit : IsDigit 10 d) : 0x30 ≤ d ∧ d ≤ 0x39 := by
  obtain ⟨i, value, small⟩ := digit
  simp only [Strto.digit, UInt8.le_iff_toNat_le] at value ⊢
  split_ifs at value with first <;> cases value
  · exact first
  all_goals simp at *; omega

theorem IsUnit.not_digit {c : UInt8} {m : Int} (unit : IsUnit c m) : ¬ IsDigit 10 c := by
  intro digit
  obtain ⟨low, high⟩ := digit_bounds digit
  rcases unit with ⟨rfl | rfl, -⟩ | ⟨rfl | rfl, -⟩ | ⟨rfl | rfl, -⟩ | ⟨rfl | rfl, -⟩ <;>
    revert high <;> decide

/-- A decimal numeral has no prefix, and ends in a digit. -/
theorem radix_ten {n : Numeral} (valid : n.Valid loc 10) : n.marker = none ∧ n.radix 10 = 10 := by
  have marker : n.marker = none := by
    cases marked : n.marker with
    | none => rfl
    | some x => exact absurd (valid.marker x marked).1 (by decide)
  exact ⟨marker, by rw [Numeral.radix, marker]; rfl⟩

theorem last_digit {n : Numeral} (valid : n.Valid loc 10)
    : ∃ d, n.bytes.getLast? = some d ∧ IsDigit 10 d := by
  have last := List.getLast?_eq_some_getLast valid.present
  refine ⟨_, ?_, (radix_ten valid).2 ▸ valid.digits _ (List.getLast_mem valid.present)⟩
  simp only [Numeral.bytes, List.getLast?_append, last, Option.some_or]

/-- A unit follows the longest numeral. -/
theorem subject_of_suffix {n : Numeral} {suffix bytes : List UInt8} {m : Int} (valid : n.Valid loc 10)
    (known : IsSuffix suffix m) (whole : bytes = n.bytes ++ suffix)
    : n = subject loc 10 bytes := by
  obtain ⟨present, same | longer⟩ := valid_le_subject valid ⟨suffix, whole.symm⟩
  · exact same
  · have rest := subject_append loc 10 bytes
    have total := congrArg List.length (rest.trans whole)
    rw [List.length_append, List.length_append] at total
    rcases known with ⟨rfl, -⟩ | ⟨c, rfl, unit⟩
    · rw [List.length_nil] at total
      omega
    · rw [List.length_singleton] at total
      have nothing : leftover loc 10 bytes = [] := List.length_eq_zero_iff.mp (by omega)
      obtain ⟨d, last, digit⟩ := last_digit (subject_valid present)
      rw [nothing, List.append_nil] at rest
      rw [rest, whole, List.getLast?_concat] at last
      exact absurd (Option.some.inj last ▸ digit) unit.not_digit

-----------------------------------------------------------------------------------------
-- The conversion and its checks
-----------------------------------------------------------------------------------------

theorem IsSuffix.factor {suffix : List UInt8} {m : Int} (known : IsSuffix suffix m)
    : 0 < m ∧ ∃ k : Int, 2 ^ 64 = m * k := by
  rcases known with ⟨-, rfl⟩ | ⟨c, -, ⟨-, rfl⟩ | ⟨-, rfl⟩ | ⟨-, rfl⟩ | ⟨-, rfl⟩⟩
  · exact ⟨by decide, 2 ^ 64, by decide⟩
  · exact ⟨by decide, 2 ^ 64, by decide⟩
  · exact ⟨by decide, 2 ^ 54, by decide⟩
  · exact ⟨by decide, 2 ^ 44, by decide⟩
  · exact ⟨by decide, 2 ^ 34, by decide⟩

/-- Dividing a reduced product gives the other factor when nothing was reduced. -/
theorem tdiv_wrap_iff {v m k : Int} (positive : 0 < m) (divides : 2 ^ 64 = m * k)
    : v = (wrap (v * m)).tdiv m ↔ Fits (v * m) := by
  have reduced : wrap (v * m) = m * (v - k * ((v * m).bdiv (2 ^ 64))) := by
    have power : ((2 ^ 64 : Nat) : Int) = m * k := divides
    rw [wrap, Int.bmod_eq_self_sub_mul_bdiv, power, Int.mul_sub, ← Int.mul_assoc, Int.mul_comm m v]
  constructor
  · intro back
    rw [reduced, Int.mul_tdiv_cancel_left _ (Int.ne_of_gt positive)] at back
    have same : wrap (v * m) = v * m := by rw [reduced, ← back, Int.mul_comm]
    have low := Int.le_bmod (x := v * m) (m := 2 ^ 64) (by decide)
    have high := Int.bmod_lt (x := v * m) (m := 2 ^ 64) (by decide)
    rw [wrap] at same
    rw [same] at low high
    exact ⟨low, Int.le_of_lt_add_one high⟩
  · intro fits
    rw [wrap_eq fits, Int.mul_tdiv_cancel _ (Int.ne_of_gt positive)]

theorem fits_of_product {v m : Int} (positive : 0 < m) (fits : Fits (v * m)) : Fits v := by
  obtain ⟨low, high⟩ := fits
  have lowest : long.min ≤ 0 := by decide
  have highest : 0 ≤ long.max := by decide
  rcases Int.le_total 0 v with nonneg | nonpos
  · exact ⟨lowest.trans nonneg, (le_mul_of_one_le_right nonneg positive).trans high⟩
  · have : v * m ≤ v := by nlinarith
    exact ⟨low.trans this, nonpos.trans highest⟩

-----------------------------------------------------------------------------------------
-- Numbers that are accepted
-----------------------------------------------------------------------------------------

variable {letters : Letters} {text : Text} (size : Int)

/-- The checks behind a numeral whose end is the place of the unit or the end of the string. -/
theorem scaledNumber_numeral {n : Numeral} {suffix : List UInt8} {m : Int} {delimit : Option Nat}
    (valid : n.Valid loc 10) (known : IsSuffix suffix m) (whole : text.bytes = n.bytes ++ suffix)
    (ends : suffix = [] ∨ some n.bytes.length = delimit)
    : (Fits (n.value 10 * m) → scaledNumber loc text m delimit size = some ⟨0, n.value 10 * m, 0⟩)
      ∧ (¬ Fits (n.value 10 * m)
          → scaledNumber loc text m delimit size = some ⟨-1, size, ERANGE⟩) := by
  have numeral := subject_of_suffix valid known whole
  have decimal : ValidBase 10 := .inr ⟨by decide, by decide⟩
  have call : strtoll loc text 10 0 = some (long.signedResult (n.value 10) n.bytes.length 0) := by
    rw [strtoll, toSigned_eq long loc text 0 decimal numeral, if_neg valid.present]
  obtain ⟨next, here, ended⟩ : ∃ next, text.memory[n.bytes.length]? = some next
      ∧ (suffix = [] → next = 0) := by
    rw [Text.memory, whole, List.append_assoc, List.getElem?_append_right (Nat.le_refl _), Nat.sub_self]
    cases suffix with
    | nil => exact ⟨0, rfl, fun _ => rfl⟩
    | cons c rest => exact ⟨c, rfl, fun empty => absurd empty (List.cons_ne_nil c rest)⟩
  have first : text.memory.head? ≠ some 0 := by
    obtain ⟨d, last, -⟩ := last_digit valid
    intro zero
    cases bytes : text.bytes with
    | nil =>
        rw [(List.append_eq_nil_iff.mp (whole.symm.trans bytes)).1] at last
        cases last
    | cons c rest =>
        rw [Text.memory, bytes] at zero
        exact text.nul (bytes ▸ Option.some.inj zero ▸ List.mem_cons_self)
  have passes : ¬ (text.memory.head? = some 0 ∨ (some n.bytes.length ≠ delimit ∧ next ≠ 0)) := by
    rintro (zero | ⟨apart, more⟩)
    · exact first zero
    · exact ends.elim (fun nothing => more (ended nothing)) apart
  obtain ⟨positive, k, divides⟩ := known.factor
  have fits_iff := tdiv_wrap_iff (v := n.value 10) positive divides
  simp only [scaledNumber, call, here, IntType.signedResult, Option.bind_eq_bind, Option.bind_some]
  rw [if_neg passes]
  constructor
  · intro fits
    obtain ⟨low, high⟩ := fits_of_product positive fits
    have clamped : max long.min (min long.max (n.value 10)) = n.value 10 := by omega
    have known : ¬ (n.value 10 < long.min ∨ long.max < n.value 10) := by omega
    rw [clamped, if_neg known, if_neg (fun both => absurd both.1 (by decide)),
      if_neg (not_not.mpr (fits_iff.mpr fits)), wrap_eq fits]
    rfl
  · intro outside
    by_cases range : n.value 10 < long.min ∨ long.max < n.value 10
    · have clamped : max long.min (min long.max (n.value 10)) = long.max
          ∨ max long.min (min long.max (n.value 10)) = long.min := by
        have : long.min ≤ long.max := by decide
        omega
      rw [if_pos range, if_pos ⟨rfl, clamped⟩]
      rfl
    · have clamped : max long.min (min long.max (n.value 10)) = n.value 10 := by omega
      rw [clamped, if_neg range, if_neg (fun both => absurd both.1 (by decide)),
        if_pos fun same => outside (fits_iff.mp same)]
      rfl

theorem dehumanizeNumber_numeral {n : Numeral} {suffix : List UInt8} {m : Int}
    (valid : n.Valid loc 10) (known : IsSuffix suffix m) (whole : text.bytes = n.bytes ++ suffix)
    : ∃ delimit, (suffix = [] ∨ some n.bytes.length = delimit)
        ∧ dehumanizeNumber loc letters text size = scaledNumber loc text m delimit size := by
  rcases known with ⟨rfl, rfl⟩ | ⟨c, rfl, unit⟩
  · obtain ⟨d, last, digit⟩ := last_digit valid
    obtain ⟨low, high⟩ := digit_bounds digit
    rw [List.append_nil] at whole
    refine ⟨none, .inl rfl, ?_⟩
    rw [dehumanizeNumber, whole, last]
    simp only [letters.digits d low high, Bool.false_eq_true, if_false]
  · obtain ⟨alpha, multiplier⟩ := (letters.units c m).mpr unit
    refine ⟨some (text.bytes.length - 1), .inr ?_, ?_⟩
    · rw [whole, List.length_append, List.length_singleton, Nat.add_sub_cancel]
    · rw [dehumanizeNumber, whole, List.getLast?_concat]
      simp only [alpha, if_true, multiplier]

-----------------------------------------------------------------------------------------
-- Strings that are refused
-----------------------------------------------------------------------------------------

/-- The conversion fails when it ends before the end of the string and not at the place of a unit. -/
theorem scaledNumber_refused {suffix start : List UInt8} {m : Int} {delimit : Option Nat}
    (known : IsSuffix suffix m) (whole : text.bytes = start ++ suffix)
    (place : ∀ ep, some ep = delimit → ep = start.length ∧ suffix ≠ []) (present : text.bytes ≠ [])
    (other : ∀ v, ¬ Denotes loc text v) (digit : ¬ BareUnit text)
    : scaledNumber loc text m delimit size = some ⟨-1, size, EINVAL⟩ := by
  have decimal : ValidBase 10 := .inr ⟨by decide, by decide⟩
  have rest := subject_append loc 10 text.bytes
  have nonzero (c : UInt8) (member : c ∈ text.bytes) : c ≠ 0 := fun zero => text.nul (zero ▸ member)
  have fails {ep : Nat} {next : UInt8} {tmp errno : Int}
      (call : strtoll loc text 10 0 = some ⟨tmp, ep, errno⟩) (here : text.memory[ep]? = some next)
      (apart : some ep ≠ delimit) (more : next ≠ 0)
      : scaledNumber loc text m delimit size = some ⟨-1, size, EINVAL⟩ := by
    simp only [scaledNumber, call, here, Option.bind_eq_bind, Option.bind_some]
    rw [if_pos (.inr ⟨apart, more⟩)]
    rfl
  have call := toSigned_eq long loc text 0 decimal rfl
  by_cases nothing : (subject loc 10 text.bytes).digits = []
  · rw [if_pos nothing] at call
    obtain ⟨c, bytes, shape⟩ := List.exists_cons_of_ne_nil present
    refine fails call (by rw [Text.memory, shape]; rfl) ?_ (nonzero c (by simp [shape]))
    intro same
    obtain ⟨zero, unit⟩ := place 0 same
    rcases known with ⟨rfl, -⟩ | ⟨c, rfl, known⟩
    · exact unit rfl
    · rw [List.eq_nil_of_length_eq_zero zero.symm] at whole
      exact digit ⟨c, m, whole, known⟩
  · rw [if_neg nothing] at call
    have valid := subject_valid nothing
    obtain ⟨next, here, ended⟩ : ∃ next,
        text.memory[(subject loc 10 text.bytes).bytes.length]? = some next
        ∧ (next = 0 → leftover loc 10 text.bytes = []) := by
      have memory : text.memory
          = (subject loc 10 text.bytes).bytes ++ (leftover loc 10 text.bytes ++ [0]) := by
        rw [← List.append_assoc, rest, Text.memory]
      rw [memory, List.getElem?_append_right (Nat.le_refl _), Nat.sub_self]
      cases left : leftover loc 10 text.bytes with
      | nil => exact ⟨0, rfl, fun _ => rfl⟩
      | cons c more =>
          refine ⟨c, rfl, fun zero => absurd zero (nonzero c ?_)⟩
          rw [← rest, left]
          simp
    refine fails call here ?_ ?_
    · intro same
      obtain ⟨length, -⟩ := place _ same
      have parts := List.append_inj (rest.trans whole) length
      exact other _ ⟨_, suffix, m, valid, known, by rw [parts.1, whole], rfl⟩
    · intro zero
      rw [ended zero, List.append_nil] at rest
      exact other _ ⟨_, [], 1, valid, .inl ⟨rfl, rfl⟩, by rw [List.append_nil, rest], rfl⟩

theorem dehumanizeNumber_refused (other : ∀ v, ¬ Denotes loc text v) (digit : ¬ BareUnit text)
    : dehumanizeNumber loc letters text size = some ⟨-1, size, EINVAL⟩ := by
  rw [dehumanizeNumber]
  cases last : text.bytes.getLast? with
  | none => rfl
  | some c =>
      have present : text.bytes ≠ [] := by
        intro nothing
        rw [nothing] at last
        cases last
      obtain ⟨start, whole⟩ := List.getLast?_eq_some_iff.mp last
      simp only
      split_ifs with alpha
      · cases known : unitMultiplier (letters.tolower c) with
        | none => rfl
        | some m =>
            have unit := (letters.units c m).mp ⟨alpha, known⟩
            refine scaledNumber_refused size (.inr ⟨c, rfl, unit⟩) whole
              (fun ep same => ⟨?_, by simp⟩) present other digit
            rw [Option.some.inj same, whole, List.length_append, List.length_singleton,
              Nat.add_sub_cancel]
      · exact scaledNumber_refused size (.inl ⟨rfl, rfl⟩) (List.append_nil _).symm nofun present
          other digit

theorem BareUnit.not_numeral (bare : BareUnit text) (n : Numeral) (valid : n.Valid loc 10)
    : ¬ n.bytes <+: text.bytes := by
  obtain ⟨c, m, alone, unit⟩ := bare
  intro start
  obtain ⟨d, last, digit⟩ := last_digit valid
  have member := start.subset (List.mem_of_getLast? last)
  rw [alone, List.mem_singleton] at member
  exact unit.not_digit (member ▸ digit)

theorem BareUnit.not_denotes (bare : BareUnit text) (v : Int) : ¬ Denotes loc text v := by
  rintro ⟨n, suffix, m, valid, known, whole, -⟩
  exact bare.not_numeral n valid ⟨suffix, whole.symm⟩

/-- A unit alone passes for zero. -/
theorem dehumanizeNumber_bare (bare : BareUnit text)
    : dehumanizeNumber loc letters text size = some ⟨0, 0, 0⟩ := by
  have decimal : ValidBase 10 := .inr ⟨by decide, by decide⟩
  have call := toSigned_eq long loc text 0 decimal rfl
  rw [if_pos (subject_none bare.not_numeral)] at call
  obtain ⟨c, m, alone, unit⟩ := bare
  obtain ⟨alpha, multiplier⟩ := (letters.units c m).mpr unit
  have nonzero : c ≠ 0 := fun zero => text.nul (alone ▸ zero ▸ List.mem_singleton_self c)
  rw [dehumanizeNumber, alone]
  simp only [List.getLast?_singleton, alpha, if_true, multiplier, scaledNumber, strtoll, call,
    Option.bind_eq_bind, Option.bind_some, Text.memory, alone]
  simp [nonzero, wrap, ERANGE]

/-- The letters of the C locale. -/
def cLetters : Letters where
  isalpha c := Ctype.isupper c.toNat || Ctype.islower c.toNat
  tolower c := UInt8.ofNat (Ctype.tolower c.toNat)
  units c m := by
    constructor
    · rintro ⟨alpha, known⟩
      have cases {x : UInt8} (same : UInt8.ofNat (Ctype.tolower c.toNat) = x) : c = x ∨ c = x - 0x20 := by
        rw [Ctype.tolower] at same
        split_ifs at same with upper
        · right
          rw [← same, UInt8.ofNat_add, UInt8.ofNat_toNat]
          exact (UInt8.add_sub_cancel _ _).symm
        · left
          rw [← same, UInt8.ofNat_toNat]
      rw [unitMultiplier] at known
      split_ifs at known with b k m g <;> cases known
      · exact .inl ⟨cases b, rfl⟩
      · exact .inr (.inl ⟨cases k, rfl⟩)
      · exact .inr (.inr (.inl ⟨cases m, rfl⟩))
      · exact .inr (.inr (.inr ⟨cases g, rfl⟩))
    · rintro (⟨rfl | rfl, rfl⟩ | ⟨rfl | rfl, rfl⟩ | ⟨rfl | rfl, rfl⟩ | ⟨rfl | rfl, rfl⟩)
      all_goals decide
  digits c low high := by
    rw [UInt8.le_iff_toNat_le] at low high
    simp [Ctype.isupper, Ctype.islower] at low high ⊢
    omega

def kilo : Text := ⟨[0x6b], by decide⟩

end BSDLibC.Humanize
