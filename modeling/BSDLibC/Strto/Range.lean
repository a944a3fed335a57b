import BSDLibC.Strto.Exact

/-! `strtoi` and `strtou` give a value of the range and a status. -/

namespace BSDLibC.Strto

/-- The status of a conversion: no digits come before a value out of range, and that comes before
characters behind the number.
-/
def status (found inRange whole : Prop) [Decidable found] [Decidable inRange] [Decidable whole] : Int :=
  if ¬ found then ECANCELED
  else if ¬ inRange then ERANGE
  else if ¬ whole then ENOTSUP
  else 0

/-- The byte at a place is the NUL when it is the end of the string. -/
theorem memory_getElem? (text : Text) {i : Nat} (inside : i ≤ text.bytes.length)
    : ∃ c, text.memory[i]? = some c ∧ (c = 0 ↔ i = text.bytes.length) := by
  rcases Nat.lt_or_eq_of_le inside with less | rfl
  · refine ⟨text.bytes[i], ?_, fun zero => ?_, fun same => by omega⟩
    · rw [Text.memory, List.getElem?_append_left less, List.getElem?_eq_getElem less]
    · exact absurd (zero ▸ List.getElem_mem less) text.nul
  · exact ⟨0, by simp [Text.memory], by simp⟩

/-- The range and the status around a conversion that leaves `errno` alone or sets `ERANGE`. -/
theorem ranged_eq {α : Type} [LinearOrder α] {wrapped : Text → Int → Int → Option (Result α)}
    {zero : α} {text : Text} {base : Int} {lo hi : α} {errno : Int} {result : Result α}
    (valid : ValidBase base) (call : wrapped text base 0 = some result)
    (codes : result.errno = 0 ∨ (result.errno = ERANGE ∧ result.endptr ≠ 0))
    (inside : result.endptr ≤ text.bytes.length) (le : lo ≤ hi)
    : ranged wrapped zero text base lo hi errno
      = some ⟨max lo (min hi result.value), result.endptr,
          status (result.endptr ≠ 0) (result.errno = 0 ∧ lo ≤ result.value ∧ result.value ≤ hi)
            (result.endptr = text.bytes.length), errno⟩ := by
  obtain ⟨next, found, last⟩ := memory_getElem? text inside
  rw [ranged, if_neg (by rcases valid with rfl | _ <;> omega)]
  have known : result.errno ≠ EINVAL := by
    rcases codes with zero | ⟨outside, _⟩
    · rw [zero]
      decide
    · rw [outside]
      decide
  simp only [call, Option.bind_eq_bind, Option.bind_some, if_pos known]
  -- The status that the wrapped conversion gives, before the range is looked at.
  set given := if result.errno = 0 ∧ result.endptr = 0 then ECANCELED else result.errno with givenEq
  have cases : given = if ¬ result.endptr ≠ 0 then ECANCELED else result.errno := by
    rw [givenEq]
    by_cases none : result.endptr = 0
    · have zero : result.errno = 0 := codes.resolve_right fun both => both.2 none
      simp [none, zero]
    · simp [none]
  have outside (out : ¬ (result.errno = 0 ∧ lo ≤ result.value ∧ result.value ≤ hi))
      : (if given = 0 then ERANGE else given)
        = status (result.endptr ≠ 0) (result.errno = 0 ∧ lo ≤ result.value ∧ result.value ≤ hi)
            (result.endptr = text.bytes.length) := by
    rw [cases, status, if_pos out]
    by_cases none : ¬ result.endptr ≠ 0
    · rw [if_pos none, if_pos none]
      rfl
    · rw [if_neg none, if_neg none]
      rcases codes with zero | ⟨overflow, _⟩
      · rw [if_pos zero]
      · rw [overflow]
        rfl
  rcases lt_or_ge result.value lo with below | low
  · rw [if_pos below, max_eq_left ((min_le_right _ _).trans below.le),
      outside fun both => below.not_ge both.2.1]
    rfl
  rcases lt_or_ge hi result.value with above | high
  · rw [if_neg low.not_gt, if_pos above, min_eq_left above.le, max_eq_right le,
      outside fun both => above.not_ge both.2.2]
    rfl
  rw [if_neg low.not_gt, if_neg high.not_gt, min_eq_right high, max_eq_right low, cases, status]
  by_cases none : ¬ result.endptr ≠ 0
  · rw [if_pos none, if_pos none, if_neg (by decide)]
    rfl
  rw [if_neg none, if_neg none]
  rcases codes with zero | ⟨overflow, _⟩
  · have inRange : ¬ ¬ (result.errno = 0 ∧ lo ≤ result.value ∧ result.value ≤ hi) :=
      not_not.mpr ⟨zero, low, high⟩
    rw [if_pos zero, found, Option.bind_some, if_neg inRange]
    simp only [ne_eq, last]
    rfl
  · rw [overflow, if_neg (by decide), if_pos fun both => by simp [ERANGE] at both]
    rfl

theorem status_congr {found found' inRange inRange' whole whole' : Prop} [Decidable found]
    [Decidable found'] [Decidable inRange] [Decidable inRange'] [Decidable whole] [Decidable whole']
    (f : found ↔ found') (r : inRange ↔ inRange') (w : whole ↔ whole')
    : status found inRange whole = status found' inRange' whole' := by
  simp only [status, f, r, w]

theorem Longest.length_eq_iff {loc : Locale} {base : Int} {text : Text} {n : Numeral}
    (longest : Longest loc base text n)
    : n.bytes.length = text.bytes.length ↔ n.bytes = text.bytes :=
  ⟨longest.start.eq_of_length, congrArg List.length⟩

section

variable {loc : Locale} {text : Text} {base errno : Int} {n : Numeral} (valid : ValidBase base)

include valid

theorem strtoi_numeral {lo hi : Int} (longest : Longest loc base text n) (low : long.min ≤ lo)
    (le : lo ≤ hi) (high : hi ≤ long.max)
    : strtoi loc text base lo hi errno
      = some ⟨max lo (min hi (n.value base)), n.bytes.length,
          status True (lo ≤ n.value base ∧ n.value base ≤ hi) (n.bytes = text.bytes), errno⟩ := by
  have call : strtoimax loc text base 0
      = some (long.signedResult (n.value base) n.bytes.length 0) := by
    rw [strtoimax, toSigned_eq long loc text 0 valid longest.eq_subject,
      if_neg longest.valid.present]
  rw [strtoi, ranged_eq valid call ?_ longest.start.length_le le]
  · congr 2
    · simp only [IntType.signedResult]
      omega
    · refine status_congr (iff_true_intro longest.length_ne_zero) ?_ longest.length_eq_iff
      simp only [IntType.signedResult, ERANGE]
      split_ifs <;> omega
  · simp only [IntType.signedResult]
    split
    · exact .inr ⟨rfl, longest.length_ne_zero⟩
    · exact .inl rfl

theorem strtou_numeral {lo hi : Nat} (longest : Longest loc base text n) (le : lo ≤ hi)
    : strtou loc text base lo hi errno
      = some ⟨max lo (min hi (long.unsignedResult (n.value base) n.bytes.length 0).value),
          n.bytes.length,
          status True ((n.value base).natAbs ≤ long.umax
              ∧ lo ≤ (n.value base % 2 ^ long.width).toNat
              ∧ (n.value base % 2 ^ long.width).toNat ≤ hi)
            (n.bytes = text.bytes), errno⟩ := by
  have call : strtoumax loc text base 0
      = some (long.unsignedResult (n.value base) n.bytes.length 0) := by
    rw [strtoumax, toUnsigned_eq long loc text 0 valid longest.eq_subject,
      if_neg longest.valid.present]
  rw [strtou, ranged_eq valid call ?_ longest.start.length_le le]
  · congr 2
    refine status_congr (iff_true_intro longest.length_ne_zero) ?_ longest.length_eq_iff
    simp only [IntType.unsignedResult, ERANGE]
    split_ifs <;> omega
  · simp only [IntType.unsignedResult]
    split
    · exact .inr ⟨rfl, longest.length_ne_zero⟩
    · exact .inl rfl

theorem strtoi_none {lo hi : Int} (le : lo ≤ hi)
    (none : ∀ n : Numeral, n.Valid loc base → ¬ n.bytes <+: text.bytes)
    : strtoi loc text base lo hi errno = some ⟨max lo (min hi 0), 0, ECANCELED, errno⟩ := by
  have call : strtoimax loc text base 0 = some ⟨0, 0, 0⟩ := by
    rw [strtoimax, toSigned_eq long loc text 0 valid rfl, if_pos (subject_none none)]
  rw [strtoi, ranged_eq valid call (.inl rfl) (Nat.zero_le _) le]
  rfl

theorem strtou_none {lo hi : Nat} (le : lo ≤ hi)
    (none : ∀ n : Numeral, n.Valid loc base → ¬ n.bytes <+: text.bytes)
    : strtou loc text base lo hi errno = some ⟨max lo (min hi 0), 0, ECANCELED, errno⟩ := by
  have call : strtoumax loc text base 0 = some ⟨0, 0, 0⟩ := by
    rw [strtoumax, toUnsigned_eq long loc text 0 valid rfl, if_pos (subject_none none)]
  rw [strtou, ranged_eq valid call (.inl rfl) (Nat.zero_le _) le]
  rfl

end

/-- `strtoi` and `strtou` give the converted value, or the end of the range that is nearest to it, and
leave `errno` alone. The status is zero only for a number in the range that is the whole string. A
value that the type does not hold is out of every range.
-/
theorem strtoi_strtou_range (loc : Locale) (text : Text) (base errno : Int) (valid : ValidBase base)
    : (∀ lo hi, long.min ≤ lo → lo ≤ hi → hi ≤ long.max
        → (∀ n, Longest loc base text n → strtoi loc text base lo hi errno
            = some ⟨max lo (min hi (n.value base)), n.bytes.length,
                status True (lo ≤ n.value base ∧ n.value base ≤ hi) (n.bytes = text.bytes), errno⟩)
          ∧ ((∀ n : Numeral, n.Valid loc base → ¬ n.bytes <+: text.bytes)
            → strtoi loc text base lo hi errno
              = some ⟨max lo (min hi 0), 0, status False False False, errno⟩))
      ∧ (∀ lo hi : Nat, lo ≤ hi
        → (∀ n, Longest loc base text n → strtou loc text base lo hi errno
            = some ⟨max lo (min hi (long.unsignedResult (n.value base) n.bytes.length 0).value),
                n.bytes.length,
                status True ((n.value base).natAbs ≤ long.umax
                    ∧ lo ≤ (n.value base % 2 ^ long.width).toNat
                    ∧ (n.value base % 2 ^ long.width).toNat ≤ hi)
                  (n.bytes = text.bytes), errno⟩)
          ∧ ((∀ n : Numeral, n.Valid loc base → ¬ n.bytes <+: text.bytes)
            → strtou loc text base lo hi errno
              = some ⟨max lo (min hi 0), 0, status False False False, errno⟩)) :=
  ⟨fun _ _ low le high => ⟨fun _ longest => strtoi_numeral valid longest low le high,
      fun none => strtoi_none valid le none⟩,
    fun _ _ le => ⟨fun _ longest => strtou_numeral valid longest le,
      fun none => strtou_none valid le none⟩⟩

/-- A number with a letter behind it that is out of the range. -/
theorem strtoi_strtou_range_hex
    : strtoi cLocale hexText 0 (-30) 30 7 = some ⟨-30, 6, ERANGE, 7⟩
      ∧ strtoi cLocale hexText 0 (-40) 30 7 = some ⟨-31, 6, ENOTSUP, 7⟩ := by
  have range := (strtoi_strtou_range cLocale hexText 0 7 (.inl rfl)).1
  have longest : Longest cLocale 0 hexText _ := subject_longest (by decide)
  have first := (range (-30) 30 (by decide) (by decide) (by decide)).1 _ longest
  have second := (range (-40) 30 (by decide) (by decide) (by decide)).1 _ longest
  refine ⟨first.trans ?_, second.trans ?_⟩ <;> decide +kernel

end BSDLibC.Strto
