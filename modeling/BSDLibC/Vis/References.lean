import BSDLibC.Vis.RoundTrip
import Mathlib.Data.List.Induction

/-! Character references of HTML, by number and by name.
-/

namespace BSDLibC.Vis
open BSDLibC.Ctype

-----------------------------------------------------------------------------------------
-- Numbers
-----------------------------------------------------------------------------------------

/-- A numeral, its most significant digit first. -/
abbrev Numeral := List (Fin 10)

/-- The number that a string of digits means to a given base. -/
def valueTo (base : Nat) (digits : Numeral) : Nat :=
  digits.foldl (fun n (d : Fin 10) => base * n + d) 0

theorem valueTo_snoc (base : Nat) (digits : Numeral) (d : Fin 10)
    : valueTo base (digits ++ [d]) = base * valueTo base digits + d := by
  simp [valueTo]

def digitByte (d : Fin 10) : UInt8 := UInt8.ofNat (0x30 + d)

/-- The text of a reference by number. -/
def reference (digits : Numeral) : List UInt8 := 0x26 :: 0x23 :: digits.map digitByte ++ [0x3b]

theorem feed_digit (flag : Flags) (t : UInt8) (d : Fin 10)
    : feed flag ⟨t, ss .number⟩ (digitByte d)
      = some ([], ⟨t + (t * 10 + digitByte d - 0x30), ss .number⟩) := by
  have facts : (digitByte d).toNat ≠ chr ';' ∧ isdigit (digitByte d).toNat = true := by
    revert d
    decide
  simp [feed, unvis, ss, facts]

/-- The loop over the digits computes with base eleven, in a byte. -/
theorem decodeRun_digits (flag : Flags) (digits : Numeral)
    : decodeRun flag ⟨0, ss .number⟩ (digits.map digitByte)
      = some ([], ⟨UInt8.ofNat (valueTo 11 digits), ss .number⟩) := by
  induction digits using List.reverseRecOn with
  | nil => rfl
  | append_singleton digits d ih =>
      have next : UInt8.ofNat (valueTo 11 digits)
          + (UInt8.ofNat (valueTo 11 digits) * 10 + digitByte d - 0x30)
          = UInt8.ofNat (valueTo 11 (digits ++ [d])) := by
        rw [valueTo_snoc]
        generalize valueTo 11 digits = n
        apply UInt8.toNat_inj.mp
        simp only [digitByte, UInt8.toNat_add, UInt8.toNat_sub, UInt8.toNat_mul, UInt8.toNat_ofNat']
        have := d.isLt
        simp
        omega
      rw [List.map_append, decodeRun_append ih, List.map_singleton, after_nil,
        decodeRun_cons (feed_digit flag _ d), after_nil, decodeRun, next]

/-- A reference leaves the decoder where it was. -/
theorem decodeRun_reference {flag : Flags} (html : flag.http1866 = true) (t : UInt8)
    (digits : Numeral)
    : decodeRun flag ⟨t, ss .ground⟩ (reference digits)
      = some ([UInt8.ofNat (valueTo 11 digits)],
          ⟨UInt8.ofNat (valueTo 11 digits), ss .number⟩) := by
  have amp : feed flag ⟨t, ss .ground⟩ 0x26 = some ([], ⟨0, ss .amp⟩) := by
    simp [feed, unvis, ss, html, chr]
  have hash : feed flag ⟨0, ss .amp⟩ 0x23 = some ([], ⟨0, ss .number⟩) := by
    simp [feed, unvis, ss, chr]
  have ends (n : UInt8) : feed flag ⟨n, ss .number⟩ 0x3b = some ([n], ⟨n, ss .number⟩) := by
    simp [feed, unvis, ss, chr]
  rw [reference, List.cons_append, decodeRun_cons amp, List.cons_append, decodeRun_cons hash,
    decodeRun_append (decodeRun_digits flag digits), decodeRun_cons (ends _)]
  rfl

/-- What follows a reference is not decoded afresh: a second reference is an error. -/
theorem decodeRun_second {flag : Flags} (n : UInt8) (rest : List UInt8)
    : decodeRun flag ⟨n, ss .number⟩ (0x26 :: rest) = none := by
  have bad : feed flag ⟨n, ss .number⟩ 0x26 = none := by
    simp [feed, unvis, ss, chr, isdigit]
  rw [decodeRun, bad]

theorem reference_text (digits : Numeral) : 0 ∉ reference digits := by
  have nonzero : ∀ d, digitByte d ≠ 0 := by decide
  simp [reference, nonzero]

theorem cstring_references (numerals : List Numeral)
    : cstring (numerals.flatMap reference) = numerals.flatMap reference := by
  apply cstring_of_printable
  intro mem
  obtain ⟨digits, -, inside⟩ := List.mem_flatMap.mp mem
  exact reference_text digits inside

theorem decodeAll_reference {flag : Flags} (html : flag.http1866 = true) (digits : Numeral)
    : decodeAll flag (reference digits) = some [UInt8.ofNat (valueTo 11 digits)] := by
  rw [decodeAll, Cursor.init, decodeRun_reference html]
  rfl

theorem decodeAll_two {flag : Flags} (html : flag.http1866 = true) (first second : Numeral)
    (rest : List Numeral)
    : decodeAll flag ((first :: second :: rest).flatMap reference) = none := by
  have failed : decodeRun flag ⟨0, ss .ground⟩ ((first :: second :: rest).flatMap reference)
      = none := by
    rw [List.flatMap_cons, decodeRun_append (decodeRun_reference html 0 first), List.flatMap_cons,
      reference, List.cons_append, List.cons_append, decodeRun_second]
    rfl
  rw [decodeAll, Cursor.init, failed]
  rfl

/-- The number that the digits of a number below a thousand mean to base eleven. -/
theorem valueTo_eleven (digits : Numeral) (small : valueTo 10 digits < 1000)
    : valueTo 11 digits = 121 * (valueTo 10 digits / 100) + 11 * (valueTo 10 digits / 10 % 10)
      + valueTo 10 digits % 10 := by
  induction digits using List.reverseRecOn with
  | nil => rfl
  | append_singleton digits d ih =>
      have := d.isLt
      rw [valueTo_snoc] at small ⊢
      rw [valueTo_snoc, ih (by omega)]
      generalize valueTo 10 digits = n at small ⊢
      omega

/-- References by number are decoded to their values exactly if there is at most one of them, and
it has one significant digit.
-/
theorem strnunvisx_references_iff {flag : Flags} (html : flag.http1866 = true)
    (numerals : List Numeral) (bytes : ∀ digits ∈ numerals, valueTo 10 digits ≤ 255) {dlen : Nat}
    (room : numerals.length < dlen)
    : (strnunvisx dlen (numerals.flatMap reference) flag).map Prod.fst
        = some (numerals.map fun digits => UInt8.ofNat (valueTo 10 digits))
      ↔ numerals.length ≤ 1 ∧ ∀ digits ∈ numerals, valueTo 10 digits ≤ 9 := by
  rw [strnunvisx_eq, cstring_references]
  match numerals with
  | [] =>
      have : 0 < dlen := room
      simp [decodeAll, decodeRun, Cursor.init, Cursor.finish, unvisEnd, ss, this]
  | [digits] =>
      have one : 1 < dlen := room
      have small := bytes digits (by simp)
      have same : UInt8.ofNat (valueTo 11 digits) = UInt8.ofNat (valueTo 10 digits)
          ↔ valueTo 10 digits ≤ 9 := by
        rw [← UInt8.toNat_inj, UInt8.toNat_ofNat', UInt8.toNat_ofNat',
          valueTo_eleven digits (by omega)]
        generalize valueTo 10 digits = n at small ⊢
        have parts : n = 100 * (n / 100) + 10 * (n / 10 % 10) + n % 10 := by omega
        have tens : n / 10 % 10 < 10 := by omega
        have ones : n % 10 < 10 := by omega
        generalize n / 100 = a, n / 10 % 10 = b, n % 10 = c at parts tens ones ⊢
        have hundreds : a = 0 ∨ a = 1 ∨ a = 2 := by omega
        rcases hundreds with rfl | rfl | rfl <;> omega
      rw [List.flatMap_singleton, decodeAll_reference html]
      simp [one, same]
  | first :: second :: rest =>
      rw [decodeAll_two html]
      simp

/-- A reference to a digit, with a zero before it, next to nothing else. -/
theorem strnunvisx_references_tab
    : (strnunvisx 2 (List.flatMap reference [[0, 9]]) { Flags.none with http1866 := true }).map
        Prod.fst = some ([[0, 9]].map fun digits => UInt8.ofNat (valueTo 10 digits))
      ↔ [[0, 9]].length ≤ 1 ∧ ∀ digits ∈ [([0, 9] : Numeral)], valueTo 10 digits ≤ 9 :=
  strnunvisx_references_iff rfl [[0, 9]] (by decide) (by decide)

/-- The reference to the letter A is decoded to another letter, and two references to nothing. -/
theorem strnunvisx_reference_a
    : valueTo 10 [6, 5] = 65
      ∧ strnunvisx 2 (reference [6, 5]) { Flags.none with http1866 := true } = some ([71], 1)
      ∧ strnunvisx 3 ([[1], [2]].flatMap reference) { Flags.none with http1866 := true } = none := by
  decide +kernel

end BSDLibC.Vis
