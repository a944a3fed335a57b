import BSDLibC.Strsuftoll.Product
import Mathlib.Algebra.BigOperators.Group.List.Basic

/-! When the result of `strsuftollx` is the number that the string denotes. -/

namespace BSDLibC.Strsuftoll
open BSDLibC.Strto BSDLibC.Bytes

-----------------------------------------------------------------------------------------
-- What a string denotes
-----------------------------------------------------------------------------------------

/-- The suffix of a number, if any, and what it multiplies by. -/
def IsSuffix (suffix : List UInt8) (m : Int) : Prop :=
  (suffix = [] ∧ m = 1) ∨ ∃ c, suffix = [c] ∧ multiplier c = some m

/-- The factors of a string, each a decimal number with the multiplier of its suffix. -/
inductive Denotes (loc : Strto.Locale) : Text → List (Int × Int) → Prop where
  | last {text : Text} {n : Numeral} {suffix : List UInt8} {m : Int}
      (longest : Longest loc 10 text n) (known : IsSuffix suffix m)
      (whole : text.bytes = n.bytes ++ suffix)
      : Denotes loc text [(n.value 10, m)]
  | more {text rest : Text} {n : Numeral} {suffix : List UInt8} {m : Int} {x : UInt8}
      {factors : List (Int × Int)} (longest : Longest loc 10 text n) (known : IsSuffix suffix m)
      (separator : x = 0x2a ∨ x = 0x78) (whole : text.bytes = n.bytes ++ (suffix ++ x :: rest.bytes))
      (tail : Denotes loc rest factors)
      : Denotes loc text ((n.value 10, m) :: factors)

/-- The product of factors. -/
def total (factors : List (Int × Int)) : Int := (factors.map fun factor => factor.1 * factor.2).prod

/-- The value is one of a `long long`. -/
def Fits (v : Int) : Prop := long.min ≤ v ∧ v ≤ long.max

/-- No check of the products notices anything: each number fits, no number is above its product with
the multiplier, as reduced, no such product is above the one with all later factors, and these
products are in the range.
-/
def Passes (min max : Int) : List (Int × Int) → Prop
  | [] => True
  | factor :: rest =>
      Fits factor.1 ∧ factor.1 ≤ wrap (factor.1 * factor.2)
      ∧ wrap (factor.1 * factor.2) ≤ wrap (total (factor :: rest))
      ∧ min ≤ wrap (total (factor :: rest)) ∧ wrap (total (factor :: rest)) ≤ max
      ∧ Passes min max rest

-----------------------------------------------------------------------------------------
-- Reduced products
-----------------------------------------------------------------------------------------

theorem wrap_mul (a b : Int) : wrap (a * wrap b) = wrap (a * b) := Int.mul_bmod_bmod

theorem wrap_mul_left (a b : Int) : wrap (wrap a * b) = wrap (a * b) := Int.bmod_mul_bmod

theorem wrap_eq {v : Int} (fits : Fits v) : wrap v = v := by
  obtain ⟨low, high⟩ := fits
  have lowest : long.min = -2 ^ 63 := rfl
  have highest : long.max = 2 ^ 63 - 1 := rfl
  exact Int.bmod_eq_of_le_mul_two (by omega) (by omega)

theorem total_cons (factor : Int × Int) (rest : List (Int × Int))
    : total (factor :: rest) = factor.1 * factor.2 * total rest :=
  List.prod_cons

-----------------------------------------------------------------------------------------
-- The parts of a string
-----------------------------------------------------------------------------------------

@[simp] theorem drop_bytes (text : Text) (n : Nat) : (drop text n).bytes = text.bytes.drop n := rfl

/-- The suffix at a position, and the rest behind it. -/
def takeSuffix (expr : Text) : Int × Text :=
  match expr.bytes.head?.bind multiplier with
  | none => (1, expr)
  | some m => (m, drop expr 1)

/-- A number that fits is taken with its suffix. -/
theorem scaled_eq {num : Int} (fits : Fits num) (expr : Text)
    : scaled num expr
      = if num > wrap (num * (takeSuffix expr).1) then none
        else some (wrap (num * (takeSuffix expr).1), (takeSuffix expr).2) := by
  rw [scaled, takeSuffix]
  cases expr.bytes.head?.bind multiplier with
  | none => simp [wrap_eq fits]
  | some m => rfl

theorem multiplier_separator {x : UInt8} (separator : x = 0x2a ∨ x = 0x78) : multiplier x = none := by
  rcases separator with rfl | rfl <;> decide

/-- A suffix is found before the end or a separator. -/
theorem takeSuffix_eq {expr : Text} {suffix rest : List UInt8} {m : Int} (known : IsSuffix suffix m)
    (whole : expr.bytes = suffix ++ rest)
    (next : ∀ x, rest.head? = some x → x = 0x2a ∨ x = 0x78)
    : (takeSuffix expr).1 = m ∧ (takeSuffix expr).2.bytes = rest := by
  rw [takeSuffix, whole]
  rcases known with ⟨rfl, rfl⟩ | ⟨c, rfl, factor⟩
  · have none : rest.head?.bind multiplier = none := by
      cases rest with
      | nil => rfl
      | cons x rest => exact multiplier_separator (next x rfl)
    rw [List.nil_append, none]
    exact ⟨rfl, whole⟩
  · have some : ([c] ++ rest).head?.bind multiplier = some m := factor
    rw [some]
    exact ⟨rfl, by simp [drop, whole]⟩

/-- What is found is a suffix. -/
theorem takeSuffix_known (expr : Text)
    : ∃ suffix, IsSuffix suffix (takeSuffix expr).1
      ∧ expr.bytes = suffix ++ (takeSuffix expr).2.bytes := by
  rw [takeSuffix]
  split
  next => exact ⟨[], .inl ⟨rfl, rfl⟩, rfl⟩
  next m found =>
    obtain ⟨c, head, factor⟩ := Option.bind_eq_some_iff.mp found
    refine ⟨[c], .inr ⟨c, rfl, factor⟩, ?_⟩
    cases h : expr.bytes with
    | nil => simp [h] at head
    | cons d rest =>
        rw [h] at head
        cases head
        simp [drop, h]

/-- The string behind its first number. -/
def behind (loc : Strto.Locale) (text : Text) : Text :=
  ⟨leftover loc 10 text.bytes, fun member => text.nul (by
    rw [← subject_append loc 10 text.bytes]
    exact List.mem_append_right _ member)⟩

/-- Leading space changes neither the number nor what is behind it. -/
theorem skipSpaces_spec (loc : Strto.Locale) (text : Text)
    : subject loc 10 (skipSpaces loc text).bytes = { subject loc 10 text.bytes with spaces := [] }
      ∧ drop (skipSpaces loc text) (subject loc 10 (skipSpaces loc text).bytes).bytes.length
        = behind loc text := by
  obtain ⟨none, again⟩ := takeWhile_append_eq (p := loc.isspace) []
    (skipSpaces loc text).bytes (by simp) (by
      intro c head
      have := List.head?_dropWhile_not loc.isspace text.bytes
      rw [skipSpaces] at head
      simpa [head] using this)
  rw [List.nil_append] at none again
  have same : subject loc 10 (skipSpaces loc text).bytes
      = { subject loc 10 text.bytes with spaces := [] } := by
    rw [subject, again, none]
    rfl
  refine ⟨same, Text.ext ?_⟩
  have whole := subject_append loc 10 (skipSpaces loc text).bytes
  have rest : leftover loc 10 (skipSpaces loc text).bytes = leftover loc 10 text.bytes := by
    rw [leftover, again]
    rfl
  rw [rest] at whole
  simp only [drop, behind]
  generalize (subject loc 10 (skipSpaces loc text).bytes).bytes = start at whole
  rw [← whole, List.drop_left]

/-- The first number, its suffix, and what comes behind them in a string that denotes factors. -/
theorem Denotes.parts {loc : Strto.Locale} {text : Text} {factors : List (Int × Int)}
    (denotes : Denotes loc text factors)
    : (subject loc 10 text.bytes).digits ≠ []
      ∧ (((takeSuffix (behind loc text)).2.bytes = []
          ∧ factors = [((subject loc 10 text.bytes).value 10, (takeSuffix (behind loc text)).1)])
        ∨ ∃ x fs, (takeSuffix (behind loc text)).2.bytes.head? = some x ∧ (x = 0x2a ∨ x = 0x78)
          ∧ Denotes loc (drop (takeSuffix (behind loc text)).2 1) fs
          ∧ factors
            = ((subject loc 10 text.bytes).value 10, (takeSuffix (behind loc text)).1) :: fs) := by
  have rest {n : Numeral} {tail : List UInt8} (longest : Longest loc 10 text n)
      (whole : text.bytes = n.bytes ++ tail)
      : (behind loc text).bytes = tail := by
    have split := subject_append loc 10 text.bytes
    rw [← longest.eq_subject] at split
    exact List.append_cancel_left (split.trans whole)
  cases denotes with
  | last longest known whole =>
      obtain ⟨factor, rest⟩ := takeSuffix_eq known ((rest longest whole).trans (List.append_nil _).symm) (by simp)
      rw [← longest.eq_subject, factor, rest]
      exact ⟨longest.valid.present, .inl ⟨rfl, rfl⟩⟩
  | @more _ next _ _ _ x fs longest known separator whole tail =>
      obtain ⟨factor, rest⟩ := takeSuffix_eq known (rest longest whole) (by
        intro y head
        cases head
        exact separator)
      have same : drop (takeSuffix (behind loc text)).2 1 = next := by
        refine Text.ext ?_
        rw [drop_bytes, rest]
        rfl
      rw [← longest.eq_subject, factor, rest, same]
      exact ⟨longest.valid.present, .inr ⟨x, fs, rfl, separator, tail, rfl⟩⟩

/-- A string has at most one list of factors. -/
theorem Denotes.unique {loc : Strto.Locale} {text : Text} {factors factors' : List (Int × Int)}
    (denotes : Denotes loc text factors) (denotes' : Denotes loc text factors')
    : factors = factors' := by
  induction factors generalizing text factors' with
  | nil => cases denotes
  | cons factor rest ih =>
      obtain ⟨_, ⟨ends, same⟩ | ⟨x, fs, head, _, tail, same⟩⟩ := denotes.parts
      · obtain ⟨_, ⟨_, same'⟩ | ⟨_, _, head', _⟩⟩ := denotes'.parts
        · rw [same, same']
        · simp [ends] at head'
      · obtain ⟨_, ⟨ends', _⟩ | ⟨_, fs', _, _, tail', same'⟩⟩ := denotes'.parts
        · simp [ends'] at head
        · obtain ⟨rfl, rfl⟩ := List.cons.inj same
          rw [same', ih tail tail']

-----------------------------------------------------------------------------------------
-- The way through the string
-----------------------------------------------------------------------------------------

section

variable {loc : Strto.Locale} {strerror : Int → List UInt8} {desc : List UInt8} {min max : Int}
  {ebuflen : Nat} (room : 1 < ebuflen)

include room

/-- A message that is not empty leaves a text in the buffer. -/
theorem snprintf_ne_nil (ebuf : List UInt8) {text : List UInt8} (some : text ≠ [])
    : snprintf ebuf ebuflen text ≠ [] := by
  obtain ⟨c, rest, rfl⟩ := List.exists_cons_of_ne_nil some
  rw [snprintf, if_neg (by omega), (by omega : ebuflen - 1 = ebuflen - 2 + 1), List.take_succ_cons]
  exact List.cons_ne_nil _ _

theorem erange_ne_nil (ebuf : List UInt8) : (erange strerror desc ebuflen ebuf).ebuf ≠ [] :=
  snprintf_ne_nil room ebuf (by simp [message])

theorem badnum_ne_nil (val : Text) (ebuf : List UInt8) (errno : Int)
    : (badnum desc ebuflen val ebuf errno).ebuf ≠ [] :=
  snprintf_ne_nil room ebuf (by simp [message])

/-- The buffer is empty for a number in the range. -/
theorem inRange_spec (desc : List UInt8) (min max : Int) (num : Int) (ebuf : List UInt8) (errno : Int)
    : ((inRange desc min max ebuflen num ebuf errno).ebuf = [] ↔ min ≤ num ∧ num ≤ max)
      ∧ (min ≤ num ∧ num ≤ max → (inRange desc min max ebuflen num ebuf errno).value = num) := by
  rw [inRange]
  by_cases below : num < min
  · rw [if_pos below]
    have := snprintf_ne_nil room ebuf (show desc ++ message " " ++ decimal num
      ++ message " is less than " ++ decimal min ++ message "." ≠ [] by simp [message])
    exact ⟨iff_of_false this (by omega), by omega⟩
  · rw [if_neg below]
    by_cases above : num > max
    · rw [if_pos above]
      have := snprintf_ne_nil room ebuf (show desc ++ message " " ++ decimal num
        ++ message " is greater than " ++ decimal max ++ message "." ≠ [] by simp [message])
      exact ⟨iff_of_false this (by omega), by omega⟩
    · rw [if_neg above]
      exact ⟨iff_of_true rfl (by omega), fun _ => rfl⟩

omit room

/-- The parts of a string put together. -/
theorem Denotes.intro_last {text : Text} (present : (subject loc 10 text.bytes).digits ≠ [])
    (ends : (takeSuffix (behind loc text)).2.bytes = [])
    : Denotes loc text
        [((subject loc 10 text.bytes).value 10, (takeSuffix (behind loc text)).1)] := by
  obtain ⟨suffix, known, whole⟩ := takeSuffix_known (behind loc text)
  refine .last (subject_longest present) known ?_
  rw [ends, List.append_nil] at whole
  rw [← whole]
  exact (subject_append loc 10 text.bytes).symm

theorem Denotes.intro_more {text : Text} {x : UInt8} {factors : List (Int × Int)}
    (present : (subject loc 10 text.bytes).digits ≠ [])
    (head : (takeSuffix (behind loc text)).2.bytes.head? = some x)
    (separator : x = 0x2a ∨ x = 0x78)
    (tail : Denotes loc (drop (takeSuffix (behind loc text)).2 1) factors)
    : Denotes loc text
        (((subject loc 10 text.bytes).value 10, (takeSuffix (behind loc text)).1) :: factors) := by
  obtain ⟨suffix, known, whole⟩ := takeSuffix_known (behind loc text)
  refine .more (subject_longest present) known separator ?_ tail
  have rest : x :: (drop (takeSuffix (behind loc text)).2 1).bytes
      = (takeSuffix (behind loc text)).2.bytes := by
    rw [drop_bytes]
    cases h : (takeSuffix (behind loc text)).2.bytes with
    | nil => simp [h] at head
    | cons y rest =>
        rw [h] at head
        cases head
        rfl
  rw [rest, ← whole]
  exact (subject_append loc 10 text.bytes).symm

/-- What the call says about a string: without an error it gives the reduced product. -/
structure Settled (loc : Strto.Locale) (min max : Int) (left : Nat) (text : Text) (r : Outcome) : Prop where
  sound : r.ebuf = [] → ∃ factors, Denotes loc text factors ∧ factors.length ≤ left
    ∧ Passes min max factors ∧ r.value = wrap (total factors)
  complete (factors : List (Int × Int)) : Denotes loc text factors → factors.length ≤ left
    → Passes min max factors → r.ebuf = []

theorem settled_error {left : Nat} {text : Text} {r : Outcome} (error : r.ebuf ≠ [])
    (bad : ∀ factors, Denotes loc text factors → factors.length ≤ left → ¬ Passes min max factors)
    : Settled loc min max left text r :=
  ⟨fun none => absurd none error, fun factors denotes few passes =>
    absurd passes (bad factors denotes few)⟩

/-- Any factors start with the first number and its suffix. -/
theorem Denotes.head {text : Text} {factors : List (Int × Int)} (denotes : Denotes loc text factors)
    : ∃ fs, factors = ((subject loc 10 text.bytes).value 10, (takeSuffix (behind loc text)).1) :: fs := by
  obtain ⟨_, ⟨_, same⟩ | ⟨_, fs, _, _, _, same⟩⟩ := denotes.parts
  · exact ⟨[], same⟩
  · exact ⟨fs, same⟩

include room

/-- A number with its suffix that is the last factor. -/
theorem settled_last {left : Nat} {text : Text}
    (present : (subject loc 10 text.bytes).digits ≠ [])
    (fits : Fits ((subject loc 10 text.bytes).value 10))
    (step : (subject loc 10 text.bytes).value 10
      ≤ wrap ((subject loc 10 text.bytes).value 10 * (takeSuffix (behind loc text)).1))
    (ends : (takeSuffix (behind loc text)).2.bytes = []) (ebuf : List UInt8) (errno : Int)
    : Settled loc min max (left + 1) text
        (inRange desc min max ebuflen
          (wrap ((subject loc 10 text.bytes).value 10 * (takeSuffix (behind loc text)).1)) ebuf errno) := by
  have all := Denotes.intro_last present ends
  have single (factor : Int × Int) : total [factor] = factor.1 * factor.2 := List.prod_singleton
  have spec := inRange_spec room desc min max
    (wrap ((subject loc 10 text.bytes).value 10 * (takeSuffix (behind loc text)).1)) ebuf errno
  constructor
  · intro none
    have range := spec.1.mp none
    refine ⟨_, all, by simp, ⟨fits, step, ?_, ?_, ?_, trivial⟩, ?_⟩
    · rw [single]
    · rw [single]
      exact range.1
    · rw [single]
      exact range.2
    · rw [single]
      exact spec.2 range
  · intro factors denotes _ passes
    rw [← all.unique denotes] at passes
    have low := passes.2.2.2.1
    have high := passes.2.2.2.2.1
    rw [single] at low high
    exact spec.1.mpr ⟨low, high⟩

theorem strsuftollxAt_spec (loc : Strto.Locale) (strerror : Int → List UInt8) (desc : List UInt8)
    (min max : Int) (left : Nat) (text : Text) (ebuf : List UInt8) (errno : Int)
    : ∃ r, strsuftollxAt loc strerror desc min max ebuflen left text ebuf errno = some r
      ∧ Settled loc min max left text r := by
  induction left generalizing text ebuf errno with
  | zero =>
      refine ⟨_, rfl, settled_error (snprintf_ne_nil room ebuf (by simp [message])) ?_⟩
      intro factors denotes few
      obtain ⟨fs, rfl⟩ := denotes.head
      simp at few
  | succ left ih =>
      obtain ⟨same, rest⟩ := skipSpaces_spec loc text
      have call := toSigned_eq long loc (skipSpaces loc text) 0 (.inr (by decide) : ValidBase 10) rfl
      have digits : (subject loc 10 (skipSpaces loc text).bytes).digits
          = (subject loc 10 text.bytes).digits := by rw [same]
      have value : (subject loc 10 (skipSpaces loc text).bytes).value 10
          = (subject loc 10 text.bytes).value 10 := by rw [same]; rfl
      rw [digits, value] at call
      set v := (subject loc 10 text.bytes).value 10 with vEq
      set m := (takeSuffix (behind loc text)).1 with mEq
      rw [strsuftollxAt]
      simp only [strtoll, call, Option.bind_eq_bind, Option.bind_some]
      by_cases present : (subject loc 10 text.bytes).digits = []
      · rw [if_pos present]
        refine ⟨_, rfl, settled_error (badnum_ne_nil room _ _ _) fun factors denotes => ?_⟩
        exact absurd present denotes.parts.1
      rw [if_neg present]
      by_cases fits : Fits v
      · have result : long.signedResult v (subject loc 10 (skipSpaces loc text).bytes).bytes.length 0
            = ⟨v, (subject loc 10 (skipSpaces loc text).bytes).bytes.length, 0⟩ := by
          obtain ⟨low, high⟩ := fits
          rw [IntType.signedResult, min_eq_right high, max_eq_right low, if_neg (by omega)]
        have length : (subject loc 10 (skipSpaces loc text).bytes).bytes.length ≠ 0 :=
          (subject_longest (digits ▸ present)).length_ne_zero
        simp only [result, if_neg (by decide : ¬ (0 : Int) = ERANGE), if_neg length, rest,
          scaled_eq fits]
        by_cases less : v > wrap (v * m)
        · rw [if_pos less]
          refine ⟨_, rfl, settled_error (erange_ne_nil room _) fun factors denotes _ passes => ?_⟩
          obtain ⟨fs, rfl⟩ := denotes.head
          exact absurd passes.2.1 (by simpa using less)
        rw [if_neg less]
        simp only
        split
        next ends => exact ⟨_, rfl, settled_last room present fits (not_lt.mp less) ends _ _⟩
        next c tail shape =>
          have head : (takeSuffix (behind loc text)).2.bytes.head? = some c := by rw [shape]; rfl
          split
          next separator =>
            obtain ⟨r, call', settled⟩ := ih (drop (takeSuffix (behind loc text)).2 1) ebuf 0
            rw [call', Option.bind_some]
            split
            next error =>
              refine ⟨_, rfl, settled_error error fun factors denotes few passes => ?_⟩
              obtain ⟨_, ⟨ends, _⟩ | ⟨_, fs, _, _, tail, same⟩⟩ := denotes.parts
              · simp [shape] at ends
              · rw [same] at few passes
                exact error (settled.complete fs tail (Nat.le_of_succ_le_succ few) passes.2.2.2.2.2)
            next fine =>
              have fine := not_not.mp fine
              obtain ⟨factors, denotes, few, passes, result'⟩ := settled.sound fine
              rw [result', wrap_mul_left, wrap_mul]
              have whole : v * m * total factors = total ((v, m) :: factors) := rfl
              have all := Denotes.intro_more present head separator denotes
              rw [whole]
              split
              next more =>
                refine ⟨_, rfl, settled_error (erange_ne_nil room _)
                  fun factors' denotes' _ passes' => ?_⟩
                rw [← all.unique denotes'] at passes'
                exact absurd more (not_lt.mpr passes'.2.2.1)
              next notMore =>
                have spec := inRange_spec room desc min max
                  (wrap (total ((v, m) :: factors))) r.ebuf r.errno
                refine ⟨_, rfl, fun none => ?_, fun factors' denotes' _ passes' => ?_⟩
                · have range := spec.1.mp none
                  exact ⟨_, all, by simpa using few, ⟨fits, not_lt.mp less, not_lt.mp notMore,
                    range.1, range.2, passes⟩, spec.2 range⟩
                · rw [← all.unique denotes'] at passes'
                  exact spec.1.mpr ⟨passes'.2.2.2.1, passes'.2.2.2.2.1⟩
          next other =>
            refine ⟨_, rfl, settled_error (badnum_ne_nil room _ _ _) fun factors denotes => ?_⟩
            obtain ⟨_, ⟨ends, _⟩ | ⟨x, _, first, separator, _⟩⟩ := denotes.parts
            · simp [shape] at ends
            · rw [head] at first
              cases first
              exact absurd separator other
      · have errno : (long.signedResult v
            (subject loc 10 (skipSpaces loc text).bytes).bytes.length 0).errno = ERANGE := by
          rw [Fits] at fits
          rw [IntType.signedResult, if_pos (by omega)]
        simp only [errno, if_true]
        refine ⟨_, rfl, settled_error (erange_ne_nil room _) fun factors denotes _ passes => ?_⟩
        obtain ⟨fs, rfl⟩ := denotes.head
        exact fits passes.1

omit room

/-- A call of `strsuftollx` gives the exact number in the range or an error, and always an error for a
number that does not fit.
-/
structure Exact (loc : Strto.Locale) (min max : Int) (text : Text) (r : Outcome) : Prop where
  value : r.ebuf = [] → ∃ factors, Denotes loc text factors ∧ r.value = total factors
    ∧ min ≤ r.value ∧ r.value ≤ max
  error (factors : List (Int × Int)) : Denotes loc text factors → ¬ Fits (total factors) → r.ebuf ≠ []

include room

end

/-- `18049582881570816k` -/
def largeText : Text :=
  ⟨[0x31, 0x38, 0x30, 0x34, 0x39, 0x35, 0x38, 0x32, 0x38, 0x38, 0x31, 0x35, 0x37, 0x30, 0x38, 0x31,
    0x36, 0x6b], by decide⟩

theorem denotes_largeText : Denotes cLocale largeText [(18049582881570816, 1024)] := by
  have longest : Longest cLocale 10 largeText (subject cLocale 10 largeText.bytes) :=
    subject_longest (by decide)
  exact .last longest (.inr ⟨0x6b, rfl, rfl⟩) (by decide)

end BSDLibC.Strsuftoll
