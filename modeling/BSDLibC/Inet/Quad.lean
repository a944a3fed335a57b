import BSDLibC.Inet.Read

/-! Which texts `inet_pton` reads as an IPv4 address, and which of them are dotted quads. -/

namespace BSDLibC.Inet

open Ctype

-----------------------------------------------------------------------------------------
-- Dotted quads
-----------------------------------------------------------------------------------------

/-- The mathematical value of decimal digits. -/
def value (digits : List UInt8) : Nat := digits.foldl (fun val c => val * 10 + (c.toNat - 0x30)) 0

structure Digits (part : List UInt8) : Prop where
  ne_nil : part ≠ []
  digit : ∀ c ∈ part, isdigit c.toNat = true

/-- A zero with a digit behind it. -/
def leadingZero (part : List UInt8) : Bool := part.head? == some 0x30 && part.length ≥ 2

/-- A leading zero that the routine takes for the sign of an octal number. -/
def octal (part : List UInt8) : Bool := leadingZero part && part[1]? != some 0x39

/-- Parts with a period between two of them, and a tail. -/
def dotted : List (List UInt8) → List UInt8 → List UInt8
  | [], tail => tail
  | [part], tail => part ++ tail
  | part :: parts, tail => part ++ period :: dotted parts tail

/-- A text of four decimal numbers up to 255. A number is written with leading zeros or without. -/
def DottedQuad (zeros : Bool) (s octets : List UInt8) : Prop :=
  ∃ parts, parts.length = 4 ∧ s = dotted parts []
    ∧ (∀ part ∈ parts, Digits part ∧ (zeros ∨ leadingZero part = false) ∧ value part ≤ 255)
    ∧ octets = parts.map fun part => UInt8.ofNat (value part)

/-- A text of four decimal numbers that are up to 255 as 32-bit numbers, and a tail that is empty or
begins with white space.
-/
structure Reads (s : List UInt8) (parts : List (List UInt8)) (tail : List UInt8) : Prop where
  four : parts.length = 4
  text : s = dotted parts tail
  ends : ∀ c ∈ tail.head?, isspace c.toNat = true
  number : ∀ part ∈ parts, Digits part ∧ octal part = false ∧ value part % 2 ^ 32 ≤ 255

-----------------------------------------------------------------------------------------
-- A number
-----------------------------------------------------------------------------------------

/-- No digit follows. -/
def Stops (rest : List UInt8) : Prop := ∀ c ∈ rest.head?, isdigit c.toNat = false

variable {part rest src : List UInt8}

theorem number_eq (digit : ∀ c ∈ part, isdigit c.toNat = true) (stops : Stops rest) (val : Nat)
    : number 10 (part ++ rest) (val % 2 ^ 32)
      = (part.foldl (fun val c => val * 10 + (c.toNat - 0x30)) val % 2 ^ 32, rest) := by
  induction part generalizing val with
  | nil =>
      cases rest with
      | nil => rfl
      | cons c rest =>
          have other := stops c rfl
          rw [List.nil_append, number, if_neg (by rw [other]; exact Bool.false_ne_true), if_neg (by simp)]
          rfl
  | cons c part ih =>
      have isDigit := digit c List.mem_cons_self
      have small : c.toNat - 0x30 < 10 := by
        simp only [isdigit, Bool.and_eq_true, decide_eq_true_eq] at isDigit
        omega
      have step : (val % 2 ^ 32 * 10 + (c.toNat - 0x30)) % 2 ^ 32
          = (val * 10 + (c.toNat - 0x30)) % 2 ^ 32 := by omega
      rw [List.cons_append, number, if_pos isDigit, if_neg (by omega), step,
        ih (fun c among => digit c (List.mem_cons_of_mem _ among)), List.foldl_cons]

theorem numberBase_of_head {c : UInt8} (other : c ≠ 0x30)
    : numberBase (c :: src) = (10, c :: src) := by
  rw [numberBase]
  intro rest same
  exact other (List.cons.inj same).1

theorem numberBase_zero_cons (c : UInt8)
    : numberBase (0x30 :: c :: src)
      = if c = 0x78 ∨ c = 0x58 then (16, src)
        else if isdigit c.toNat && c != 0x39 then (8, c :: src) else (10, c :: src) := by
  by_cases lower : c = 0x78
  · subst lower
    rfl
  by_cases upper : c = 0x58
  · subst upper
    rfl
  rw [if_neg (by simp [lower, upper])]
  simp [numberBase]

theorem octal_cons_cons (c : UInt8) : octal (0x30 :: c :: part) = (c != 0x39) := by
  have same : (some c != some 0x39) = (c != 0x39) := by
    by_cases equal : c = 0x39
    · rw [equal]
      rfl
    · rw [bne_iff_ne.mpr equal]
      simpa using equal
  rw [← same]
  simp [octal, leadingZero]

theorem octal_of_head {c : UInt8} (other : c ≠ 0x30) : octal (c :: part) = false := by
  simp [octal, leadingZero, other]

/-- A leading zero does not count. -/
theorem value_zero_cons : value (0x30 :: part) = value part := rfl

/-- A number in base ten is read as its value with 32 bits. -/
theorem number_of_base (digits : Digits part) (stops : Stops rest)
    (base : numberBase (part ++ rest) = (10, src))
    : octal part = false ∧ number 10 src 0 = (value part % 2 ^ 32, rest) := by
  have whole := number_eq digits.digit stops 0
  obtain ⟨c, part, rfl⟩ := List.exists_cons_of_ne_nil digits.ne_nil
  by_cases zero : c = 0x30
  · subst zero
    have later := number_eq (fun c among => digits.digit c (List.mem_cons_of_mem _ among)) stops 0
    rw [value_zero_cons]
    cases part with
    | nil =>
        cases rest with
        | nil =>
            cases base
            exact ⟨rfl, rfl⟩
        | cons c rest =>
            rw [List.cons_append, List.nil_append, numberBase_zero_cons] at base
            split_ifs at base
            · cases base
            · cases base
            · cases base
              exact ⟨rfl, later⟩
    | cons c part =>
        have isDigit := digits.digit c (List.mem_cons_of_mem _ List.mem_cons_self)
        rw [List.cons_append, List.cons_append, numberBase_zero_cons] at base
        split_ifs at base with hex oct
        · cases base
        · cases base
        · cases base
          rw [octal_cons_cons]
          exact ⟨by simpa [isDigit] using oct, later⟩
  · rw [List.cons_append, numberBase_of_head zero] at base
    cases base
    exact ⟨octal_of_head zero, whole⟩

/-- A number with no octal sign is in base ten, when no letter follows. -/
theorem numberBase_eq_ten (digits : Digits part) (decimal : octal part = false)
    (letter : ∀ c ∈ rest.head?, c ≠ 0x78 ∧ c ≠ 0x58) (stops : Stops rest)
    : (numberBase (part ++ rest)).1 = 10 := by
  obtain ⟨c, part, rfl⟩ := List.exists_cons_of_ne_nil digits.ne_nil
  by_cases zero : c = 0x30
  · subst zero
    cases part with
    | nil =>
        cases rest with
        | nil => rfl
        | cons c rest =>
            obtain ⟨lower, upper⟩ := letter c rfl
            rw [List.cons_append, List.nil_append, numberBase_zero_cons,
              if_neg (by simp [lower, upper]), if_neg (by simp [stops c rfl])]
    | cons c part =>
        have isDigit := digits.digit c (List.mem_cons_of_mem _ List.mem_cons_self)
        have other : ¬ (c = 0x78 ∨ c = 0x58) := by
          rintro (rfl | rfl)
          · cases isDigit
          · cases isDigit
        rw [octal_cons_cons] at decimal
        rw [List.cons_append, List.cons_append, numberBase_zero_cons, if_neg other,
          if_neg (by simp [decimal])]
  · rw [List.cons_append, numberBase_of_head zero]

-----------------------------------------------------------------------------------------
-- The parts
-----------------------------------------------------------------------------------------

theorem dotted_cons {parts : List (List UInt8)} (more : parts ≠ []) (tail : List UInt8)
    : dotted (part :: parts) tail = part ++ period :: dotted parts tail := by
  obtain ⟨next, parts, rfl⟩ := List.exists_cons_of_ne_nil more
  rfl

theorem stops_period (src : List UInt8) : Stops (period :: src) := by
  intro c here
  cases here
  rfl

theorem stops_of_ends {tail : List UInt8} (ends : ∀ c ∈ tail.head?, isspace c.toNat = true)
    : Stops tail := by
  intro c here
  have space := ends c here
  simp only [isspace, isdigit, Bool.or_eq_true, decide_eq_true_eq, Bool.and_eq_true,
    Bool.and_eq_false_iff, decide_eq_false_iff_not] at space ⊢
  omega

theorem takeWhile_digits (src : List UInt8)
    : ∃ part rest, src = part ++ rest ∧ (∀ c ∈ part, isdigit c.toNat = true) ∧ Stops rest := by
  refine ⟨src.takeWhile fun c => isdigit c.toNat, src.dropWhile fun c => isdigit c.toNat,
    List.takeWhile_append_dropWhile.symm, ?_, ?_⟩
  · intro c among
    exact (List.all_eq_true.mp (List.all_takeWhile (p := fun c : UInt8 => isdigit c.toNat))) c among
  · intro c here
    have := List.head?_dropWhile_not (fun c : UInt8 => isdigit c.toNat) src
    rw [Option.mem_def.mp here] at this
    simpa using this

theorem headD_digits (digits : Digits part) (rest : List UInt8)
    : isdigit ((part ++ rest).headD 0).toNat = true := by
  obtain ⟨c, part, rfl⟩ := List.exists_cons_of_ne_nil digits.ne_nil
  exact digits.digit c List.mem_cons_self

/-- A period ends a part, and there are three of them at most. -/
theorem parts_of_period {fuel val : Nat} {before : List Nat} {more : List UInt8}
    (digits : Digits part) (base : numberBase (part ++ period :: more) = (10, src))
    (read : number 10 src 0 = (val, period :: more))
    : parts true (fuel + 1) (part ++ period :: more) before
      = if before.length ≥ 3 then none else parts true fuel more (before ++ [val]) := by
  rw [parts, headD_digits digits, base]
  simp [read, period]

theorem parts_of_end {fuel val : Nat} {before : List Nat} (digits : Digits part)
    (base : numberBase (part ++ rest) = (10, src)) (read : number 10 src 0 = (val, rest))
    (other : rest.head? ≠ some period)
    : parts true (fuel + 1) (part ++ rest) before = some (before, val, rest) := by
  rw [parts, headD_digits digits, base]
  cases rest with
  | nil => simp [read]
  | cons c rest =>
      have other' : c ≠ 0x2e := fun same => other (congrArg some same)
      simp [read, other']

/-- What is read is a number of parts. -/
theorem dotted_of_parts {fuel : Nat} {before : List Nat} {result : List Nat × Nat × List UInt8}
    (read : parts true fuel src before = some result)
    : ∃ ps, src = dotted ps result.2.2 ∧ ps ≠ [] ∧ (∀ part ∈ ps, Digits part ∧ octal part = false)
      ∧ result.1 ++ [result.2.1] = before ++ ps.map (fun part => value part % 2 ^ 32) := by
  induction fuel generalizing src before with
  | zero => cases read
  | succ fuel ih =>
      obtain ⟨part, rest, rfl, digit, stops⟩ := takeWhile_digits src
      by_cases none : part = []
      · subst none
        rw [List.nil_append] at read
        cases rest with
        | nil =>
            rw [parts] at read
            cases read
        | cons c rest =>
            have other := stops c rfl
            rw [parts, if_pos (by simp [other])] at read
            cases read
      have digits : Digits part := ⟨none, digit⟩
      cases based : numberBase (part ++ rest) with
      | mk base src =>
      by_cases ten : base = 10
      · subst ten
        obtain ⟨decimal, value⟩ := number_of_base digits stops based
        by_cases more : rest.head? = some period
        · obtain ⟨more, rfl⟩ := List.head?_eq_some_iff.mp more
          rw [parts_of_period digits based value] at read
          split at read
          · cases read
          obtain ⟨ps, text, ne_nil, good, values⟩ := ih read
          refine ⟨part :: ps, by rw [dotted_cons ne_nil, ← text], by simp, ?_, ?_⟩
          · simpa using ⟨⟨digits, decimal⟩, good⟩
          · rw [values, List.append_assoc]
            rfl
        · rw [parts_of_end digits based value more] at read
          cases read
          refine ⟨[part], rfl, by simp, ?_, rfl⟩
          simpa using ⟨digits, decimal⟩
      · rw [parts, headD_digits digits, based] at read
        simp [ten] at read

/-- A number of parts is read, up to four. -/
theorem parts_of_dotted {fuel : Nat} {before : List Nat} {ps : List (List UInt8)}
    {tail : List UInt8} (ends : ∀ c ∈ tail.head?, isspace c.toNat = true) (ne_nil : ps ≠ [])
    (good : ∀ part ∈ ps, Digits part ∧ octal part = false)
    (four : before.length + ps.length ≤ 4) (enough : ps.length ≤ fuel)
    : ∃ result, parts true fuel (dotted ps tail) before = some result ∧ result.2.2 = tail
      ∧ result.1 ++ [result.2.1] = before ++ ps.map (fun part => value part % 2 ^ 32) := by
  induction ps generalizing before fuel with
  | nil => exact absurd rfl ne_nil
  | cons part ps ih =>
      obtain ⟨digits, decimal⟩ := good part List.mem_cons_self
      rw [List.length_cons] at four enough
      obtain ⟨fuel, rfl⟩ := Nat.exists_eq_succ_of_ne_zero (show fuel ≠ 0 by omega)
      by_cases last : ps = []
      · subst last
        have letter : ∀ c ∈ tail.head?, c ≠ 0x78 ∧ c ≠ 0x58 := by
          intro c here
          have space := ends c here
          constructor
          · rintro rfl
            cases space
          · rintro rfl
            cases space
        have stops := stops_of_ends ends
        have other : tail.head? ≠ some period := by
          intro here
          have space := ends period here
          cases space
        cases based : numberBase (part ++ tail) with
        | mk base src =>
        obtain rfl : base = 10 := by
          have := numberBase_eq_ten digits decimal letter stops
          rwa [based] at this
        obtain ⟨-, value⟩ := number_of_base digits stops based
        exact ⟨_, parts_of_end digits based value other, rfl, rfl⟩
      · have letter : ∀ c ∈ (period :: dotted ps tail).head?, c ≠ 0x78 ∧ c ≠ 0x58 := by
          intro c here
          cases here
          decide
        rw [dotted_cons last]
        cases based : numberBase (part ++ period :: dotted ps tail) with
        | mk base src =>
        obtain rfl : base = 10 := by
          have := numberBase_eq_ten digits decimal letter (stops_period _)
          rwa [based] at this
        obtain ⟨-, value⟩ := number_of_base digits (stops_period _) based
        have positive := List.length_pos_of_ne_nil last
        rw [parts_of_period digits based value, if_neg (by omega)]
        obtain ⟨result, read, rest, values⟩ := @ih fuel (before ++ [BSDLibC.Inet.value part % 2 ^ 32])
          last (fun part among => good part (List.mem_cons_of_mem _ among))
          (by rw [List.length_append, List.length_singleton]; omega) (by omega)
        refine ⟨result, read, rest, ?_⟩
        rw [values, List.append_assoc]
        rfl

-----------------------------------------------------------------------------------------
-- The texts that are accepted
-----------------------------------------------------------------------------------------

theorem digits_append_inj {part' rest' : List UInt8} (digit : ∀ c ∈ part, isdigit c.toNat = true)
    (digit' : ∀ c ∈ part', isdigit c.toNat = true) (stops : Stops rest) (stops' : Stops rest')
    (same : part ++ rest = part' ++ rest')
    : part = part' ∧ rest = rest' := by
  induction part generalizing part' with
  | nil =>
      cases part' with
      | nil => exact ⟨rfl, same⟩
      | cons c part' =>
          subst same
          have isDigit := digit' c List.mem_cons_self
          rw [stops c rfl] at isDigit
          cases isDigit
  | cons c part ih =>
      cases part' with
      | nil =>
          subst same
          have isDigit := digit c List.mem_cons_self
          rw [stops' c rfl] at isDigit
          cases isDigit
      | cons c' part' =>
          obtain ⟨rfl, more⟩ := List.cons.inj same
          obtain ⟨rfl, rfl⟩ := ih (fun c among => digit c (List.mem_cons_of_mem _ among))
            (fun c among => digit' c (List.mem_cons_of_mem _ among)) more
          exact ⟨rfl, rfl⟩

/-- A text has its parts in one way. -/
theorem dotted_inj {ps ps' : List (List UInt8)} {tail tail' : List UInt8}
    (digits : ∀ part ∈ ps, Digits part) (digits' : ∀ part ∈ ps', Digits part)
    (stops : Stops tail) (stops' : Stops tail') (length : ps.length = ps'.length)
    (same : dotted ps tail = dotted ps' tail')
    : ps = ps' ∧ tail = tail' := by
  induction ps generalizing ps' with
  | nil =>
      obtain rfl := List.length_eq_zero_iff.mp length.symm
      exact ⟨rfl, same⟩
  | cons part ps ih =>
      cases ps' with
      | nil => cases length
      | cons part' ps' =>
          have digit := (digits part List.mem_cons_self).digit
          have digit' := (digits' part' List.mem_cons_self).digit
          rw [List.length_cons, List.length_cons, Nat.succ_inj] at length
          by_cases last : ps = []
          · subst last
            obtain rfl := List.length_eq_zero_iff.mp length.symm
            obtain ⟨rfl, rfl⟩ := digits_append_inj digit digit' stops stops' same
            exact ⟨rfl, rfl⟩
          · have last' : ps' ≠ [] := by
              rintro rfl
              exact last (List.length_eq_zero_iff.mp length)
            rw [dotted_cons last, dotted_cons last'] at same
            obtain ⟨rfl, more⟩ :=
              digits_append_inj digit digit' (stops_period _) (stops_period _) same
            obtain ⟨rfl, rfl⟩ := ih (fun part among => digits part (List.mem_cons_of_mem _ among))
              (fun part among => digits' part (List.mem_cons_of_mem _ among)) length
              (List.cons.inj more).2
            exact ⟨rfl, rfl⟩

theorem Reads.unique {s : List UInt8} {ps ps' : List (List UInt8)} {tail tail' : List UInt8}
    (reads : Reads s ps tail) (digits : ∀ part ∈ ps', Digits part) (four : ps'.length = 4)
    (stops : Stops tail') (text : s = dotted ps' tail')
    : ps = ps' ∧ tail = tail' :=
  dotted_inj (fun part among => (reads.number part among).1) digits (stops_of_ends reads.ends) stops
    (reads.four.trans four.symm) (reads.text.symm.trans text)

/-- Four parts up to 255 are the bytes of an address. -/
theorem concoct_four {a b c d address : Nat}
    : concoct [a, b, c] d = some address
      ↔ (a ≤ 255 ∧ b ≤ 255 ∧ c ≤ 255 ∧ d ≤ 255)
        ∧ d ||| (a <<< 24 ||| b <<< 16 ||| c <<< 8) = address := by
  have joined : ¬ (a ||| b ||| c ||| d) > 0xff ↔ a ≤ 255 ∧ b ≤ 255 ∧ c ≤ 255 ∧ d ≤ 255 := by
    rw [not_lt]
    constructor
    · intro small
      have ha : a ≤ a ||| b ||| c ||| d :=
        (Nat.left_le_or.trans Nat.left_le_or).trans Nat.left_le_or
      have hb : b ≤ a ||| b ||| c ||| d :=
        (Nat.right_le_or.trans Nat.left_le_or).trans Nat.left_le_or
      have hc : c ≤ a ||| b ||| c ||| d := Nat.right_le_or.trans Nat.left_le_or
      have hd : d ≤ a ||| b ||| c ||| d := Nat.right_le_or
      omega
    · rintro ⟨ha, hb, hc, hd⟩
      have := @Nat.or_lt_two_pow _ _ 8 (@Nat.or_lt_two_pow _ _ 8
        (@Nat.or_lt_two_pow a b 8 (by omega) (by omega)) (show c < 2 ^ 8 by omega))
        (show d < 2 ^ 8 by omega)
      omega
  rw [← joined, concoct]
  by_cases large : (a ||| b ||| c ||| d) > 0xff
  · simp [large]
  · simp [large]

theorem bytes_of_parts {a b c d : Nat} (small : a ≤ 255 ∧ b ≤ 255 ∧ c ≤ 255 ∧ d ≤ 255)
    : let val := d ||| (a <<< 24 ||| b <<< 16 ||| c <<< 8)
      [UInt8.ofNat (val >>> 24), UInt8.ofNat (val >>> 16), UInt8.ofNat (val >>> 8), UInt8.ofNat val]
        = [UInt8.ofNat a, UInt8.ofNat b, UInt8.ofNat c, UInt8.ofNat d] := by
  have byte {n : Nat} (le : n ≤ 255) : (UInt8.ofNat n).toNat = n :=
    UInt8.toNat_ofNat_of_lt' (Nat.lt_succ_of_le le)
  have whole := bytes_of_quad (UInt8.ofNat a) (UInt8.ofNat b) (UInt8.ofNat c) (UInt8.ofNat d)
  rwa [byte small.1, byte small.2.1, byte small.2.2.1, byte small.2.2.2] at whole

/-- The routine accepts the texts that it reads as four parts. -/
theorem inetPton4_eq_some_iff {s octets : List UInt8}
    : inetPton4 s true = some octets
      ↔ ∃ ps tail, Reads s ps tail
        ∧ octets = ps.map fun part => UInt8.ofNat (value part % 2 ^ 32) := by
  constructor
  · intro accepted
    rw [inetPton4] at accepted
    cases read : parts true 4 s [] with
    | none =>
        rw [read] at accepted
        cases accepted
    | some result =>
        obtain ⟨before, val, tail⟩ := result
        obtain ⟨ps, text, -, good, values⟩ := dotted_of_parts read
        simp only [List.nil_append] at values text
        rw [read, Option.bind_eq_bind, Option.bind_some] at accepted
        simp only at accepted
        split_ifs at accepted with trailing shorthand
        have four : before.length = 3 := by simpa using shorthand
        obtain ⟨a, b, c, rfl⟩ := List.length_eq_three.mp four
        cases joined : concoct [a, b, c] val with
        | none =>
            rw [joined] at accepted
            cases accepted
        | some address =>
            obtain ⟨small, rfl⟩ := concoct_four.mp joined
            rw [joined, Option.bind_eq_bind, Option.bind_some, bytes_of_parts small] at accepted
            cases accepted
            refine ⟨ps, tail, ⟨?_, text, ?_, ?_⟩, ?_⟩
            · simpa using (congrArg List.length values).symm
            · intro ch here
              rw [List.head?_eq_some_iff.mp here |>.choose_spec] at trailing
              simpa using trailing
            · intro part among
              have inside : value part % 2 ^ 32 ∈ [a, b, c] ++ [val] := by
                rw [values]
                exact List.mem_map_of_mem among
              refine ⟨(good part among).1, (good part among).2, ?_⟩
              simp only [List.cons_append, List.nil_append, List.mem_cons, List.not_mem_nil,
                or_false] at inside
              omega
            · have octets := congrArg (List.map UInt8.ofNat) values
              rw [List.map_map] at octets
              exact octets
  · rintro ⟨ps, tail, reads, rfl⟩
    obtain ⟨p, q, r, t, rfl⟩ : ∃ p q r t, ps = [p, q, r, t] := by
      obtain ⟨p, more, rfl⟩ := List.exists_cons_of_length_eq_add_one reads.four
      obtain ⟨q, r, t, rfl⟩ := List.length_eq_three.mp (Nat.succ.inj reads.four)
      exact ⟨p, q, r, t, rfl⟩
    obtain ⟨⟨before, val, rest⟩, read, tail_eq, values⟩ := @parts_of_dotted 4 [] _ tail reads.ends
      (List.cons_ne_nil _ _) (fun part among => ⟨(reads.number part among).1,
        (reads.number part among).2.1⟩) (by simp) (by simp)
    simp only at tail_eq
    subst tail_eq
    have values' : before ++ [val]
        = [value p % 2 ^ 32, value q % 2 ^ 32, value r % 2 ^ 32] ++ [value t % 2 ^ 32] := values
    obtain ⟨rfl, last⟩ := List.append_inj' values' rfl
    obtain ⟨rfl⟩ := List.cons.inj last
    have number (part : List UInt8) (among : part ∈ [p, q, r, t]) := (reads.number part among).2.2
    have small : value p % 2 ^ 32 ≤ 255 ∧ value q % 2 ^ 32 ≤ 255 ∧ value r % 2 ^ 32 ≤ 255
        ∧ value t % 2 ^ 32 ≤ 255 :=
      ⟨number p (by simp), number q (by simp), number r (by simp), number t (by simp)⟩
    have trailing : ¬ (decide (rest ≠ []) && !isspace (rest.headD 0).toNat) = true := by
      cases rest with
      | nil => simp
      | cons c rest => simp [reads.ends c rfl]
    rw [inetPton4, reads.text, read, Option.bind_eq_bind, Option.bind_some]
    simp only
    rw [if_neg trailing, if_neg (by simp), concoct_four.mpr ⟨small, rfl⟩, Option.bind_eq_bind,
      Option.bind_some, bytes_of_parts small]
    rfl

theorem not_octal {part : List UInt8} (none : leadingZero part = false) : octal part = false := by
  rw [octal, none, Bool.false_and]

/-- `inet_pton` accepts a text exactly as a dotted quad, for both ways to write numbers, unless it
reads the text with a tail, with a number that is 2^32 or more, or with a leading zero, and unless it
takes a leading zero for the sign of an octal number.
-/
theorem inetPton_dottedQuad_iff (zeros : Bool) (s : List UInt8)
    : ((∀ octets, inetPton .inet s = .ok (some octets) ↔ DottedQuad zeros s octets)
        ∧ (inetPton .inet s = .ok none ↔ ¬ ∃ octets, DottedQuad zeros s octets))
      ↔ (∀ ps tail, Reads s ps tail
            → tail = [] ∧ ∀ part ∈ ps, value part < 2 ^ 32 ∧ (zeros ∨ leadingZero part = false))
          ∧ ∀ ps, ps.length = 4 → s = dotted ps []
            → (∀ part ∈ ps, Digits part ∧ (zeros ∨ leadingZero part = false) ∧ value part ≤ 255)
            → ∀ part ∈ ps, octal part = false := by
  have accepts (octets : List UInt8) : inetPton .inet s = .ok (some octets)
      ↔ ∃ ps tail, Reads s ps tail ∧ octets = ps.map fun part => UInt8.ofNat (value part % 2 ^ 32) := by
    rw [← inetPton4_eq_some_iff, inetPton]
    simp
  have nil : Stops [] := by
    intro c here
    cases here
  constructor
  · rintro ⟨exact_, -⟩
    refine ⟨fun ps tail reads => ?_, fun ps four text good => ?_⟩
    · obtain ⟨ps', four, text, good, -⟩ := (exact_ _).mp ((accepts _).mpr ⟨ps, tail, reads, rfl⟩)
      obtain ⟨rfl, rfl⟩ := reads.unique (fun part among => (good part among).1) four nil text
      refine ⟨rfl, fun part among => ⟨?_, (good part among).2.1⟩⟩
      have := (good part among).2.2
      omega
    · obtain ⟨ps', tail, reads, -⟩ := (accepts _).mp ((exact_ _).mpr ⟨ps, four, text, good, rfl⟩)
      obtain ⟨rfl, rfl⟩ := reads.unique (fun part among => (good part among).1) four nil text
      exact fun part among => (reads.number part among).2.1
  · rintro ⟨plain, decimal⟩
    have exact_ (octets : List UInt8)
        : inetPton .inet s = .ok (some octets) ↔ DottedQuad zeros s octets := by
      rw [accepts]
      constructor
      · rintro ⟨ps, tail, reads, rfl⟩
        obtain ⟨rfl, numbers⟩ := plain ps tail reads
        refine ⟨ps, reads.four, reads.text, fun part among => ?_, List.map_congr_left fun part among => ?_⟩
        · obtain ⟨digits, -, small⟩ := reads.number part among
          rw [Nat.mod_eq_of_lt (numbers part among).1] at small
          exact ⟨digits, (numbers part among).2, small⟩
        · rw [Nat.mod_eq_of_lt (numbers part among).1]
      · rintro ⟨ps, four, text, good, rfl⟩
        have exact32 (part : List UInt8) (among : part ∈ ps) : value part % 2 ^ 32 = value part := by
          have := (good part among).2.2
          omega
        refine ⟨ps, [], ⟨four, text, ?_, fun part among => ?_⟩, List.map_congr_left fun part among => ?_⟩
        · intro c here
          cases here
        · rw [exact32 part among]
          exact ⟨(good part among).1, decimal ps four text good part among, (good part among).2.2⟩
        · rw [exact32 part among]
    refine ⟨exact_, ?_⟩
    have total : inetPton .inet s = .ok none ↔ ¬ ∃ octets, inetPton .inet s = .ok (some octets) := by
      rw [inetPton]
      cases inetPton4 s true <;> simp
    rw [total]
    simp only [exact_]

/-- `4294967297.0.0.1` -/
def wrappedQuad : List UInt8 :=
  [0x34, 0x32, 0x39, 0x34, 0x39, 0x36, 0x37, 0x32, 0x39, 0x37, 0x2e, 0x30, 0x2e, 0x30, 0x2e, 0x31]

/-- A part that is 2^32 more than its octet is read as the octet. -/
theorem inetPton_wrappedQuad
    : inetPton .inet wrappedQuad = .ok (some [1, 0, 0, 1])
      ∧ ∀ zeros octets, ¬ DottedQuad zeros wrappedQuad octets := by
  refine ⟨by decide, ?_⟩
  rintro zeros octets ⟨ps, four, text, good, -⟩
  have digits (part : List UInt8) (some : part ≠ [])
      (digit : (part.all fun c => isdigit c.toNat) = true)
      : Digits part := ⟨some, List.all_eq_true.mp digit⟩
  have reads : Reads wrappedQuad [[0x34, 0x32, 0x39, 0x34, 0x39, 0x36, 0x37, 0x32, 0x39, 0x37],
      [0x30], [0x30], [0x31]] [] := by
    refine ⟨rfl, rfl, by simp, ?_⟩
    simp only [List.mem_cons, List.not_mem_nil, or_false, forall_eq_or_imp, forall_eq]
    exact ⟨⟨digits _ (by decide) (by decide), by decide, by decide +kernel⟩,
      ⟨digits _ (by decide) (by decide), by decide, by decide +kernel⟩,
      ⟨digits _ (by decide) (by decide), by decide, by decide +kernel⟩,
      ⟨digits _ (by decide) (by decide), by decide, by decide +kernel⟩⟩
  obtain ⟨rfl, -⟩ := reads.unique (fun part among => (good part among).1) four
    (by intro c here; cases here) text
  have small := (good _ List.mem_cons_self).2.2
  revert small
  decide

-- White space and anything behind it are accepted, and so is a leading zero before a 9.
example : inetPton .inet [0x31, 0x2e, 0x30, 0x2e, 0x30, 0x2e, 0x31, 0x20, 0x78]
    = .ok (some [1, 0, 0, 1]) := by decide

example : inetPton .inet [0x30, 0x39, 0x2e, 0x30, 0x2e, 0x30, 0x2e, 0x31]
    = .ok (some [9, 0, 0, 1]) := by decide

end BSDLibC.Inet
