import BSDLibC.Strto.Convert
import Mathlib.Data.List.TakeWhile

/-! The numerals that a string can begin with, and the longest of them. -/

namespace BSDLibC.Strto

/-- White space, a sign, the `x` of a prefix `0x`, and digits. -/
structure Numeral where
  spaces : List UInt8
  sign : Option Bool
  marker : Option UInt8
  digits : List UInt8

def signBytes : Option Bool → List UInt8
  | none => []
  | some true => [0x2d]
  | some false => [0x2b]

def markerBytes : Option UInt8 → List UInt8
  | none => []
  | some x => [0x30, x]

def Numeral.bytes (n : Numeral) : List UInt8 :=
  n.spaces ++ (signBytes n.sign ++ (markerBytes n.marker ++ n.digits))

/-- The base that the digits are in: 16 after a prefix, else 8 after a zero and 10, when no base is
given.
-/
def Numeral.radix (base : Int) (n : Numeral) : Int :=
  if n.marker.isSome then 16
  else if base ≠ 0 then base
  else if n.digits.head? = some 0x30 then 8 else 10

/-- A digit of a base. -/
def IsDigit (radix : Int) (d : UInt8) : Prop := ∃ i, digit d = some i ∧ i < radix

/-- The numerals that a base allows. -/
structure Numeral.Valid (loc : Locale) (base : Int) (n : Numeral) : Prop where
  spaces : ∀ c ∈ n.spaces, loc.isspace c = true
  start : ∀ c, (signBytes n.sign ++ (markerBytes n.marker ++ n.digits)).head? = some c
    → loc.isspace c = false
  marker : ∀ x, n.marker = some x → (base = 0 ∨ base = 16) ∧ (x = 0x78 ∨ x = 0x58)
  present : n.digits ≠ []
  digits : ∀ d ∈ n.digits, IsDigit (n.radix base) d

def digitValue (d : UInt8) : Nat := ((digit d).getD 0).toNat

/-- The number that digits denote. -/
def amount (radix : Nat) (digits : List UInt8) : Nat :=
  digits.foldl (fun v d => v * radix + digitValue d) 0

def Numeral.amount (base : Int) (n : Numeral) : Nat := Strto.amount (n.radix base).toNat n.digits

def Numeral.neg (n : Numeral) : Bool := n.sign == some true

/-- The integer that a numeral denotes. -/
def Numeral.value (base : Int) (n : Numeral) : Int :=
  if n.neg then -(n.amount base : Int) else n.amount base

/-- The longest start of a string that is a numeral. -/
structure Longest (loc : Locale) (base : Int) (text : Text) (n : Numeral) : Prop where
  valid : n.Valid loc base
  start : n.bytes <+: text.bytes
  longest (m : Numeral) : m.Valid loc base → m.bytes <+: text.bytes → m.bytes.length ≤ n.bytes.length

-----------------------------------------------------------------------------------------
-- Digits
-----------------------------------------------------------------------------------------

theorem digit_nonneg {d : UInt8} {i : Int} (h : digit d = some i) : 0 ≤ i := by
  simp only [digit, UInt8.le_iff_toNat_le] at h
  split_ifs at h <;> cases h <;> simp_all
  all_goals omega

theorem digit_isHex (d : UInt8) : isHex d = true ↔ IsDigit 16 d := by
  simp only [isHex, IsDigit, digit, UInt8.le_iff_toNat_le, Bool.or_eq_true, Bool.and_eq_true,
    decide_eq_true_eq]
  have := UInt8.toNat_lt d
  constructor
  · intro hex
    split_ifs <;> simp_all <;> omega
  · rintro ⟨i, value, small⟩
    split_ifs at value <;> cases value <;> simp_all <;> omega

/-- No sign is a digit, and the `x` of a prefix is none up to base 16. -/
theorem digit_sign : digit 0x2d = none ∧ digit 0x2b = none := by decide

theorem digit_marker {x : UInt8} (marker : x = 0x78 ∨ x = 0x58) : digit x = some 33 := by
  rcases marker with rfl | rfl <;> decide

-----------------------------------------------------------------------------------------
-- The numeral that the conversion reads
-----------------------------------------------------------------------------------------

def takeSign : List UInt8 → Option Bool × List UInt8
  | [] => (none, [])
  | c :: s => if c = 0x2d then (some true, s) else if c = 0x2b then (some false, s) else (none, c :: s)

def takeMarker (base : Int) : List UInt8 → Option UInt8 × List UInt8
  | c :: x :: d :: s =>
      if ((base = 0 ∨ base = 16) ∧ c = 0x30) ∧ (x = 0x78 ∨ x = 0x58) ∧ isHex d then
        (some x, d :: s)
      else
        (none, c :: x :: d :: s)
  | s => (none, s)

/-- The base of the digits that stand at the start of the bytes. -/
def radixAt (base : Int) (marker : Option UInt8) (s : List UInt8) : Int :=
  if marker.isSome then 16 else plainBase base (s.headD 0)

instance (radix : Int) : DecidablePred (IsDigit radix) := fun d =>
  match h : digit d with
  | none => isFalse fun ⟨_, value, _⟩ => by simp [h] at value
  | some i =>
      if small : i < radix then isTrue ⟨i, h, small⟩
      else isFalse fun ⟨_, value, less⟩ => small (by rw [h] at value; cases value; exact less)

/-- What the conversion takes from the start of the bytes, also when that has no digits. -/
def subject (loc : Locale) (base : Int) (bytes : List UInt8) : Numeral :=
  let rest := bytes.dropWhile loc.isspace
  let marked := takeMarker base (takeSign rest).2
  { spaces := bytes.takeWhile loc.isspace
    sign := (takeSign rest).1
    marker := marked.1
    digits := marked.2.takeWhile fun d => IsDigit (radixAt base marked.1 marked.2) d }

theorem takeSign_eq (s : List UInt8) : signBytes (takeSign s).1 ++ (takeSign s).2 = s := by
  cases s with
  | nil => rfl
  | cons c s =>
      rw [takeSign]
      split_ifs with minus plus
      · rw [minus]
        rfl
      · rw [plus]
        rfl
      · rfl

theorem takeMarker_eq (base : Int) (s : List UInt8)
    : markerBytes (takeMarker base s).1 ++ (takeMarker base s).2 = s := by
  rw [takeMarker.eq_def]
  split
  next c x d s =>
    split_ifs with marked
    · rw [marked.1.2]
      rfl
    · rfl
  next => rfl

/-- What the conversion leaves of the bytes. -/
def leftover (loc : Locale) (base : Int) (bytes : List UInt8) : List UInt8 :=
  let marked := takeMarker base (takeSign (bytes.dropWhile loc.isspace)).2
  marked.2.dropWhile fun d => IsDigit (radixAt base marked.1 marked.2) d

theorem subject_append (loc : Locale) (base : Int) (bytes : List UInt8)
    : (subject loc base bytes).bytes ++ leftover loc base bytes = bytes := by
  have marked := takeMarker_eq base (takeSign (bytes.dropWhile loc.isspace)).2
  have signed := takeSign_eq (bytes.dropWhile loc.isspace)
  simp only [Numeral.bytes, subject, leftover, List.append_assoc, List.takeWhile_append_dropWhile,
    marked, signed]

/-- The numeral starts the bytes. -/
theorem subject_bytes (loc : Locale) (base : Int) (bytes : List UInt8)
    : (subject loc base bytes).bytes <+: bytes :=
  ⟨_, subject_append loc base bytes⟩

/-- The base is that of the numeral when there are digits. -/
theorem radix_eq (base : Int) {n : Numeral} {s : List UInt8} (present : n.digits ≠ [])
    (start : n.digits <+: s)
    : n.radix base = radixAt base n.marker s := by
  obtain ⟨d, ds, shape⟩ := List.exists_cons_of_ne_nil present
  obtain ⟨rest, rfl⟩ := start
  rw [Numeral.radix, radixAt, plainBase, shape]
  split_ifs <;> simp_all

theorem subject_valid {loc : Locale} {base : Int} {bytes : List UInt8}
    (present : (subject loc base bytes).digits ≠ [])
    : (subject loc base bytes).Valid loc base where
  spaces c member := List.mem_takeWhile_imp member
  start c head := by
    have first : (bytes.dropWhile loc.isspace).head? = some c := by
      have start := subject_bytes loc base bytes
      rw [Numeral.bytes] at start
      conv_rhs at start => rw [← List.takeWhile_append_dropWhile (p := loc.isspace) (l := bytes)]
      obtain ⟨rest, whole⟩ := (List.prefix_append_right_inj _).mp start
      rw [← whole, List.head?_append, head]
      rfl
    cases h : bytes.dropWhile loc.isspace with
    | nil => simp [h] at first
    | cons d s =>
        have := List.head_dropWhile_not loc.isspace (by simp [h] : bytes.dropWhile loc.isspace ≠ [])
        simp_all
  marker x marked := by
    simp only [subject] at marked
    rw [takeMarker.eq_def] at marked
    split at marked
    next =>
      split_ifs at marked with both
      · cases marked
        exact ⟨both.1.1, both.2.1⟩
    next => cases marked
  present := present
  digits d member := by
    rw [radix_eq base present (List.takeWhile_prefix _)]
    have all := List.all_eq_true.mp (List.all_takeWhile (l := (takeMarker base
      (takeSign (bytes.dropWhile loc.isspace)).2).2) (p := fun d => IsDigit (radixAt base
      (subject loc base bytes).marker (takeMarker base (takeSign (bytes.dropWhile loc.isspace)).2).2) d))
    exact of_decide_eq_true (all d member)

/-- A run of bytes with a property ends at one without it. -/
theorem takeWhile_append_eq {p : UInt8 → Bool} (run rest : List UInt8) (all : ∀ c ∈ run, p c = true)
    (stop : ∀ c, rest.head? = some c → p c = false)
    : (run ++ rest).takeWhile p = run ∧ (run ++ rest).dropWhile p = rest := by
  rw [List.takeWhile_append_of_pos all, List.dropWhile_append_of_pos all]
  cases rest with
  | nil => simp
  | cons c rest => simp [stop c rfl]

theorem takeSign_append (sign : Option Bool) (rest : List UInt8) (more : rest ≠ [])
    (other : ∀ c, rest.head? = some c → c ≠ 0x2d ∧ c ≠ 0x2b)
    : takeSign (signBytes sign ++ rest) = (sign, rest) := by
  obtain ⟨c, s, rfl⟩ := List.exists_cons_of_ne_nil more
  obtain ⟨minus, plus⟩ := other c rfl
  rcases sign with _ | _ | _ <;> simp [signBytes, takeSign, minus, plus]

/-- The digits of a numeral after a prefix, or else no prefix is found before more than one digit. -/
theorem takeMarker_append {loc : Locale} {base : Int} {n : Numeral} (rest : List UInt8)
    (valid : n.Valid loc base)
    : takeMarker base (markerBytes n.marker ++ (n.digits ++ rest)) = (n.marker, n.digits ++ rest)
      ∨ (n.marker = none ∧ n.digits.length = 1
        ∧ ∃ x d s, takeMarker base (n.digits ++ rest) = (some x, d :: s) ∧ isHex d = true) := by
  obtain ⟨first, more, shape⟩ := List.exists_cons_of_ne_nil valid.present
  cases marked : n.marker with
  | some x =>
      obtain ⟨bases, marker⟩ := valid.marker x marked
      have hex : isHex first = true := by
        have radix : n.radix base = 16 := by rw [Numeral.radix, marked]; rfl
        exact (digit_isHex first).mpr (radix ▸ valid.digits first (by simp [shape]))
      left
      rw [shape, markerBytes, List.cons_append, List.cons_append, List.nil_append,
        List.cons_append, takeMarker, if_pos ⟨⟨bases, rfl⟩, marker, hex⟩]
  | none =>
      rw [markerBytes, List.nil_append, takeMarker.eq_def]
      split
      next c x d s found =>
        split_ifs with both
        · right
          refine ⟨rfl, ?_, x, d, s, rfl, both.2.2⟩
          rw [shape, List.cons_append] at found
          obtain ⟨rfl, tail⟩ := List.cons.inj found
          cases more with
          | nil => rw [shape]; rfl
          | cons second more =>
              obtain ⟨rfl, -⟩ := List.cons.inj tail
              obtain ⟨i, value, small⟩ := valid.digits second (by simp [shape])
              rw [digit_marker both.2.1] at value
              cases value
              have : n.radix base ≤ 16 := by
                rw [Numeral.radix, marked, shape]
                rcases both.1.1 with rfl | rfl <;> simp [both.1.2]
              omega
        · left
          rw [found]
      next => exact .inl rfl

/-- What the conversion takes is the longest numeral that starts the bytes, and the only one of its
length.
-/
theorem valid_le_subject {loc : Locale} {base : Int} {bytes : List UInt8} {n : Numeral}
    (valid : n.Valid loc base) (start : n.bytes <+: bytes)
    : (subject loc base bytes).digits ≠ []
      ∧ (n = subject loc base bytes ∨ n.bytes.length < (subject loc base bytes).bytes.length) := by
  obtain ⟨rest, rfl⟩ := start
  obtain ⟨first, more, shape⟩ := List.exists_cons_of_ne_nil valid.present
  have spaces := takeWhile_append_eq n.spaces
    (signBytes n.sign ++ (markerBytes n.marker ++ (n.digits ++ rest))) valid.spaces (by
      intro c head
      refine valid.start c ?_
      rw [← head, shape]
      rcases n.sign with _ | _ | _ <;> rcases n.marker with _ | _ <;> rfl)
  have signed := takeSign_append n.sign (markerBytes n.marker ++ (n.digits ++ rest))
    (by simp [shape]) (by
      intro c head
      cases marked : n.marker with
      | some x =>
          rw [marked] at head
          cases head
          decide
      | none =>
          rw [marked, shape] at head
          cases head
          obtain ⟨i, value, _⟩ := valid.digits first (by simp [shape])
          constructor <;> rintro rfl
          · rw [digit_sign.1] at value
            cases value
          · rw [digit_sign.2] at value
            cases value)
  have whole : n.bytes ++ rest
      = n.spaces ++ (signBytes n.sign ++ (markerBytes n.marker ++ (n.digits ++ rest))) := by
    simp [Numeral.bytes]
  rw [whole, subject, spaces.1, spaces.2, signed]
  rcases takeMarker_append rest valid with same | ⟨marked, single, x, d, s, found, hex⟩
  · have radix := radix_eq base valid.present (List.prefix_append n.digits rest)
    have digits : ((n.digits ++ rest).takeWhile fun d => IsDigit (n.radix base) d)
        = n.digits ++ rest.takeWhile fun d => IsDigit (n.radix base) d :=
      List.takeWhile_append_of_pos fun d member => decide_eq_true (valid.digits d member)
    simp only [same, ← radix, digits]
    refine ⟨by simp [shape], ?_⟩
    cases h : rest.takeWhile fun d => IsDigit (n.radix base) d with
    | nil => exact .inl (by rw [List.append_nil])
    | cons d ds =>
        right
        simp only [Numeral.bytes, List.length_append, List.length_cons]
        omega
  · have digit : IsDigit (radixAt base (some x) (d :: s)) d := (digit_isHex d).mp hex
    have digits : ((d :: s).takeWhile fun d' => IsDigit (radixAt base (some x) (d :: s)) d')
        = d :: s.takeWhile fun d' => IsDigit (radixAt base (some x) (d :: s)) d' :=
      List.takeWhile_cons_of_pos (decide_eq_true digit)
    simp only [marked, markerBytes, List.nil_append, found, digits]
    refine ⟨List.cons_ne_nil _ _, .inr ?_⟩
    simp only [Numeral.bytes, marked, markerBytes, List.nil_append, List.length_append, single,
      List.length_cons]
    omega

theorem Longest.length_ne_zero {loc : Locale} {base : Int} {text : Text} {n : Numeral}
    (longest : Longest loc base text n)
    : n.bytes.length ≠ 0 := by
  have := List.length_pos_iff.mpr longest.valid.present
  simp only [Numeral.bytes, List.length_append]
  omega

end BSDLibC.Strto
