import BSDLibC.Strto.Numeral
import BSDLibC.Ctype.CLocale

/-! The conversions read the longest numeral, and notice when its value does not fit. -/

namespace BSDLibC.Strto

-----------------------------------------------------------------------------------------
-- The way through the string
-----------------------------------------------------------------------------------------

theorem skip_spec (loc : Locale) {bytes : List UInt8} {c : UInt8} {s : List UInt8}
    (memory : bytes.dropWhile loc.isspace ++ [0] = c :: s)
    : skip loc (bytes ++ [0]) = some (c, s) := by
  induction bytes with
  | nil =>
      cases memory
      simp [skip, loc.nul]
  | cons d bytes ih =>
      rw [List.cons_append, skip]
      split
      next space =>
        rw [List.dropWhile_cons_of_pos space] at memory
        exact ih memory
      next other =>
        rw [List.dropWhile_cons_of_neg other] at memory
        cases memory
        rfl

theorem sign_spec {bytes : List UInt8} {c : UInt8} {s : List UInt8} (memory : bytes ++ [0] = c :: s)
    : ∃ c' s', (takeSign bytes).2 ++ [0] = c' :: s'
      ∧ sign c s = some ((takeSign bytes).1 == some true, c', s') := by
  cases bytes with
  | nil =>
      cases memory
      exact ⟨0, [], rfl, rfl⟩
  | cons d bytes =>
      rw [List.cons_append] at memory
      obtain ⟨rfl, rfl⟩ := List.cons.inj memory
      rw [takeSign, sign.eq_def]
      obtain ⟨c', s', rest⟩ := List.exists_cons_of_ne_nil (by simp : bytes ++ [0] ≠ [])
      split_ifs
      · simp only [rest]
        exact ⟨c', s', rfl, rfl⟩
      · simp only [rest]
        exact ⟨c', s', rfl, rfl⟩
      · exact ⟨d, bytes ++ [0], rfl, rfl⟩

theorem prefixed_spec (base : Int) {bytes : List UInt8} {c : UInt8} {s : List UInt8}
    (memory : bytes ++ [0] = c :: s)
    : ∃ c' s', (takeMarker base bytes).2 ++ [0] = c' :: s'
      ∧ prefixed base c s
        = some (radixAt base (takeMarker base bytes).1 (takeMarker base bytes).2, c', s') := by
  match bytes with
  | [] =>
      cases memory
      exact ⟨0, [], rfl, by simp [prefixed, takeMarker, radixAt]⟩
  | [d] =>
      cases memory
      exact ⟨c, [0], rfl, by simp [prefixed, takeMarker, radixAt]⟩
  | [d, x] =>
      cases memory
      exact ⟨c, [x, 0], rfl, by simp [prefixed, takeMarker, radixAt, isHex]⟩
  | d :: x :: h :: bytes =>
      rw [List.cons_append, List.cons_append, List.cons_append] at memory
      obtain ⟨rfl, rfl⟩ := List.cons.inj memory
      rw [takeMarker, prefixed.eq_def]
      by_cases bases : (base = 0 ∨ base = 16) ∧ d = 0x30
      · by_cases marker : x = 0x78 ∨ x = 0x58
        · by_cases hex : isHex h = true
          · rw [if_pos bases, if_pos ⟨bases, marker, hex⟩]
            simp only [if_pos marker, if_pos hex]
            exact ⟨h, bytes ++ [0], rfl, rfl⟩
          · rw [if_pos bases, if_neg (by simp [hex])]
            simp only [if_pos marker, if_neg hex]
            exact ⟨d, x :: h :: (bytes ++ [0]), rfl, rfl⟩
        · rw [if_pos bases, if_neg (by simp [marker])]
          simp only [if_neg marker]
          exact ⟨d, x :: h :: (bytes ++ [0]), rfl, rfl⟩
      · rw [if_neg bases, if_neg (by simp [bases])]
        exact ⟨d, x :: h :: (bytes ++ [0]), rfl, rfl⟩

/-- The body of the loop for each of the digits. -/
def steps {α : Type} (step : Int → Digits α → Option (Digits α)) (ds : List UInt8)
    (digits : Digits α)
    : Option (Digits α) :=
  ds.foldlM (fun digits d => step ((digit d).getD 0) digits) digits

theorem scan_spec {α : Type} {base : Int} {step : Int → Digits α → Option (Digits α)}
    {ds rest : List UInt8} {c : UInt8} {s : List UInt8} {digits : Digits α}
    (all : ∀ d ∈ ds, IsDigit base d)
    (stop : ∀ d, (rest ++ [0]).head? = some d → ¬ IsDigit base d)
    (memory : ds ++ (rest ++ [0]) = c :: s)
    : scan base step c s digits
      = (steps step ds digits).map fun digits => ((rest ++ [0]).tail, digits) := by
  induction ds generalizing c s digits with
  | nil =>
      rw [List.nil_append] at memory
      have ends := stop c (by rw [memory]; rfl)
      rw [memory, scan.eq_def]
      cases value : digit c with
      | none =>
          simp only [value]
          rfl
      | some i =>
          have big : i ≥ base := by
            by_contra small
            exact ends ⟨i, value, by omega⟩
          simp only [value, if_pos big]
          rfl
  | cons d ds ih =>
      obtain ⟨rfl, tail⟩ := List.cons.inj memory
      obtain ⟨i, value, small⟩ := all d (by simp)
      obtain ⟨c', s', more⟩ := List.exists_cons_of_ne_nil (by simp : ds ++ (rest ++ [0]) ≠ [])
      change ds ++ (rest ++ [0]) = s at tail
      rw [← tail, more, scan.eq_def]
      simp only [value, if_neg (not_le.mpr small), steps, List.foldlM_cons, Option.getD_some]
      cases step i digits with
      | none => rfl
      | some digits =>
          exact ih (fun e member => all e (by simp [member])) more

/-- The bases that are allowed. -/
def ValidBase (base : Int) : Prop := base = 0 ∨ (2 ≤ base ∧ base ≤ 36)

theorem radixAt_bounds {base : Int} (valid : ValidBase base) (marker : Option UInt8) (s : List UInt8)
    : 2 ≤ radixAt base marker s ∧ radixAt base marker s ≤ 36 := by
  simp only [radixAt, plainBase]
  rcases valid with rfl | bounds <;> split_ifs <;> omega

/-- The conversion takes each digit of the numeral that it reads. -/
theorem convert_eq {α : Type} (loc : Locale) (text : Text) (base : Int) (errno : Int) (zero : α)
    (step : Bool → Int → Int → Digits α → Option (Digits α)) (finish : Bool → Digits α → α)
    (valid : ValidBase base)
    : ∃ radix, 2 ≤ radix ∧ radix ≤ 36
      ∧ (∀ d ∈ (subject loc base text.bytes).digits, IsDigit radix d)
      ∧ ((subject loc base text.bytes).digits ≠ []
        → radix = (subject loc base text.bytes).radix base)
      ∧ convert loc text base errno zero step finish
        = (steps (step (subject loc base text.bytes).neg radix) (subject loc base text.bytes).digits
            ⟨zero, 0, errno⟩).map fun digits =>
          ⟨finish (subject loc base text.bytes).neg digits,
            if digits.any ≠ 0 then (subject loc base text.bytes).bytes.length else 0, digits.errno⟩ := by
  set behind := text.bytes.dropWhile loc.isspace with behindEq
  set marked := takeMarker base (takeSign behind).2 with markedEq
  set radix := radixAt base marked.1 marked.2 with radixEq
  have digits : (subject loc base text.bytes).digits
      = marked.2.takeWhile fun d => IsDigit radix d := rfl
  set ds := (subject loc base text.bytes).digits with dsEq
  set rest := leftover loc base text.bytes with restEq
  have all (d : UInt8) (member : d ∈ ds) : IsDigit radix d := by
    have holds := List.all_eq_true.mp (List.all_takeWhile (l := marked.2)
      (p := fun d => IsDigit radix d))
    exact of_decide_eq_true (holds d (digits ▸ member))
  have stop (d : UInt8) (head : (rest ++ [0]).head? = some d) : ¬ IsDigit radix d := by
    have left : rest = marked.2.dropWhile fun d => IsDigit radix d := rfl
    cases h : rest with
    | nil =>
        rw [h] at head
        cases head
        rintro ⟨i, value, _⟩
        cases value
    | cons e more =>
        rw [h] at head
        cases head
        have := List.head_dropWhile_not (fun d => decide (IsDigit radix d)) (l := marked.2)
          (by rw [← left, h]; exact List.cons_ne_nil _ _)
        simpa [← left, h] using this
  have length : text.memory.length - ((rest ++ [0]).tail).length - 1
      = (subject loc base text.bytes).bytes.length := by
    have whole := congrArg List.length (subject_append loc base text.bytes)
    rw [List.length_append, ← restEq] at whole
    simp only [Text.memory, List.length_append, List.length_tail, List.length_singleton]
    omega
  have parts : marked.2 = ds ++ rest := by
    rw [digits, restEq]
    exact List.takeWhile_append_dropWhile.symm
  obtain ⟨c, s, memory⟩ := List.exists_cons_of_ne_nil (by simp : behind ++ [0] ≠ [])
  obtain ⟨c₁, s₁, memory₁, signed⟩ := sign_spec memory
  obtain ⟨c₂, s₂, memory₂, based⟩ := prefixed_spec base memory₁
  have bounds := radixAt_bounds valid marked.1 marked.2
  refine ⟨radix, bounds.1, bounds.2, all, fun present => ?_, ?_⟩
  · exact (radix_eq base present (s := marked.2) ⟨rest, parts.symm⟩).symm
  · rw [convert, if_neg (by rcases valid with rfl | _ <;> omega)]
    have skipped : skip loc text.memory = some (c, s) := skip_spec loc memory
    rw [← markedEq, parts, List.append_assoc] at memory₂
    simp only [skipped, signed, based, Option.bind_eq_bind, Option.bind_some]
    rw [scan_spec all stop memory₂, Option.map_eq_bind, Option.bind_assoc, Option.map_eq_bind]
    simp only [Function.comp_apply, Option.bind_some, length]
    rfl

-----------------------------------------------------------------------------------------
-- Digits put together up to a limit
-----------------------------------------------------------------------------------------

/-- The comparisons with the cutoff tell whether one more digit goes beyond the limit. -/
theorem exceeds_iff (limit a : Nat) {base i : Nat} (digit : i < base)
    : (a > limit / base ∨ (a = limit / base ∧ i > limit % base)) ↔ limit < a * base + i := by
  have whole := Nat.div_add_mod limit base
  have rest := Nat.mod_lt limit (Nat.lt_of_le_of_lt (Nat.zero_le i) digit)
  rw [Nat.mul_comm] at whole
  rcases Nat.lt_trichotomy a (limit / base) with less | same | more
  · have := Nat.mul_le_mul_right base (Nat.succ_le_of_lt less)
    rw [Nat.succ_mul] at this
    omega
  · rw [same]
    omega
  · have := Nat.mul_le_mul_right base (Nat.succ_le_of_lt more)
    rw [Nat.succ_mul] at this
    omega

/-- A loop body that holds an amount up to a limit, and `top` once it was larger. -/
structure Counts {α : Type} (limit base : Nat) (repr : Nat → α) (top : α)
    (step : Int → Digits α → Option (Digits α))
    : Prop where
  next (a i : Nat) (any errno : Int) : a ≤ limit → i < base → 0 ≤ any
    → step i ⟨repr a, any, errno⟩
      = some (if limit < a * base + i then ⟨top, -1, ERANGE⟩ else ⟨repr (a * base + i), 1, errno⟩)
  after (i errno : Int) : step i ⟨top, -1, errno⟩ = some ⟨top, -1, errno⟩

theorem Counts.steps_after {α : Type} {limit base : Nat} {repr : Nat → α} {top : α}
    {step : Int → Digits α → Option (Digits α)} (counts : Counts limit base repr top step)
    (ds : List UInt8) (errno : Int)
    : steps step ds ⟨top, -1, errno⟩ = some ⟨top, -1, errno⟩ := by
  induction ds with
  | nil => rfl
  | cons d ds ih =>
      rw [steps, List.foldlM_cons, counts.after]
      exact ih

/-- The amount does not fall with more digits. -/
theorem le_foldl_amount {base : Nat} (positive : 0 < base) (ds : List UInt8) (a : Nat)
    : a ≤ ds.foldl (fun v d => v * base + digitValue d) a := by
  induction ds generalizing a with
  | nil => exact Nat.le_refl a
  | cons d ds ih =>
      have := Nat.le_mul_of_pos_right a positive
      exact (by omega : a ≤ a * base + digitValue d).trans (ih _)

theorem Counts.steps_eq {α : Type} {limit base : Nat} {repr : Nat → α} {top : α}
    {step : Int → Digits α → Option (Digits α)} (counts : Counts limit base repr top step)
    {ds : List UInt8} (all : ∀ d ∈ ds, IsDigit base d) (errno : Int) {a : Nat} {any : Int}
    (le : a ≤ limit) (nonneg : 0 ≤ any)
    : steps step ds ⟨repr a, any, errno⟩
      = some (if ds = [] then ⟨repr a, any, errno⟩
        else if limit < ds.foldl (fun v d => v * base + digitValue d) a then ⟨top, -1, ERANGE⟩
        else ⟨repr (ds.foldl (fun v d => v * base + digitValue d) a), 1, errno⟩) := by
  induction ds generalizing a any with
  | nil => rfl
  | cons d ds ih =>
      obtain ⟨i, value, small⟩ := all d (by simp)
      have nonneg' := digit_nonneg value
      have digit : digitValue d = i.toNat := by rw [digitValue, value]; rfl
      have step' := counts.next a (digitValue d) any errno le (by omega) nonneg
      rw [digit, Int.toNat_of_nonneg nonneg', ← digit] at step'
      rw [steps, List.foldlM_cons, value, Option.getD_some, step', List.foldl_cons,
        if_neg (List.cons_ne_nil _ _)]
      by_cases more : limit < a * base + digitValue d
      · have grows := le_foldl_amount (by omega : 0 < base) ds (a * base + digitValue d)
        rw [if_pos more, if_pos (by omega)]
        exact counts.steps_after ds ERANGE
      · rw [if_neg more]
        refine (ih (fun e member => all e (by simp [member])) (by omega) Int.one_nonneg).trans ?_
        by_cases last : ds = []
        · subst last
          rw [if_pos rfl, List.foldl_nil, if_neg more]
        · rw [if_neg last]

theorem max_eq (type : IntType) : type.max = ((2 ^ (type.width - 1) - 1 : Nat) : Int) := by
  have := Nat.two_pow_pos (type.width - 1)
  rw [IntType.max]
  push_cast [Nat.cast_sub this]
  rfl

theorem min_eq (type : IntType) : type.min = -((2 ^ (type.width - 1) : Nat) : Int) := by
  rw [IntType.min]
  push_cast
  rfl

theorem signed_eq (type : IntType) (v : Int) (low : type.min ≤ v) (high : v ≤ type.max)
    : type.signed v = some v :=
  if_pos ⟨low, high⟩

theorem cutoff_positive (type : IntType) (b : Nat)
    : cutoff type false b = ((2 ^ (type.width - 1) - 1) / b : Nat)
      ∧ cutlim type false b = ((2 ^ (type.width - 1) - 1) % b : Nat) := by
  rw [cutoff, cutlim, max_eq, Int.ofNat_tmod, Int.ofNat_tdiv]
  exact ⟨by simp, by simp⟩

theorem cutoff_negative (type : IntType) (b : Nat)
    : cutoff type true b = -(2 ^ (type.width - 1) / b : Nat)
      ∧ cutlim type true b = (2 ^ (type.width - 1) % b : Nat) := by
  have rest : type.min.tmod b = -((2 ^ (type.width - 1) % b : Nat) : Int) := by
    rw [min_eq, Int.neg_tmod, Int.ofNat_tmod]
  have quotient : type.min.tdiv b = -((2 ^ (type.width - 1) / b : Nat) : Int) := by
    rw [min_eq, Int.neg_tdiv, Int.ofNat_tdiv]
  simp only [cutoff, cutlim, if_true, rest, quotient, neg_neg]
  constructor
  · rw [if_neg (by omega)]
  · rw [if_neg (by omega)]

/-- Without a sign the signed loop counts up to the largest value. -/
theorem counts_positive (type : IntType) (b : Nat)
    : Counts (2 ^ (type.width - 1) - 1) b (fun a => (a : Int)) type.max
        (signedStep type false b) where
  next a i any errno le digit nonneg := by
    obtain ⟨off, lim⟩ := cutoff_positive type b
    have exceeds := exceeds_iff (2 ^ (type.width - 1) - 1) a digit
    have positive := Nat.two_pow_pos (type.width - 1)
    have low := min_eq type
    have high := max_eq type
    rw [signedStep, if_neg (by simp only; omega), if_neg (by decide), off, lim]
    by_cases more : 2 ^ (type.width - 1) - 1 < a * b + i
    · rw [if_pos more, if_pos (by have := exceeds.mpr more; simp only; omega)]
    · have fits := mt exceeds.mp more
      rw [if_neg more, if_neg (by simp only; omega)]
      have cast : (a : Int) * b = (a * b : Nat) := (Nat.cast_mul a b).symm
      have product := signed_eq type ((a : Int) * b) (by omega) (by omega)
      have sum := signed_eq type ((a : Int) * b + i) (by omega) (by omega)
      simp [product, sum]
  after i errno := rfl

/-- With a minus sign it counts down to the smallest value. -/
theorem counts_negative (type : IntType) (b : Nat)
    : Counts (2 ^ (type.width - 1)) b (fun a => -(a : Int)) type.min
        (signedStep type true b) where
  next a i any errno le digit nonneg := by
    obtain ⟨off, lim⟩ := cutoff_negative type b
    have exceeds := exceeds_iff (2 ^ (type.width - 1)) a digit
    have low := min_eq type
    have high := max_eq type
    rw [signedStep, if_neg (by simp only; omega), if_pos rfl, off, lim]
    by_cases more : 2 ^ (type.width - 1) < a * b + i
    · rw [if_pos more, if_pos (by have := exceeds.mpr more; simp only; omega)]
    · have fits := mt exceeds.mp more
      rw [if_neg more, if_neg (by simp only; omega)]
      have cast : -(a : Int) * b = -(a * b : Nat) := by
        rw [Int.neg_mul, Nat.cast_mul]
      have product := signed_eq type (-(a : Int) * b) (by omega) (by omega)
      have value : -(a : Int) * b - i = -((a * b + i : Nat) : Int) := by omega
      have sum := signed_eq type (-((a * b + i : Nat) : Int)) (by omega) (by omega)
      simp only [Option.bind_eq_bind, product, Option.bind_some, value, sum]
      rfl
  after i errno := rfl

/-- The unsigned loop counts up to the largest value. -/
theorem counts_unsigned (type : IntType) (neg : Bool) (b : Nat)
    : Counts type.umax b (fun a => a) type.umax (unsignedStep type neg b) where
  next a i any errno le digit nonneg := by
    have exceeds := exceeds_iff type.umax a digit
    rw [unsignedStep, if_neg (by simp only; omega), Int.toNat_natCast]
    by_cases more : type.umax < a * b + i
    · rw [if_pos more, if_pos (by have := exceeds.mpr more; simp only; omega)]
    · have fits := mt exceeds.mp more
      have positive := Nat.two_pow_pos type.width
      have limit : type.umax = 2 ^ type.width - 1 := rfl
      have product : a * b % 2 ^ type.width = a * b := Nat.mod_eq_of_lt (by omega)
      have sum : (a * b + i) % 2 ^ type.width = a * b + i := Nat.mod_eq_of_lt (by omega)
      rw [if_neg more, if_neg (by simp only; omega)]
      simp only [product, Int.toNat_natCast, sum]
  after i errno := rfl

-----------------------------------------------------------------------------------------
-- The conversions
-----------------------------------------------------------------------------------------

/-- The value in a signed type: the nearest one, and `ERANGE` when that is another one. -/
def IntType.signedResult (type : IntType) (v : Int) (endptr : Nat) (errno : Int) : Result Int where
  value := Max.max type.min (Min.min type.max v)
  endptr := endptr
  errno := if v < type.min ∨ type.max < v then ERANGE else errno

/-- The value in an unsigned type: modulo its size, but the largest value and `ERANGE` when the amount
is larger.
-/
def IntType.unsignedResult (type : IntType) (v : Int) (endptr : Nat) (errno : Int) : Result Nat where
  value := if type.umax < v.natAbs then type.umax else (v % 2 ^ type.width).toNat
  endptr := endptr
  errno := if type.umax < v.natAbs then ERANGE else errno

theorem unsignedFinish_eq (type : IntType) (neg : Bool) {a : Nat} (fits : a ≤ type.umax) (errno : Int)
    : unsignedFinish type neg ⟨a, 1, errno⟩
      = ((if neg then -(a : Int) else a) % 2 ^ type.width).toNat := by
  have positive := Nat.two_pow_pos type.width
  have limit : type.umax = 2 ^ type.width - 1 := rfl
  have size : (2 ^ type.width : Int) = (2 ^ type.width : Nat) := by push_cast; rfl
  rw [size, unsignedFinish]
  cases neg with
  | true =>
      have shift : -(a : Int) = ((2 ^ type.width - a : Nat) : Int) + -1 * (2 ^ type.width : Nat) := by
        omega
      rw [if_pos ⟨rfl, by simp⟩, if_pos rfl, shift, Int.add_mul_emod_self_right, ← Int.natCast_mod,
        Int.toNat_natCast]
  | false =>
      have small : a % 2 ^ type.width = a := Nat.mod_eq_of_lt (by omega)
      rw [if_neg (by simp), if_neg (by simp), ← Int.natCast_mod, Int.toNat_natCast, small]

/-- The result of a conversion whose loop counts. -/
theorem convert_counts {α : Type} {loc : Locale} {text : Text} {base errno : Int} {zero : α}
    {step : Bool → Int → Int → Digits α → Option (Digits α)} {finish : Bool → Digits α → α}
    (valid : ValidBase base) {limit : Bool → Nat} {repr : Bool → Nat → α} {top : Bool → α}
    (counts : ∀ (neg : Bool) (b : Nat), Counts (limit neg) b (repr neg) (top neg) (step neg b))
    (start : ∀ neg, repr neg 0 = zero) {n : Numeral} (numeral : n = subject loc base text.bytes)
    : convert loc text base errno zero step finish
      = some (if n.digits = [] then ⟨finish n.neg ⟨zero, 0, errno⟩, 0, errno⟩
        else if limit n.neg < n.amount base then
          ⟨finish n.neg ⟨top n.neg, -1, ERANGE⟩, n.bytes.length, ERANGE⟩
        else ⟨finish n.neg ⟨repr n.neg (n.amount base), 1, errno⟩, n.bytes.length, errno⟩) := by
  obtain ⟨radix, low, _, all, same, call⟩ := convert_eq loc text base errno zero step finish valid
  rw [← numeral] at all same call
  obtain ⟨b, rfl⟩ := Int.eq_ofNat_of_zero_le (by omega : 0 ≤ radix)
  have loop := (counts n.neg b).steps_eq all errno (Nat.zero_le _) (Int.le_refl 0)
  rw [start] at loop
  rw [call, loop]
  by_cases present : n.digits = []
  · rw [if_pos present, if_pos present]
    rfl
  · have amount : n.digits.foldl (fun v d => v * b + digitValue d) 0 = n.amount base := by
      rw [Numeral.amount, ← same present]
      rfl
    rw [if_neg present, if_neg present, amount]
    split_ifs <;> rfl

section

variable {base : Int} (type : IntType) (loc : Locale) (text : Text) (errno : Int)
  (valid : ValidBase base) {n : Numeral} (numeral : n = subject loc base text.bytes)

include valid numeral

theorem toSigned_eq
    : toSigned type loc text base errno
      = some (if n.digits = [] then ⟨0, 0, errno⟩
        else type.signedResult (n.value base) n.bytes.length errno) := by
  have counts (neg : Bool) (b : Nat)
      : Counts (if neg then 2 ^ (type.width - 1) else 2 ^ (type.width - 1) - 1) b
          (fun a => if neg then -(a : Int) else a) (if neg then type.min else type.max)
          (signedStep type neg b) := by
    cases neg with
    | true => exact counts_negative type b
    | false => exact counts_positive type b
  rw [toSigned, convert_counts valid counts (by simp) numeral]
  have highest := max_eq type
  have lowest := min_eq type
  have positive := Nat.two_pow_pos (type.width - 1)
  by_cases present : n.digits = []
  · rw [if_pos present, if_pos present]
  · rw [if_neg present, if_neg present, IntType.signedResult, Numeral.value]
    cases n.neg with
    | true =>
        simp only [if_true]
        by_cases large : 2 ^ (type.width - 1) < n.amount base
        · rw [if_pos large, if_pos (by omega), min_eq_right (by omega),
            max_eq_left (by omega)]
        · rw [if_neg large, if_neg (by omega), min_eq_right (by omega), max_eq_right (by omega)]
    | false =>
        simp only [Bool.false_eq_true, if_false]
        by_cases large : 2 ^ (type.width - 1) - 1 < n.amount base
        · rw [if_pos large, if_pos (by omega), min_eq_left (by omega), max_eq_right (by omega)]
        · rw [if_neg large, if_neg (by omega), min_eq_right (by omega), max_eq_right (by omega)]

theorem toUnsigned_eq
    : toUnsigned type loc text base errno
      = some (if n.digits = [] then ⟨0, 0, errno⟩
        else type.unsignedResult (n.value base) n.bytes.length errno) := by
  rw [toUnsigned, convert_counts valid (counts_unsigned type) (fun _ => rfl) numeral]
  have amount : (n.value base).natAbs = n.amount base := by
    rw [Numeral.value]
    split <;> simp
  rw [IntType.unsignedResult, amount]
  by_cases present : n.digits = []
  · rw [if_pos present, if_pos present]
    simp [unsignedFinish]
  · rw [if_neg present, if_neg present]
    by_cases large : type.umax < n.amount base
    · rw [if_pos large, if_pos large, if_pos large]
      simp [unsignedFinish]
    · rw [if_neg large, if_neg large, if_neg large, unsignedFinish_eq type n.neg (by omega),
        Numeral.value]

end

/-- The longest numeral is what the conversion takes. -/
theorem Longest.eq_subject {loc : Locale} {base : Int} {text : Text} {n : Numeral}
    (longest : Longest loc base text n)
    : n = subject loc base text.bytes := by
  obtain ⟨present, same | less⟩ := valid_le_subject longest.valid longest.start
  · exact same
  · have := longest.longest _ (subject_valid present) (subject_bytes loc base text.bytes)
    omega

theorem subject_longest {loc : Locale} {base : Int} {text : Text}
    (present : (subject loc base text.bytes).digits ≠ [])
    : Longest loc base text (subject loc base text.bytes) where
  valid := subject_valid present
  start := subject_bytes loc base text.bytes
  longest m valid start := by
    rcases (valid_le_subject valid start).2 with same | less
    · rw [← same]
    · exact Nat.le_of_lt less

theorem subject_none {loc : Locale} {base : Int} {text : Text}
    (none : ∀ n : Numeral, n.Valid loc base → ¬ n.bytes <+: text.bytes)
    : (subject loc base text.bytes).digits = [] := by
  by_contra present
  exact none _ (subject_valid present) (subject_bytes loc base text.bytes)

/-- The conversions give the value of the longest numeral that a string starts with, as far as it
fits, and its end also when the value does not fit; without such a numeral they give zero and the
start. No signed operation of theirs overflows and no byte behind the NUL is read, since else there
is no result. The functions of the templates differ in the type only.
-/
theorem conversions_exact (type : IntType) (loc : Locale) (text : Text) (base errno : Int)
    (valid : ValidBase base)
    : (∀ n, Longest loc base text n
        → toSigned type loc text base errno
            = some (type.signedResult (n.value base) n.bytes.length errno)
          ∧ toUnsigned type loc text base errno
            = some (type.unsignedResult (n.value base) n.bytes.length errno))
      ∧ ((∀ n : Numeral, n.Valid loc base → ¬ n.bytes <+: text.bytes)
        → toSigned type loc text base errno = some ⟨0, 0, errno⟩
          ∧ toUnsigned type loc text base errno = some ⟨0, 0, errno⟩) := by
  have signed := toSigned_eq type loc text errno valid rfl
  have unsigned := toUnsigned_eq type loc text errno valid rfl
  constructor
  · intro n longest
    rw [← longest.eq_subject, if_neg longest.valid.present] at signed unsigned
    exact ⟨signed, unsigned⟩
  · intro none
    rw [if_pos (subject_none none)] at signed unsigned
    exact ⟨signed, unsigned⟩

/-- The white space of the C locale. -/
def cLocale : Locale := ⟨fun c => Ctype.isspace c.toNat, by decide⟩

/-- A number in base sixteen with a letter behind it. -/
def hexText : Text := ⟨[0x20, 0x2d, 0x30, 0x78, 0x31, 0x66, 0x7a], by decide⟩

theorem conversions_exact_hex
    : strtol cLocale hexText 0 7 = some ⟨-31, 6, 7⟩
      ∧ strtoul cLocale hexText 0 7 = some ⟨2 ^ 64 - 31, 6, 7⟩ := by
  have both := (conversions_exact long cLocale hexText 0 7 (.inl rfl)).1 _ (subject_longest (by decide))
  refine ⟨both.1.trans ?_, both.2.trans ?_⟩ <;> decide +kernel

end BSDLibC.Strto
