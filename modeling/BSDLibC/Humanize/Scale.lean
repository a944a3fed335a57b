import BSDLibC.Bytes.Numeral
import Mathlib.Tactic.Ring

/-! `humanize_number`, and when the scale it chooses is the least that fits and the number it prints is
rounded. Signed operations are checked: there is nothing when one overflows.
-/

namespace BSDLibC.Humanize
open BSDLibC.Bytes

def HN_DECIMAL : Nat := 0x01
def HN_NOSPACE : Nat := 0x02
def HN_B : Nat := 0x04
def HN_DIVISOR_1000 : Nat := 0x08
def HN_GETSCALE : Nat := 0x10
def HN_AUTOSCALE : Nat := 0x20

def INT64_MAX : Nat := 2 ^ 63 - 1

def maxscale : Nat := 6

-----------------------------------------------------------------------------------------
-- The function
-----------------------------------------------------------------------------------------

/-- A result of an operation on an `int64_t` that is not negative. -/
def checked (n : Nat) : Option Nat := if n ≤ INT64_MAX then some n else none

/-- The variables before a scale is chosen. The length of the separator and of the suffix is not yet
added.
-/
structure Amount where
  sign : Int
  bytes : Nat
  post : Nat
  baselen : Nat

/-- The magnitude of a number, times 100 where that is small enough. -/
def amount (bytes : Int) : Option Amount :=
  if bytes < 0 then do
    let bytes ← checked bytes.natAbs
    if bytes < INT64_MAX / 100 then
      return ⟨-1, ← checked (bytes * 100), 1, 3⟩
    else
      return ⟨-1, bytes, 100, 5⟩
  else if bytes.natAbs < INT64_MAX / 100 then do
    return ⟨1, ← checked (bytes.natAbs * 100), 1, 2⟩
  else
    return ⟨1, bytes.natAbs, 100, 4⟩

/-- The loop that multiplies `max` for each column. -/
def maxLoop : Nat → Nat → Option Nat
  | 0, max => some max
  | j + 1, max => do maxLoop j (← checked (max * 10))

/-- The loop that divides as long as a limit is reached, and its rounds. -/
def scaleLoop (divisor limit : Nat) : Nat → Nat → Nat → Nat × Nat
  | 0, i, bytes => (i, bytes)
  | rounds + 1, i, bytes =>
      if limit ≤ bytes then scaleLoop divisor limit rounds (i + 1) (bytes / divisor) else (i, bytes)

/-- `SCALE2PREFIX`. -/
def scale2Prefix (flags i : Nat) : List UInt8 :=
  match i with
  | 0 => if flags &&& HN_B ≠ 0 then [0x42] else []
  | 1 => if flags &&& HN_DIVISOR_1000 ≠ 0 then [0x6b] else [0x4b]
  | 2 => [0x4d]
  | 3 => [0x47]
  | 4 => [0x54]
  | 5 => [0x50]
  | _ => [0x45]

/-- A number as `PRId64` and `%d` print it. -/
def decimal (n : Int) : List UInt8 :=
  if n < 0 then 0x2d :: numeral 10 n.natAbs else numeral 10 n.natAbs

def sep (flags : Nat) : List UInt8 := if flags &&& HN_NOSPACE ≠ 0 then [] else [0x20]

def divisor (flags : Nat) : Nat := if flags &&& HN_DIVISOR_1000 ≠ 0 then 1000 else 1024

/-- What the function does: it returns -1, or the scale, or what `snprintf` gives with the text in the
buffer.
-/
inductive Result where
  | error
  | scale (i : Nat)
  | text (r : Int) (buf : List UInt8)

/-- `snprintf`, and the check of what it returns. -/
def printed (len : Nat) (text : List UInt8) : Result :=
  .text (if len < text.length then -1 else text.length) (text.take (len - 1))

/-- The part of the function that prints. The decimal point is that of the locale. -/
def printNumber (point : List UInt8) (len : Nat) (suffix : List UInt8) (flags : Nat) (n : Amount)
    (baselen i bytes : Nat)
    : Option Result :=
  if i = 0 then
    let bytes := if n.post = 1 then bytes / 100 else bytes
    some (printed len (decimal (n.sign * bytes) ++ (sep flags ++ (scale2Prefix flags 0 ++ suffix))))
  else do
    let bytes ← checked (bytes * n.post)
    if bytes < 995 ∧ flags &&& HN_DECIMAL ≠ 0 then
      if len < baselen + 1 + 1 + point.length then
        return .error
      else
        let b := (bytes + 5) / 10
        return printed len (decimal (n.sign * (b / 10 : Nat)) ++ (point ++ (decimal (b % 10 : Nat)
          ++ (sep flags ++ (scale2Prefix flags i ++ suffix)))))
    else do
      let bytes ← checked (bytes + 50)
      return printed len (decimal (n.sign * (bytes / 100 : Nat))
        ++ (sep flags ++ (scale2Prefix flags i ++ suffix)))

/-- The scale that is chosen for the columns there are, and what is left of the magnitude. -/
def chooseScale (flags columns bytes : Nat) : Option (Nat × Nat) :=
  if 19 < columns then
    some (0, bytes)
  else
    (maxLoop columns 100).map fun max => scaleLoop (divisor flags) (max - 50) maxscale 0 bytes

def humanizeNumber (point : List UInt8) (len : Nat) (bytes : Int64) (suffix : List UInt8) (scale : Int)
    (flags : Nat)
    : Option Result :=
  let auto := scale.toNat &&& (HN_AUTOSCALE ||| HN_GETSCALE) ≠ 0
  if scale < 0 ∨ (maxscale < scale.toNat ∧ ¬ auto) then
    some .error
  else do
    let n ← amount bytes.toInt
    let baselen := n.baselen + (sep flags).length + suffix.length
    if len < baselen + 1 then
      return .error
    else if auto then do
      let (i, bytes) ← chooseScale flags (len - baselen) n.bytes
      if scale.toNat &&& HN_GETSCALE ≠ 0 then
        return .scale i
      else
        printNumber point len suffix flags n baselen i bytes
    else
      let (i, bytes) := scaleLoop (divisor flags) 0 (min scale.toNat maxscale) 0 n.bytes
      printNumber point len suffix flags n baselen i bytes

-----------------------------------------------------------------------------------------
-- What is promised
-----------------------------------------------------------------------------------------

/-- A fraction rounded to an integer, halves up. -/
def rounded (x d : Nat) : Nat := (2 * x + d) / (2 * d)

/-- The least scale for which a magnitude, rounded, has no more digits than there are columns. -/
def Smallest (x divisor columns i : Nat) : Prop :=
  i ≤ maxscale ∧ rounded x (divisor ^ i) < 10 ^ columns
    ∧ ∀ k < i, 10 ^ columns ≤ rounded x (divisor ^ k)

section

variable (point : List UInt8) (len : Nat) (bytes : Int64) (suffix : List UInt8) (scale : Int) (flags : Nat)

/-- The magnitude. -/
def magnitude : Nat := bytes.toInt.natAbs

/-- The columns that the sign, the prefix, the separator and the suffix leave. -/
def columns : Nat :=
  len - ((if bytes.toInt < 0 then 3 else 2) + (sep flags).length + suffix.length)

/-- What the function takes for the length of all but the digits behind the first: two more where the
magnitude is not multiplied before.
-/
def baselen : Nat :=
  (if bytes.toInt < 0 then 3 else 2) + (if magnitude bytes < INT64_MAX / 100 then 0 else 2)
    + (sep flags).length + suffix.length

/-- The text with the number rounded to an integer, or to a tenth where there is to be one. -/
def roundedText (i : Nat) : List UInt8 :=
  let d := divisor flags ^ i
  let tenths := rounded (10 * magnitude bytes) d
  (if i ≠ 0 ∧ flags &&& HN_DECIMAL ≠ 0 ∧ 100 * magnitude bytes / d < 995 then
      (if bytes.toInt < 0 ∧ tenths ≠ 0 then [0x2d] else [])
        ++ (numeral 10 (tenths / 10) ++ (point ++ numeral 10 (tenths % 10)))
    else
      decimal ((if bytes.toInt < 0 then -1 else 1) * (rounded (magnitude bytes) d : Nat)))
    ++ (sep flags ++ (scale2Prefix flags i ++ suffix))

/-- What is promised: nothing overflows, the scale chosen is the least, and it is returned, or the rounded
number is printed with it. A number with a tenth may be too long.
-/
def Scales : Prop :=
  ∃ n i left, amount bytes.toInt = some n
    ∧ chooseScale flags (len - baselen bytes suffix flags) n.bytes = some (i, left)
    ∧ Smallest (magnitude bytes) (divisor flags) (columns len bytes suffix flags) i
    ∧ if scale.toNat &&& HN_GETSCALE ≠ 0 then
        humanizeNumber point len bytes suffix scale flags = some (.scale i)
      else
        (humanizeNumber point len bytes suffix scale flags = some .error
            ∧ i ≠ 0 ∧ flags &&& HN_DECIMAL ≠ 0)
          ∨ humanizeNumber point len bytes suffix scale flags
            = some (.text (roundedText point bytes suffix flags i).length
                (roundedText point bytes suffix flags i))

/-- The magnitude is not in the gap below the limit at any scale: the limit is less by 50, which is a
half only for what is multiplied by 100.
-/
def NoGap : Prop :=
  ∀ i ≤ maxscale, ¬ (10 ^ columns len bytes suffix flags ≤ magnitude bytes / divisor flags ^ i + 50
    ∧ rounded (magnitude bytes) (divisor flags ^ i) < 10 ^ columns len bytes suffix flags)

/-- The magnitude is rounded down at the least scale. -/
def RoundsDown : Prop :=
  ∀ i, i ≠ 0 → Smallest (magnitude bytes) (divisor flags) (columns len bytes suffix flags) i
    → (flags &&& HN_DECIMAL ≠ 0 ∧ magnitude bytes / divisor flags ^ i < 10)
      ∨ 2 * (magnitude bytes % divisor flags ^ i) < divisor flags ^ i

end

-----------------------------------------------------------------------------------------
-- Rounding
-----------------------------------------------------------------------------------------

/-- What a truncated multiple of a fraction rounds to is what the fraction rounds to. -/
theorem le_rounded {half d : Nat} (positive : 0 < half) (divides : 0 < d) (x m : Nat)
    : m ≤ (2 * half * x / d + half) / (2 * half) ↔ m ≤ rounded x d := by
  cases m with
  | zero => simp
  | succ m =>
      rw [rounded, Nat.le_div_iff_mul_le (by omega), Nat.le_div_iff_mul_le (by omega)]
      have up : (m + 1) * (2 * half) ≤ 2 * half * x / d + half
          ↔ (2 * m + 1) * half ≤ 2 * half * x / d := by
        have split : (m + 1) * (2 * half) = (2 * m + 1) * half + half := by ring
        omega
      have split : (m + 1) * (2 * d) = (2 * m + 1) * d + d := by ring
      rw [up, Nat.le_div_iff_mul_le divides, split, Nat.add_le_add_iff_right,
        show (2 * m + 1) * half * d = half * ((2 * m + 1) * d) by ring,
        show 2 * half * x = half * (2 * x) by ring, Nat.mul_le_mul_left_iff positive]

theorem rounded_eq {half d : Nat} (positive : 0 < half) (divides : 0 < d) (x : Nat)
    : (2 * half * x / d + half) / (2 * half) = rounded x d :=
  Nat.le_antisymm ((le_rounded positive divides x _).mp (Nat.le_refl _))
    ((le_rounded positive divides x _).mpr (Nat.le_refl _))

theorem rounded_one (x : Nat)
    : rounded x 1 = x := by
  rw [rounded]
  omega

/-- A fraction is rounded down or up. -/
theorem rounded_cases {d : Nat} (divides : 0 < d) (x : Nat)
    : rounded x d = if 2 * (x % d) < d then x / d else x / d + 1 := by
  have whole := Nat.div_add_mod x d
  have part := Nat.mod_lt x divides
  rw [rounded]
  split
  · refine (Nat.div_eq_iff (by omega)).mpr ⟨?_, ?_⟩
    · rw [show x / d * (2 * d) = 2 * (d * (x / d)) by ring]
      omega
    · rw [show x / d * (2 * d) = 2 * (d * (x / d)) by ring]
      omega
  · refine (Nat.div_eq_iff (by omega)).mpr ⟨?_, ?_⟩
    · rw [show (x / d + 1) * (2 * d) = 2 * (d * (x / d)) + 2 * d by ring]
      omega
    · rw [show (x / d + 1) * (2 * d) = 2 * (d * (x / d)) + 2 * d by ring]
      omega

-----------------------------------------------------------------------------------------
-- The loops
-----------------------------------------------------------------------------------------

theorem maxLoop_spec (j max : Nat) (fits : max ≤ INT64_MAX)
    : maxLoop j max = if max * 10 ^ j ≤ INT64_MAX then some (max * 10 ^ j) else none := by
  induction j generalizing max with
  | zero => simp [maxLoop, fits]
  | succ j ih =>
      rw [maxLoop, checked, show max * 10 ^ (j + 1) = max * 10 * 10 ^ j by ring]
      by_cases small : max * 10 ≤ INT64_MAX
      · rw [if_pos small]
        exact ih _ small
      · have large : ¬ max * 10 * 10 ^ j ≤ INT64_MAX := fun all =>
          small (Nat.le_trans (Nat.le_mul_of_pos_right _ (Nat.pow_pos (by decide))) all)
        rw [if_neg small, if_neg large]
        rfl

/-- `max` is right for the columns up to 16, and overflows for three lengths more. -/
theorem maxLoop_columns (j : Nat) (few : j ≤ 19)
    : maxLoop j 100 = if j ≤ 16 then some (100 * 10 ^ j) else none := by
  rw [maxLoop_spec j 100 (by decide)]
  have power : 100 * 10 ^ j ≤ INT64_MAX ↔ j ≤ 16 := by
    rw [show 100 * 10 ^ j = 10 ^ (j + 2) by ring]
    constructor
    · intro fits
      by_contra more
      have large := Nat.pow_le_pow_right (n := 10) (by decide) (show 19 ≤ j + 2 by omega)
      exact absurd (large.trans fits) (by decide)
    · intro few
      exact (Nat.pow_le_pow_right (n := 10) (by decide) (show j + 2 ≤ 18 by omega)).trans (by decide)
  simp only [power]

/-- The loop divides up to the first scale below the limit. -/
theorem scaleLoop_spec {divisor limit bytes rounds : Nat} (i : Nat)
    (ends : bytes / divisor ^ rounds < limit)
    : ∃ n ≤ rounds, scaleLoop divisor limit rounds i bytes = (i + n, bytes / divisor ^ n)
      ∧ bytes / divisor ^ n < limit ∧ ∀ k < n, limit ≤ bytes / divisor ^ k := by
  induction rounds generalizing i bytes with
  | zero => exact ⟨0, Nat.le_refl 0, by simp [scaleLoop], ends, nofun⟩
  | succ rounds ih =>
      rw [scaleLoop]
      by_cases reached : limit ≤ bytes
      · have next : bytes / divisor / divisor ^ rounds < limit := by
          rwa [Nat.div_div_eq_div_mul, Nat.mul_comm, ← Nat.pow_succ]
        obtain ⟨n, within, same, below, before⟩ := ih (i + 1) next
        have again : ∀ k, bytes / divisor / divisor ^ k = bytes / divisor ^ (k + 1) := fun k => by
          rw [Nat.div_div_eq_div_mul, Nat.mul_comm, ← Nat.pow_succ]
        refine ⟨n + 1, by omega, ?_, again n ▸ below, ?_⟩
        · rw [if_pos reached, same, again, Nat.add_right_comm, Nat.add_assoc]
        · intro k inside
          cases k with
          | zero => simpa using reached
          | succ k => exact again k ▸ before k (by omega)
      · rw [if_neg reached]
        exact ⟨0, by omega, by simp, by simpa using reached, nofun⟩

-----------------------------------------------------------------------------------------
-- The amount
-----------------------------------------------------------------------------------------

section

variable {point : List UInt8} {len : Nat} {bytes : Int64} {suffix : List UInt8} {scale : Int} {flags : Nat}

theorem magnitude_le (bytes : Int64)
    : magnitude bytes ≤ INT64_MAX + 1 := by
  have low := bytes.le_toInt
  have high := bytes.toInt_lt
  simp only [magnitude, INT64_MAX]
  omega

/-- The magnitude of a number that has an opposite is multiplied by 100, or `post` is 100. -/
theorem amount_spec (opposite : magnitude bytes ≤ INT64_MAX)
    : amount bytes.toInt = some (if magnitude bytes < INT64_MAX / 100
        then ⟨if bytes.toInt < 0 then -1 else 1, 100 * magnitude bytes, 1, if bytes.toInt < 0 then 3 else 2⟩
        else ⟨if bytes.toInt < 0 then -1 else 1, magnitude bytes, 100,
          (if bytes.toInt < 0 then 3 else 2) + 2⟩) := by
  have small : magnitude bytes < INT64_MAX / 100 → magnitude bytes * 100 ≤ INT64_MAX := fun less => by
    simp only [INT64_MAX] at less ⊢
    omega
  unfold magnitude at *
  by_cases negative : bytes.toInt < 0
  · by_cases less : bytes.toInt.natAbs < INT64_MAX / 100
    · simp [amount, negative, less, checked, opposite, small less, Nat.mul_comm]
    · simp [amount, negative, less, checked, opposite]
  · by_cases less : bytes.toInt.natAbs < INT64_MAX / 100
    · simp [amount, negative, less, checked, small less, Nat.mul_comm]
    · simp [amount, negative, less]

theorem amount_none (least : ¬ magnitude bytes ≤ INT64_MAX)
    : amount bytes.toInt = none := by
  have low := bytes.le_toInt
  have high := bytes.toInt_lt
  have negative : bytes.toInt < 0 := by
    simp only [magnitude, INT64_MAX] at least
    omega
  simp only [amount, if_pos negative, checked]
  rw [if_neg (show ¬ bytes.toInt.natAbs ≤ INT64_MAX from least)]
  rfl

theorem divisor_cases (flags : Nat)
    : divisor flags = 1000 ∨ divisor flags = 1024 := by
  rw [divisor]
  split
  · exact .inl rfl
  · exact .inr rfl

theorem divisor_pow_pos (flags i : Nat)
    : 0 < divisor flags ^ i := by
  rcases divisor_cases flags with same | same
  all_goals exact same ▸ Nat.pow_pos (by decide)

theorem divisor_pow_ge (flags : Nat) {i : Nat} (later : i ≠ 0)
    : 1000 ≤ divisor flags ^ i := by
  refine Nat.le_trans ?_ (Nat.le_self_pow later (divisor flags))
  rcases divisor_cases flags with same | same
  · exact same.ge
  · rw [same]
    decide

/-- At the greatest scale little is left. -/
theorem div_maxscale (flags x : Nat)
    : x / divisor flags ^ maxscale ≤ x / 1000 ^ 6 := by
  refine Nat.div_le_div_left ?_ (by decide)
  rcases divisor_cases flags with same | same
  all_goals
    rw [same]
    decide

-----------------------------------------------------------------------------------------
-- Texts
-----------------------------------------------------------------------------------------

theorem decimal_nonneg (m : Nat)
    : decimal m = numeral 10 m := by
  rw [decimal, if_neg (by omega), Int.natAbs_natCast]

theorem decimal_signed (m : Nat)
    : decimal ((if bytes.toInt < 0 then -1 else 1) * m)
      = (if bytes.toInt < 0 ∧ m ≠ 0 then [0x2d] else []) ++ numeral 10 m := by
  by_cases negative : bytes.toInt < 0
  · by_cases zero : m = 0
    · simp [zero, decimal]
    · have below : (-1 * (m : Int)) < 0 := by omega
      rw [if_pos negative, decimal, if_pos below, if_pos ⟨negative, zero⟩]
      simp
  · simp only [one_mul, negative, false_and, if_false, List.nil_append, decimal_nonneg]

theorem decimal_injective {m n : Nat}
    (same : decimal ((if bytes.toInt < 0 then -1 else 1) * m)
      = decimal ((if bytes.toInt < 0 then -1 else 1) * n))
    : m = n := by
  have noSign : ∀ k, (numeral 10 k).head? ≠ some 0x2d := by
    intro k head
    obtain ⟨rest, digits⟩ := List.head?_eq_some_iff.mp head
    have inside : (0x2d : UInt8) ∈ numeral 10 k := digits ▸ List.mem_cons_self
    obtain ⟨d, member, dash⟩ := List.mem_map.mp inside
    have all : ∀ d : Fin 10, digitByte d ≠ 0x2d := by decide
    exact all ⟨d, numeralDigits_lt (by decide) member⟩ dash
  rw [decimal_signed, decimal_signed] at same
  refine @numeral_injective 10 m n (by decide) (by decide) ?_
  split at same
  · split at same
    · exact List.append_cancel_left same
    · exact absurd (congrArg List.head? same).symm (noSign n)
  · split at same
    · exact absurd (congrArg List.head? same) (noSign m)
    · exact same

theorem length_decimal {m k : Nat} (positive : 0 < k) (small : m < 10 ^ k)
    : (decimal ((if bytes.toInt < 0 then -1 else 1) * m)).length
      ≤ (if bytes.toInt < 0 then 1 else 0) + k := by
  have digits := numeralDigits_length_le (by decide) positive small
  rw [decimal_signed, List.length_append, length_numeral]
  by_cases negative : bytes.toInt < 0
  · rw [if_pos negative]
    split
    · rw [List.length_singleton]
      omega
    · rw [List.length_nil]
      omega
  · rw [if_neg (fun both => negative both.1), if_neg negative, List.length_nil]
    omega

theorem length_scale2Prefix (flags i : Nat)
    : (scale2Prefix flags i).length ≤ 1 := by
  rcases i with _ | _ | _ | _ | _ | _ | i
  all_goals
    simp only [scale2Prefix]
    try split
    all_goals simp

theorem printed_whole {text : List UInt8} (room : text.length < len)
    : printed len text = .text text.length text := by
  rw [printed, if_neg (by omega), List.take_of_length_le (by omega)]

-----------------------------------------------------------------------------------------
-- The scale
-----------------------------------------------------------------------------------------

theorem chooseScale_overflows (flags : Nat) {columns : Nat} (overflow : 17 ≤ columns ∧ columns ≤ 19)
    (x : Nat)
    : chooseScale flags columns x = none := by
  rw [chooseScale, if_neg (by omega), maxLoop_columns columns overflow.2, if_neg (by omega), Option.map_none]

theorem chooseScale_many (flags : Nat) {columns : Nat} (many : 19 < columns) (x : Nat)
    : chooseScale flags columns x = some (0, x) := by
  rw [chooseScale, if_pos many]

/-- The scale is the first with less than the limit. -/
theorem chooseScale_few (flags : Nat) {columns x : Nat} (few : columns ≤ 16) (fits : x ≤ INT64_MAX + 1)
    : ∃ i ≤ maxscale, chooseScale flags columns x = some (i, x / divisor flags ^ i)
      ∧ x / divisor flags ^ i < 100 * 10 ^ columns - 50
      ∧ ∀ k < i, 100 * 10 ^ columns - 50 ≤ x / divisor flags ^ k := by
  have ends : x / divisor flags ^ maxscale < 100 * 10 ^ columns - 50 := by
    have left := div_maxscale flags x
    have power : 0 < 10 ^ columns := Nat.pow_pos (by decide)
    have most : x / 1000 ^ 6 ≤ 9 := by
      simp only [INT64_MAX] at fits
      omega
    omega
  obtain ⟨i, within, chosen, below, before⟩ := scaleLoop_spec 0 ends
  refine ⟨i, within, ?_, below, before⟩
  rw [chooseScale, if_neg (by omega), maxLoop_columns columns (by omega), if_pos few, Option.map_some, chosen,
    Nat.zero_add]

/-- The limit is that of rounding for what is multiplied by 100. -/
theorem limit_iff {d : Nat} (divides : 0 < d) (x columns : Nat)
    : 100 * 10 ^ columns - 50 ≤ 100 * x / d ↔ 10 ^ columns ≤ rounded x d := by
  have limit : 10 ^ columns ≤ (100 * x / d + 50) / 100 ↔ 10 ^ columns ≤ rounded x d :=
    @le_rounded 50 d (by decide) divides x (10 ^ columns)
  rw [Nat.le_div_iff_mul_le (by decide)] at limit
  rw [← limit]
  generalize 100 * x / d = q
  omega

/-- With the multiplied magnitude, the least scale is chosen. -/
theorem chooseScale_small (flags : Nat) {columns x : Nat} (room : 0 < columns)
    (even : ¬ (17 ≤ columns ∧ columns ≤ 19)) (small : x < INT64_MAX / 100)
    : ∃ i, chooseScale flags columns (100 * x) = some (i, 100 * x / divisor flags ^ i)
      ∧ Smallest x (divisor flags) columns i := by
  by_cases many : 19 < columns
  · refine ⟨0, by simp [chooseScale_many flags many], by decide, ?_, nofun⟩
    rw [pow_zero, rounded_one]
    refine Nat.lt_of_lt_of_le small (Nat.le_trans ?_ (Nat.pow_le_pow_right (by decide) many))
    decide
  · have fits : 100 * x ≤ INT64_MAX + 1 := by
      simp only [INT64_MAX] at small ⊢
      omega
    have few : columns ≤ 16 := by omega
    obtain ⟨i, within, chosen, below, before⟩ := chooseScale_few flags few fits
    refine ⟨i, chosen, within, ?_, fun k inside => ?_⟩
    · have unlimited := (limit_iff (divisor_pow_pos flags i) x columns).not
      omega
    · exact (limit_iff (divisor_pow_pos flags k) x columns).mp (before k inside)

-----------------------------------------------------------------------------------------
-- Printing
-----------------------------------------------------------------------------------------

/-- The text with an integer has room for its columns. -/
theorem length_integerText {m : Nat} (room : 0 < columns len bytes suffix flags)
    (fits : m < 10 ^ columns len bytes suffix flags) (i : Nat)
    : (decimal ((if bytes.toInt < 0 then -1 else 1) * m)
        ++ (sep flags ++ (scale2Prefix flags i ++ suffix))).length < len := by
  have digits : (decimal ((if bytes.toInt < 0 then -1 else 1) * m)).length
      ≤ (if bytes.toInt < 0 then 1 else 0) + columns len bytes suffix flags :=
    length_decimal room fits
  have letter := length_scale2Prefix flags i
  simp only [List.length_append]
  unfold columns at digits room
  by_cases negative : bytes.toInt < 0
  · simp only [if_pos negative] at digits room ⊢
    omega
  · simp only [if_neg negative] at digits room ⊢
    omega

theorem roundedText_integer {i : Nat}
    (plain : ¬ (i ≠ 0 ∧ flags &&& HN_DECIMAL ≠ 0 ∧ 100 * magnitude bytes / divisor flags ^ i < 995))
    : roundedText point bytes suffix flags i
      = decimal ((if bytes.toInt < 0 then -1 else 1)
          * (rounded (magnitude bytes) (divisor flags ^ i) : Nat))
        ++ (sep flags ++ (scale2Prefix flags i ++ suffix)) := by
  rw [roundedText, if_neg plain]

/-- A number that is not divided is printed as it is. -/
theorem printNumber_zero {n : Amount} {left : Nat} (sign : n.sign = if bytes.toInt < 0 then -1 else 1)
    (whole : (if n.post = 1 then left / 100 else left) = magnitude bytes)
    (room : 0 < columns len bytes suffix flags)
    (fits : magnitude bytes < 10 ^ columns len bytes suffix flags) (base : Nat)
    : printNumber point len suffix flags n base 0 left
      = some (.text (roundedText point bytes suffix flags 0).length
          (roundedText point bytes suffix flags 0)) := by
  rw [roundedText_integer (by simp), pow_zero, rounded_one]
  simp only [printNumber, if_true, whole, sign]
  rw [printed_whole (length_integerText room fits 0)]

theorem tenths_eq {d : Nat} (divides : 0 < d) (x : Nat)
    : (100 * x / d + 5) / 10 = rounded (10 * x) d := by
  rw [← @rounded_eq 5 d (by decide) divides (10 * x), show 2 * 5 * (10 * x) = 100 * x by ring]

/-- With a tenth there is a digit before the point. -/
theorem tenths_large {x columns i : Nat} (smallest : Smallest x (divisor flags) columns i) (later : i ≠ 0)
    (room : 3 ≤ columns)
    : 10 ≤ rounded (10 * x) (divisor flags ^ i) := by
  obtain ⟨k, rfl⟩ : ∃ k, i = k + 1 := ⟨i - 1, by omega⟩
  have before := (limit_iff (divisor_pow_pos flags k) x columns).mpr (smallest.2.2 k (Nat.lt_succ_self k))
  have power : 10 ^ 3 ≤ 10 ^ columns := Nat.pow_le_pow_right (by decide) room
  rw [← tenths_eq (divisor_pow_pos flags (k + 1)), Nat.pow_succ, ← Nat.div_div_eq_div_mul]
  generalize 100 * x / divisor flags ^ k = q at *
  rcases divisor_cases flags with same | same
  all_goals
    rw [same]
    omega

/-- The text with a tenth has the length that is checked, at most. -/
theorem length_tenthText {i : Nat} (digit : rounded (10 * magnitude bytes) (divisor flags ^ i) / 10 < 10)
    (long : (if bytes.toInt < 0 then 3 else 2) + (sep flags).length + suffix.length + 2 + point.length ≤ len)
    (tenth : i ≠ 0 ∧ flags &&& HN_DECIMAL ≠ 0 ∧ 100 * magnitude bytes / divisor flags ^ i < 995)
    : (roundedText point bytes suffix flags i).length < len := by
  have before := @numeralDigits_length_le 10 _ 1 (by decide) (by decide) digit
  have behind := @numeralDigits_length_le 10 _ 1 (by decide) (by decide)
    (Nat.mod_lt (rounded (10 * magnitude bytes) (divisor flags ^ i)) (y := 10) (by decide))
  have letter := length_scale2Prefix flags i
  rw [roundedText, if_pos tenth]
  simp only [List.length_append, length_numeral]
  by_cases negative : bytes.toInt < 0
  · simp only [if_pos negative] at long
    split
    · simp only [List.length_singleton]
      omega
    · simp only [List.length_nil]
      omega
  · simp only [if_neg negative] at long
    simp only [negative, false_and, if_false, List.length_nil]
    omega

/-- A number with a tenth is printed if it is not too long. -/
theorem printNumber_tenth {n : Amount} {i : Nat} (sign : n.sign = if bytes.toInt < 0 then -1 else 1)
    (post : n.post = 1) (nonempty : point ≠ []) (small : magnitude bytes < INT64_MAX / 100)
    (smallest : Smallest (magnitude bytes) (divisor flags) (columns len bytes suffix flags) i)
    (tenth : i ≠ 0 ∧ flags &&& HN_DECIMAL ≠ 0 ∧ 100 * magnitude bytes / divisor flags ^ i < 995)
    : printNumber point len suffix flags n (baselen bytes suffix flags) i
        (100 * magnitude bytes / divisor flags ^ i)
      = some (if len < baselen bytes suffix flags + 1 + 1 + point.length then .error
          else .text (roundedText point bytes suffix flags i).length
            (roundedText point bytes suffix flags i)) := by
  obtain ⟨later, decimals, less⟩ := tenth
  have fits : 100 * magnitude bytes / divisor flags ^ i ≤ INT64_MAX := by
    simp only [INT64_MAX]
    omega
  rw [printNumber, if_neg later, post, Nat.mul_one, checked, if_pos fits, Option.bind_eq_bind, Option.bind_some,
    if_pos ⟨less, decimals⟩]
  by_cases long : len < baselen bytes suffix flags + 1 + 1 + point.length
  · rw [if_pos long, if_pos long]
    rfl
  · have points := List.length_pos_iff.mpr nonempty
    have enough : (if bytes.toInt < 0 then 3 else 2) + (sep flags).length + suffix.length + 2 + point.length
        ≤ len := by
      simp only [baselen, if_pos small] at long
      omega
    have room : 3 ≤ columns len bytes suffix flags := by
      simp only [columns]
      omega
    have large := tenths_large smallest later room
    have tenths := tenths_eq (divisor_pow_pos flags i) (magnitude bytes)
    have digit : (rounded (10 * magnitude bytes) (divisor flags ^ i)) / 10 < 10 := by omega
    have text : decimal (n.sign * ((100 * magnitude bytes / divisor flags ^ i + 5) / 10 / 10 : Nat))
          ++ (point ++ (decimal ((100 * magnitude bytes / divisor flags ^ i + 5) / 10 % 10 : Nat)
            ++ (sep flags ++ (scale2Prefix flags i ++ suffix))))
        = roundedText point bytes suffix flags i := by
      rw [roundedText, if_pos ⟨later, decimals, less⟩, sign, decimal_signed, decimal_nonneg, tenths]
      have one : rounded (10 * magnitude bytes) (divisor flags ^ i) / 10 ≠ 0 := by omega
      have some_ : rounded (10 * magnitude bytes) (divisor flags ^ i) ≠ 0 := by omega
      simp only [one, some_, ne_eq, not_false_eq_true, and_true, List.append_assoc]
    rw [if_neg long, if_neg long]
    simp only [text]
    rw [printed_whole (length_tenthText digit enough ⟨later, decimals, less⟩)]
    rfl

/-- The multiplied magnitude is printed rounded at the least scale. -/
theorem printNumber_small (n : Amount) (sign : n.sign = if bytes.toInt < 0 then -1 else 1)
    (post : n.post = 1) (nonempty : point ≠ []) (small : magnitude bytes < INT64_MAX / 100)
    (room : 0 < columns len bytes suffix flags)
    {i : Nat} (smallest : Smallest (magnitude bytes) (divisor flags) (columns len bytes suffix flags) i)
    : let result := printNumber point len suffix flags n (baselen bytes suffix flags) i
          (100 * magnitude bytes / divisor flags ^ i)
      (result = some .error ∧ i ≠ 0 ∧ flags &&& HN_DECIMAL ≠ 0)
        ∨ result = some (.text (roundedText point bytes suffix flags i).length
          (roundedText point bytes suffix flags i)) := by
  by_cases zero : i = 0
  · subst zero
    refine .inr (printNumber_zero sign ?_ room ?_ _)
    · rw [post, if_pos rfl, pow_zero, Nat.div_one]
      omega
    · simpa [rounded_one] using smallest.2.1
  by_cases tenth : i ≠ 0 ∧ flags &&& HN_DECIMAL ≠ 0 ∧ 100 * magnitude bytes / divisor flags ^ i < 995
  · rw [printNumber_tenth sign post nonempty small smallest tenth]
    split
    · exact .inl ⟨rfl, tenth.1, tenth.2.1⟩
    · exact .inr rfl
  · have less := Nat.div_le_self (100 * magnitude bytes) (divisor flags ^ i)
    have halves : (100 * magnitude bytes / divisor flags ^ i + 50) / 100
        = rounded (magnitude bytes) (divisor flags ^ i) :=
      @rounded_eq 50 _ (by decide) (divisor_pow_pos flags i) (magnitude bytes)
    refine .inr ?_
    have low : 100 * magnitude bytes / divisor flags ^ i + 50 ≤ INT64_MAX := by
      simp only [INT64_MAX] at small ⊢
      omega
    rw [printNumber, if_neg zero, post, Nat.mul_one, checked, if_pos (Nat.le_trans (Nat.le_add_right _ 50) low),
      Option.bind_eq_bind, Option.bind_some, if_neg (fun both => tenth ⟨zero, both.2, both.1⟩), checked,
      if_pos low, Option.bind_some, roundedText_integer tenth, sign]
    simp only [halves]
    rw [printed_whole (length_integerText room smallest.2.1 i)]
    rfl

-----------------------------------------------------------------------------------------
-- What is not multiplied
-----------------------------------------------------------------------------------------

/-- A magnitude that is not multiplied is printed rounded down. -/
theorem printNumber_large {n : Amount} {i : Nat} (sign : n.sign = if bytes.toInt < 0 then -1 else 1)
    (post : n.post = 100) (later : i ≠ 0)
    (whole : ¬ (flags &&& HN_DECIMAL ≠ 0 ∧ magnitude bytes / divisor flags ^ i < 10))
    (fits : magnitude bytes / divisor flags ^ i < 10 ^ columns len bytes suffix flags)
    (room : 0 < columns len bytes suffix flags)
    : printNumber point len suffix flags n (baselen bytes suffix flags) i
        (magnitude bytes / divisor flags ^ i)
      = some (.text
          (decimal ((if bytes.toInt < 0 then -1 else 1) * (magnitude bytes / divisor flags ^ i : Nat))
            ++ (sep flags ++ (scale2Prefix flags i ++ suffix))).length
          (decimal ((if bytes.toInt < 0 then -1 else 1) * (magnitude bytes / divisor flags ^ i : Nat))
            ++ (sep flags ++ (scale2Prefix flags i ++ suffix)))) := by
  have less : magnitude bytes / divisor flags ^ i ≤ (INT64_MAX + 1) / 1000 :=
    Nat.div_le_div (magnitude_le bytes) (divisor_pow_ge flags later) (by decide)
  have low : magnitude bytes / divisor flags ^ i * 100 + 50 ≤ INT64_MAX := by
    simp only [INT64_MAX] at less ⊢
    omega
  have down : (magnitude bytes / divisor flags ^ i * 100 + 50) / 100 = magnitude bytes / divisor flags ^ i := by
    generalize magnitude bytes / divisor flags ^ i = q
    omega
  have integer : ¬ (magnitude bytes / divisor flags ^ i * 100 < 995 ∧ flags &&& HN_DECIMAL ≠ 0) := by
    rintro ⟨few, decimals⟩
    refine whole ⟨decimals, ?_⟩
    generalize magnitude bytes / divisor flags ^ i = q at *
    omega
  rw [printNumber, if_neg later, post, checked, if_pos (by omega), Option.bind_eq_bind, Option.bind_some,
    if_neg integer, checked, if_pos low, Option.bind_some, sign]
  simp only [down]
  rw [printed_whole (length_integerText room fits i)]
  rfl

theorem no_tenth {i : Nat}
    (whole : ¬ (flags &&& HN_DECIMAL ≠ 0 ∧ magnitude bytes / divisor flags ^ i < 10))
    : ¬ (i ≠ 0 ∧ flags &&& HN_DECIMAL ≠ 0 ∧ 100 * magnitude bytes / divisor flags ^ i < 995) := by
  rintro ⟨-, decimals, less⟩
  rw [Nat.div_lt_iff_lt_mul (divisor_pow_pos flags i)] at less
  refine whole ⟨decimals, (Nat.div_lt_iff_lt_mul (divisor_pow_pos flags i)).mpr ?_⟩
  omega

/-- It is rounded when what is cut off is less than a half. -/
theorem printNumber_large_iff {n : Amount} {i : Nat} (sign : n.sign = if bytes.toInt < 0 then -1 else 1)
    (post : n.post = 100) (later : i ≠ 0)
    (whole : ¬ (flags &&& HN_DECIMAL ≠ 0 ∧ magnitude bytes / divisor flags ^ i < 10))
    (fits : magnitude bytes / divisor flags ^ i < 10 ^ columns len bytes suffix flags)
    (room : 0 < columns len bytes suffix flags)
    : printNumber point len suffix flags n (baselen bytes suffix flags) i
          (magnitude bytes / divisor flags ^ i)
        = some (.text (roundedText point bytes suffix flags i).length (roundedText point bytes suffix flags i))
      ↔ 2 * (magnitude bytes % divisor flags ^ i) < divisor flags ^ i := by
  have down := rounded_cases (divisor_pow_pos flags i) (magnitude bytes)
  rw [printNumber_large sign post later whole fits room, roundedText_integer (no_tenth whole)]
  constructor
  · intro same
    obtain ⟨-, texts⟩ := Result.text.inj (Option.some.inj same)
    have equal := decimal_injective (List.append_cancel_right texts)
    by_contra up
    rw [if_neg up] at down
    omega
  · intro less
    rw [down, if_pos less]

/-- With a tenth it is taken for too long. -/
theorem printNumber_refused {n : Amount} {i : Nat} (post : n.post = 100) (nonempty : point ≠ [])
    (large : ¬ magnitude bytes < INT64_MAX / 100)
    (tenth : flags &&& HN_DECIMAL ≠ 0 ∧ magnitude bytes / divisor flags ^ i < 10) (later : i ≠ 0)
    (before : ∀ k < i, 10 ^ columns len bytes suffix flags ≤ magnitude bytes / divisor flags ^ k + 50)
    : printNumber point len suffix flags n (baselen bytes suffix flags) i
        (magnitude bytes / divisor flags ^ i)
      = some .error := by
  have less : magnitude bytes / divisor flags ^ i * 100 < 995 := by
    have := tenth.2
    generalize magnitude bytes / divisor flags ^ i = q at *
    omega
  have long : len < baselen bytes suffix flags + 1 + 1 + point.length := by
    by_contra enough
    have points := List.length_pos_iff.mpr nonempty
    have room : 5 ≤ columns len bytes suffix flags := by
      simp only [baselen, if_neg large] at enough
      simp only [columns]
      omega
    obtain ⟨k, rfl⟩ : ∃ k, i = k + 1 := ⟨i - 1, by omega⟩
    have limit := before k (Nat.lt_succ_self k)
    have power : 10 ^ 5 ≤ 10 ^ columns len bytes suffix flags := Nat.pow_le_pow_right (by decide) room
    have few := tenth.2
    rw [Nat.pow_succ, ← Nat.div_div_eq_div_mul] at few
    generalize magnitude bytes / divisor flags ^ k = q at *
    rcases divisor_cases flags with same | same
    all_goals
      rw [same] at few
      omega
  rw [printNumber, if_neg later, post, checked, if_pos (by simp only [INT64_MAX]; omega), Option.bind_eq_bind,
    Option.bind_some, if_pos ⟨less, tenth.1⟩, if_pos long]
  rfl

/-- In a way that does not depend on how it is printed, the function is the choice of a scale and what
follows.
-/
theorem humanizeNumber_auto {n : Amount} (start : amount bytes.toInt = some n)
    (base : n.baselen + (sep flags).length + suffix.length = baselen bytes suffix flags)
    (room : baselen bytes suffix flags + 1 ≤ len)
    (auto : 0 ≤ scale ∧ scale.toNat &&& (HN_AUTOSCALE ||| HN_GETSCALE) ≠ 0)
    : humanizeNumber point len bytes suffix scale flags
      = (chooseScale flags (len - baselen bytes suffix flags) n.bytes).bind fun chosen =>
          if scale.toNat &&& HN_GETSCALE ≠ 0 then
            some (.scale chosen.1)
          else
            printNumber point len suffix flags n (baselen bytes suffix flags) chosen.1 chosen.2 := by
  have allowed : ¬ (scale < 0 ∨ (maxscale < scale.toNat
      ∧ ¬ scale.toNat &&& (HN_AUTOSCALE ||| HN_GETSCALE) ≠ 0)) := by
    rintro (negative | ⟨-, manual⟩)
    · omega
    · exact manual auto.2
  simp only [humanizeNumber, if_neg allowed, start, Option.bind_eq_bind, Option.bind_some, base,
    if_neg (show ¬ len < baselen bytes suffix flags + 1 by omega), if_pos auto.2]
  rfl

theorem Smallest.unique {x divisor columns i k : Nat} (smallest : Smallest x divisor columns i)
    (also : Smallest x divisor columns k)
    : i = k := by
  obtain less | same | more := Nat.lt_trichotomy i k
  · exact absurd (also.2.2 i less) (Nat.not_le_of_lt smallest.2.1)
  · exact same
  · exact absurd (smallest.2.2 k more) (Nat.not_le_of_lt also.2.1)

/-- Without the multiplication the limit is less by 50 units. -/
theorem chooseScale_large (large : ¬ magnitude bytes < INT64_MAX / 100)
    (room : baselen bytes suffix flags + 1 ≤ len) (few : len - baselen bytes suffix flags ≤ 16)
    : ∃ i ≤ maxscale,
        chooseScale flags (len - baselen bytes suffix flags) (magnitude bytes)
            = some (i, magnitude bytes / divisor flags ^ i)
          ∧ magnitude bytes / divisor flags ^ i + 50 < 10 ^ columns len bytes suffix flags
          ∧ ∀ k < i, 10 ^ columns len bytes suffix flags ≤ magnitude bytes / divisor flags ^ k + 50 := by
  obtain ⟨i, within, chosen, below, before⟩ := chooseScale_few flags few (magnitude_le bytes)
  have two : columns len bytes suffix flags = len - baselen bytes suffix flags + 2 := by
    simp only [baselen, if_neg large] at room ⊢
    simp only [columns]
    omega
  have power : 10 ^ columns len bytes suffix flags = 100 * 10 ^ (len - baselen bytes suffix flags) := by
    rw [two]
    ring
  refine ⟨i, within, chosen, power ▸ Nat.add_lt_of_lt_sub below, fun k inside => ?_⟩
  exact Nat.sub_le_iff_le_add.mp (power ▸ before k inside)

/-- Where there is no gap, the scale chosen is the least. -/
theorem smallest_of_noGap (noGap : NoGap len bytes suffix flags) {i : Nat} (within : i ≤ maxscale)
    (below : magnitude bytes / divisor flags ^ i + 50 < 10 ^ columns len bytes suffix flags)
    (before : ∀ k < i, 10 ^ columns len bytes suffix flags ≤ magnitude bytes / divisor flags ^ k + 50)
    : Smallest (magnitude bytes) (divisor flags) (columns len bytes suffix flags) i := by
  refine ⟨within, ?_, fun k inside => ?_⟩
  · rw [rounded_cases (divisor_pow_pos flags i)]
    split
    · omega
    · omega
  · by_contra fits
    exact noGap k (by omega) ⟨before k inside, by omega⟩

/-- Where the scale chosen is the least, there is no gap. -/
theorem noGap_of_smallest {i : Nat}
    (below : magnitude bytes / divisor flags ^ i + 50 < 10 ^ columns len bytes suffix flags)
    (smallest : Smallest (magnitude bytes) (divisor flags) (columns len bytes suffix flags) i)
    : NoGap len bytes suffix flags := by
  rintro k - ⟨gap, fits⟩
  have later : i ≤ k := by
    by_contra before
    exact absurd (smallest.2.2 k (by omega)) (by omega)
  have less : magnitude bytes / divisor flags ^ k ≤ magnitude bytes / divisor flags ^ i := by
    refine Nat.div_le_div_left (Nat.pow_le_pow_right ?_ later) (divisor_pow_pos flags i)
    simpa using divisor_pow_pos flags 1
  omega

/-- What is multiplied is scaled and printed as promised, if `max` does not overflow. -/
theorem scales_small (nonempty : point ≠ [])
    (auto : 0 ≤ scale ∧ scale.toNat &&& (HN_AUTOSCALE ||| HN_GETSCALE) ≠ 0)
    (room : baselen bytes suffix flags + 1 ≤ len) (small : magnitude bytes < INT64_MAX / 100)
    (even : ¬ (17 ≤ len - baselen bytes suffix flags ∧ len - baselen bytes suffix flags ≤ 19))
    : Scales point len bytes suffix scale flags := by
  have same : columns len bytes suffix flags = len - baselen bytes suffix flags := by
    simp only [columns, baselen, if_pos small, Nat.add_zero]
  have spare : 0 < columns len bytes suffix flags := by omega
  have start := amount_spec (Nat.le_trans (Nat.le_of_lt small) (by decide))
  rw [if_pos small] at start
  obtain ⟨i, chosen, smallest⟩ := chooseScale_small flags spare (same ▸ even) small
  refine ⟨_, i, _, start, same ▸ chosen, smallest, ?_⟩
  rw [humanizeNumber_auto start (by simp only [baselen, if_pos small, Nat.add_zero]) room auto]
  simp only [← same, chosen, Option.bind_some]
  split
  · rfl
  · exact printNumber_small _ rfl rfl nonempty small spare smallest

theorem columns_large (large : ¬ magnitude bytes < INT64_MAX / 100)
    (room : baselen bytes suffix flags + 1 ≤ len)
    : columns len bytes suffix flags = len - baselen bytes suffix flags + 2 := by
  simp only [baselen, if_neg large] at room ⊢
  simp only [columns]
  omega

/-- With more columns than a number can have digits, it is printed as it is. -/
theorem scales_many (auto : 0 ≤ scale ∧ scale.toNat &&& (HN_AUTOSCALE ||| HN_GETSCALE) ≠ 0)
    (room : baselen bytes suffix flags + 1 ≤ len) (large : ¬ magnitude bytes < INT64_MAX / 100)
    (opposite : magnitude bytes ≤ INT64_MAX) (many : 19 < len - baselen bytes suffix flags)
    : Scales point len bytes suffix scale flags := by
  have two := columns_large large room
  have power : 10 ^ 20 ≤ 10 ^ columns len bytes suffix flags :=
    Nat.pow_le_pow_right (by decide) (by omega)
  have fits : magnitude bytes < 10 ^ columns len bytes suffix flags :=
    Nat.lt_of_le_of_lt opposite (Nat.lt_of_lt_of_le (by decide) power)
  have start := amount_spec opposite
  rw [if_neg large] at start
  have chosen := chooseScale_many flags many (magnitude bytes)
  refine ⟨_, 0, _, start, chosen, ⟨by decide, by rwa [pow_zero, rounded_one], nofun⟩, ?_⟩
  rw [humanizeNumber_auto start (by simp only [baselen, if_neg large]) room auto]
  simp only [chosen, Option.bind_some]
  split
  · rfl
  · exact .inr (printNumber_zero rfl (by simp) (by omega) fits _)

/-- With few columns it depends on the gap and on the rounding. -/
theorem scales_few_iff (nonempty : point ≠ [])
    (auto : 0 ≤ scale ∧ scale.toNat &&& (HN_AUTOSCALE ||| HN_GETSCALE) ≠ 0)
    (room : baselen bytes suffix flags + 1 ≤ len) (large : ¬ magnitude bytes < INT64_MAX / 100)
    (opposite : magnitude bytes ≤ INT64_MAX) (few : len - baselen bytes suffix flags ≤ 16)
    : Scales point len bytes suffix scale flags
      ↔ NoGap len bytes suffix flags
        ∧ (scale.toNat &&& HN_GETSCALE = 0 → RoundsDown len bytes suffix flags) := by
  have spare : 0 < columns len bytes suffix flags := by
    have two := columns_large large room
    omega
  have start := amount_spec opposite
  rw [if_neg large] at start
  have runs := @humanizeNumber_auto point len bytes suffix scale flags _ start
    (by simp only [baselen, if_neg large]) room auto
  obtain ⟨i, within, chosen, below, before⟩ := chooseScale_large large room few
  have fits : magnitude bytes / divisor flags ^ i < 10 ^ columns len bytes suffix flags :=
    Nat.lt_of_le_of_lt (Nat.le_add_right _ 50) below
  simp only [chosen, Option.bind_some] at runs
  constructor
  · rintro ⟨n, i', left, start', chosen', smallest, result⟩
    obtain rfl := Option.some.inj (start'.symm.trans start)
    obtain ⟨rfl, -⟩ := Prod.mk.inj (Option.some.inj (chosen'.symm.trans chosen))
    refine ⟨noGap_of_smallest below smallest, fun prints k later also => ?_⟩
    obtain rfl := also.unique smallest
    by_cases tenth : flags &&& HN_DECIMAL ≠ 0 ∧ magnitude bytes / divisor flags ^ k < 10
    · exact .inl tenth
    · rw [if_neg (by simp [prints])] at result runs
      rw [runs] at result
      rcases result with ⟨refused, -⟩ | text
      · cases refused.symm.trans (printNumber_large rfl rfl later tenth fits spare)
      · exact .inr ((printNumber_large_iff rfl rfl later tenth fits spare).mp text)
  · rintro ⟨noGap, rounds⟩
    have smallest := smallest_of_noGap noGap within below before
    refine ⟨_, i, _, start, chosen, smallest, ?_⟩
    rw [runs]
    split
    · rfl
    · next prints =>
        have prints : scale.toNat &&& HN_GETSCALE = 0 := by simpa using prints
        by_cases zero : i = 0
        · subst zero
          exact .inr (printNumber_zero rfl (by simp) spare (by simpa using fits) _)
        by_cases tenth : flags &&& HN_DECIMAL ≠ 0 ∧ magnitude bytes / divisor flags ^ i < 10
        · exact .inl ⟨printNumber_refused rfl nonempty large tenth zero before, zero, tenth.1⟩
        · have less := (rounds prints i zero smallest).resolve_left tenth
          exact .inr ((printNumber_large_iff rfl rfl zero tenth fits spare).mpr less)

end

end BSDLibC.Humanize
