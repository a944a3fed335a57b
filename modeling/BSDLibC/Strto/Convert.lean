import Mathlib.Algebra.Order.Ring.Int
import Mathlib.Tactic.Common

/-! `strtol`, `strtoul` and the functions made from the same templates, with `strtoi` and `strtou`
around them. A result `none` is a read behind the NUL of the string or a signed operation that
overflows. A position in the string is given by the bytes from there on, up to the NUL.
-/

namespace BSDLibC.Strto

/-- A string of C, without its NUL. -/
@[ext]
structure Text where
  bytes : List UInt8
  nul : 0 ∉ bytes

/-- The bytes of a string in memory. -/
def Text.memory (text : Text) : List UInt8 := text.bytes ++ [0]

/-- What a locale takes for white space. -/
structure Locale where
  isspace : UInt8 → Bool
  nul : isspace 0 = false

/-- An integer type that is no narrower than `int`. -/
structure IntType where
  width : Nat
  wide : 32 ≤ width

def IntType.min (type : IntType) : Int := -2 ^ (type.width - 1)

def IntType.max (type : IntType) : Int := 2 ^ (type.width - 1) - 1

def IntType.umax (type : IntType) : Nat := 2 ^ type.width - 1

/-- The result of a signed operation. -/
def IntType.signed (type : IntType) (v : Int) : Option Int :=
  if type.min ≤ v ∧ v ≤ type.max then some v else none

/-- `long`, `long long`, `intmax_t` and their unsigned types on LP64. -/
def long : IntType := ⟨64, by decide⟩

def EINVAL : Int := 22

def ERANGE : Int := 34

def ENOTSUP : Int := 86

def ECANCELED : Int := 87

/-- The value, the offset stored through `endptr`, and `errno`. -/
structure Result (α : Type) where
  value : α
  endptr : Nat
  errno : Int
deriving DecidableEq

-----------------------------------------------------------------------------------------
-- What the templates have in common
-----------------------------------------------------------------------------------------

/-- The first byte that is not white space, and the position behind it. -/
def skip (loc : Locale) : List UInt8 → Option (UInt8 × List UInt8)
  | [] => none
  | c :: s => if loc.isspace c then skip loc s else some (c, s)

/-- The sign, if any, and the byte behind it. -/
def sign (c : UInt8) (s : List UInt8) : Option (Bool × UInt8 × List UInt8) :=
  if c = 0x2d then
    match s with
    | [] => none
    | c :: s => some (true, c, s)
  else if c = 0x2b then
    match s with
    | [] => none
    | c :: s => some (false, c, s)
  else
    some (false, c, s)

def isHex (c : UInt8) : Bool :=
  (0x30 ≤ c && c ≤ 0x39) || (0x61 ≤ c && c ≤ 0x66) || (0x41 ≤ c && c ≤ 0x46)

/-- The base without a prefix `0x`. -/
def plainBase (base : Int) (c : UInt8) : Int :=
  if base = 0 then if c = 0x30 then 8 else 10 else base

/-- The base that the digits are in, and the first of them. -/
def prefixed (base : Int) (c : UInt8) (s : List UInt8) : Option (Int × UInt8 × List UInt8) :=
  if (base = 0 ∨ base = 16) ∧ c = 0x30 then
    match s with
    | [] => none
    | x :: s₁ =>
        if x = 0x78 ∨ x = 0x58 then
          match s₁ with
          | [] => none
          | d :: s₂ => if isHex d then some (16, d, s₂) else some (plainBase base c, c, s)
        else
          some (plainBase base c, c, s)
  else
    some (plainBase base c, c, s)

/-- The value of a digit. -/
def digit (c : UInt8) : Option Int :=
  if 0x30 ≤ c ∧ c ≤ 0x39 then
    some (c.toNat - 0x30)
  else if 0x61 ≤ c ∧ c ≤ 0x7a then
    some (c.toNat - 0x61 + 10)
  else if 0x41 ≤ c ∧ c ≤ 0x5a then
    some (c.toNat - 0x41 + 10)
  else
    none

/-- The variables of the loop over the digits. -/
structure Digits (α : Type) where
  acc : α
  any : Int
  errno : Int

/-- The loop over the digits with `c` the byte before the position. -/
def scan {α : Type} (base : Int) (step : Int → Digits α → Option (Digits α))
    : UInt8 → List UInt8 → Digits α → Option (List UInt8 × Digits α)
  | c, s, digits =>
      match digit c with
      | none => some (s, digits)
      | some i =>
          if i ≥ base then
            some (s, digits)
          else
            match s with
            | [] => none
            | c :: s => do scan base step c s (← step i digits)

/-- The template of both families, up to the way the digits are put together. -/
def convert {α : Type} (loc : Locale) (text : Text) (base : Int) (errno : Int) (zero : α)
    (step : Bool → Int → Int → Digits α → Option (Digits α)) (finish : Bool → Digits α → α)
    : Option (Result α) :=
  if base ≠ 0 ∧ (base < 2 ∨ base > 36) then
    some ⟨zero, 0, EINVAL⟩
  else do
    let (c, s) ← skip loc text.memory
    let (neg, c, s) ← sign c s
    let (base, c, s) ← prefixed base c s
    let (s, digits) ← scan base (step neg base) c s ⟨zero, 0, errno⟩
    let endptr := if digits.any ≠ 0 then text.memory.length - s.length - 1 else 0
    return ⟨finish neg digits, endptr, digits.errno⟩

-----------------------------------------------------------------------------------------
-- The signed functions
-----------------------------------------------------------------------------------------

def cutoff (type : IntType) (neg : Bool) (base : Int) : Int :=
  let limit := if neg then type.min else type.max
  if neg ∧ limit.tmod base > 0 then limit.tdiv base + 1 else limit.tdiv base

def cutlim (type : IntType) (neg : Bool) (base : Int) : Int :=
  if neg then
    let rest := type.min.tmod base
    if rest > 0 then -(rest - base) else -rest
  else
    type.max.tmod base

/-- The body of the loop over the digits. -/
def signedStep (type : IntType) (neg : Bool) (base i : Int) (digits : Digits Int)
    : Option (Digits Int) :=
  if digits.any < 0 then
    some digits
  else if neg then
    if digits.acc < cutoff type neg base
        ∨ (digits.acc = cutoff type neg base ∧ i > cutlim type neg base) then
      some ⟨type.min, -1, ERANGE⟩
    else do
      let acc ← type.signed (digits.acc * base)
      let acc ← type.signed (acc - i)
      return { digits with any := 1, acc := acc }
  else
    if digits.acc > cutoff type neg base
        ∨ (digits.acc = cutoff type neg base ∧ i > cutlim type neg base) then
      some ⟨type.max, -1, ERANGE⟩
    else do
      let acc ← type.signed (digits.acc * base)
      let acc ← type.signed (acc + i)
      return { digits with any := 1, acc := acc }

/-- The template of `_strtol.h`. -/
def toSigned (type : IntType) (loc : Locale) (text : Text) (base : Int) (errno : Int)
    : Option (Result Int) :=
  convert loc text base errno 0 (signedStep type) fun _ digits => digits.acc

def strtol := toSigned long

def strtoll := toSigned long

def strtoimax := toSigned long

-----------------------------------------------------------------------------------------
-- The unsigned functions
-----------------------------------------------------------------------------------------

/-- The body of the loop over the digits. -/
def unsignedStep (type : IntType) (_ : Bool) (base i : Int) (digits : Digits Nat)
    : Option (Digits Nat) :=
  if digits.any < 0 then
    some digits
  else
    if digits.acc > type.umax / base.toNat
        ∨ (digits.acc = type.umax / base.toNat ∧ i > (type.umax % base.toNat : Nat)) then
      some ⟨type.umax, -1, ERANGE⟩
    else
      let acc := digits.acc * base.toNat % 2 ^ type.width
      some { digits with any := 1, acc := (acc + i.toNat) % 2 ^ type.width }

/-- The negation after the loop. -/
def unsignedFinish (type : IntType) (neg : Bool) (digits : Digits Nat) : Nat :=
  if neg ∧ digits.any > 0 then
    (2 ^ type.width - digits.acc) % 2 ^ type.width
  else
    digits.acc

/-- The template of `_strtoul.h`. -/
def toUnsigned (type : IntType) (loc : Locale) (text : Text) (base : Int) (errno : Int)
    : Option (Result Nat) :=
  convert loc text base errno 0 (unsignedStep type) (unsignedFinish type)

def strtoul := toUnsigned long

def strtoull := toUnsigned long

def strtoumax := toUnsigned long

-----------------------------------------------------------------------------------------
-- A range and a status
-----------------------------------------------------------------------------------------

/-- The value, the offset stored through `endptr`, the status, and `errno`. -/
structure Ranged (α : Type) where
  value : α
  endptr : Nat
  rstatus : Int
  errno : Int
deriving DecidableEq

/-- The template of `_strtoi.h`. -/
def ranged {α : Type} [LT α] [DecidableRel (LT.lt : α → α → Prop)]
    (wrapped : Text → Int → Int → Option (Result α)) (zero : α) (text : Text) (base : Int) (lo hi : α)
    (errno : Int)
    : Option (Ranged α) :=
  if base ≠ 0 ∧ (base < 2 ∨ base > 36) then
    some ⟨zero, 0, EINVAL, errno⟩
  else do
    let serrno := errno
    let result ← wrapped text base 0
    let rstatus := if result.errno ≠ EINVAL then result.errno else 0
    let rstatus := if rstatus = 0 ∧ result.endptr = 0 then ECANCELED else rstatus
    let outside := if rstatus = 0 then ERANGE else rstatus
    if result.value < lo then
      return ⟨lo, result.endptr, outside, serrno⟩
    else if result.value > hi then
      return ⟨hi, result.endptr, outside, serrno⟩
    else if rstatus = 0 then
      let next ← text.memory[result.endptr]?
      return ⟨result.value, result.endptr, if next ≠ 0 then ENOTSUP else 0, serrno⟩
    else
      return ⟨result.value, result.endptr, rstatus, serrno⟩

def strtoi (loc : Locale) := ranged (strtoimax loc) 0

def strtou (loc : Locale) := ranged (strtoumax loc) 0

end BSDLibC.Strto
