import BSDLibC.Bytes.Numeral
import BSDLibC.Strto.Exact

/-! `strsuftollx`, which multiplies numbers with suffixes. Products are reduced to 64 bits. -/

namespace BSDLibC.Strsuftoll
open BSDLibC.Strto BSDLibC.Bytes

/-- A product in a `long long`. -/
def wrap (v : Int) : Int := Int.bmod v (2 ^ 64)

/-- The characters of a message. -/
def message (text : String) : List UInt8 := text.toList.map fun c => UInt8.ofNat c.toNat

/-- `%lld` -/
def decimal (v : Int) : List UInt8 :=
  if v < 0 then 0x2d :: numeral 10 v.natAbs else numeral 10 v.natAbs

/-- What `snprintf` leaves in a buffer of some length. -/
def snprintf (ebuf : List UInt8) (ebuflen : Nat) (text : List UInt8) : List UInt8 :=
  if ebuflen = 0 then ebuf else text.take (ebuflen - 1)

/-- The rest of a string. -/
def drop (text : Text) (n : Nat) : Text :=
  ⟨text.bytes.drop n, fun member => text.nul (List.mem_of_mem_drop member)⟩

/-- The loop over leading space. -/
def skipSpaces (loc : Strto.Locale) (text : Text) : Text :=
  ⟨text.bytes.dropWhile loc.isspace,
    fun member => text.nul ((List.dropWhile_sublist _).subset member)⟩

/-- What a suffix multiplies by. -/
def multiplier (c : UInt8) : Option Int :=
  if c = 0x62 then some 512
  else if c = 0x6b then some 1024
  else if c = 0x6d then some 1048576
  else if c = 0x67 then some 1073741824
  else if c = 0x74 then some 1099511627776
  else if c = 0x77 then some 4
  else none

/-- The first `switch`: the number with its suffix and the rest, without a result on overflow. -/
def scaled (num : Int) (expr : Text) : Option (Int × Text) :=
  match expr.bytes.head?.bind multiplier with
  | none => some (num, expr)
  | some factor =>
      if num > wrap (num * factor) then none else some (wrap (num * factor), drop expr 1)

/-- The result, the text in the buffer for errors, and `errno`. -/
structure Outcome where
  value : Int
  ebuf : List UInt8
  errno : Int
deriving DecidableEq

section

variable (loc : Strto.Locale) (strerror : Int → List UInt8) (desc : List UInt8) (min max : Int)
  (ebuflen : Nat)

def erange (ebuf : List UInt8) : Outcome :=
  ⟨0, snprintf ebuf ebuflen (desc ++ message ": " ++ strerror ERANGE), ERANGE⟩

def badnum (val : Text) (ebuf : List UInt8) (errno : Int) : Outcome :=
  ⟨0, snprintf ebuf ebuflen (desc ++ message " \x60" ++ val.bytes ++ message "': illegal number"),
    errno⟩

/-- The checks of the range before the return. -/
def inRange (num : Int) (ebuf : List UInt8) (errno : Int) : Outcome :=
  if num < min then
    ⟨0, snprintf ebuf ebuflen
      (desc ++ message " " ++ decimal num ++ message " is less than " ++ decimal min ++ message "."),
      errno⟩
  else if num > max then
    ⟨0, snprintf ebuf ebuflen
      (desc ++ message " " ++ decimal num ++ message " is greater than " ++ decimal max
        ++ message "."),
      errno⟩
  else
    ⟨num, [], errno⟩

/-- `__strsuftollx`, with the number of levels that are left before the recursion limit. -/
def strsuftollxAt : Nat → Text → List UInt8 → Int → Option Outcome
  | 0, _, ebuf, errno =>
      some ⟨0, snprintf ebuf ebuflen (desc ++ message ": Recursion limit exceeded"), errno⟩
  | left + 1, val, ebuf, _ => do
      let val := skipSpaces loc val
      let result ← strtoll loc val 10 0
      if result.errno = ERANGE then
        return erange strerror desc ebuflen ebuf
      else if result.endptr = 0 then
        return badnum desc ebuflen val ebuf result.errno
      else
        match scaled result.value (drop val result.endptr) with
        | none => return erange strerror desc ebuflen ebuf
        | some (num, expr) =>
            match expr.bytes with
            | [] => return inRange desc min max ebuflen num ebuf result.errno
            | c :: _ =>
                if c = 0x2a ∨ c = 0x78 then
                  let rest ← strsuftollxAt left (drop expr 1) ebuf result.errno
                  if rest.ebuf ≠ [] then
                    return ⟨0, rest.ebuf, rest.errno⟩
                  else if num > wrap (num * rest.value) then
                    return erange strerror desc ebuflen rest.ebuf
                  else
                    return inRange desc min max ebuflen (wrap (num * rest.value)) rest.ebuf rest.errno
                else
                  return badnum desc ebuflen val ebuf result.errno

/-- The depth of the calls goes from 0 to 16. -/
def strsuftollx (val : Text) (ebuf : List UInt8) (errno : Int) : Option Outcome :=
  strsuftollxAt loc strerror desc min max ebuflen 17 val ebuf errno

end

end BSDLibC.Strsuftoll
