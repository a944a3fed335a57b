import BSDLibC.Bytes.Buffer
import BSDLibC.Bytes.Numeral
import BSDLibC.Ctype.CLocale

/-! Domain names in wire format and in text form, as `ns_name.c` converts them. A result `none` is
an access outside of the memory that the call has got.
-/

namespace BSDLibC.Nameser

open Bytes Ctype

inductive Errno
  | EMSGSIZE
  | EINVAL
deriving DecidableEq, Repr

/-- The two bits of a label type. -/
def cmprsflgs : Nat := 0xc0

/-- The type of extended labels. -/
def typeElt : Nat := 0x40

def bitstringType : UInt8 := 0x41

/-- The length of the longest name. -/
def maxCdname : Nat := 255

def dot : UInt8 := 0x2e

def backslash : UInt8 := 0x5c

/-- The length of the label at the start of a list, without its first byte. A negative result is
the inner `none`.
-/
def labellen : List UInt8 → Option (Option Nat)
  | [] => none
  | l :: rest =>
      if l.toNat &&& cmprsflgs = cmprsflgs then
        some none
      else if l.toNat &&& cmprsflgs = typeElt then
        if l = bitstringType then do
          let bitlen ← rest.head?
          return some (((if bitlen = 0 then 256 else bitlen.toNat) + 7) / 8 + 1)
        else
          some none
      else
        some (some l.toNat)

-----------------------------------------------------------------------------------------
-- `ns_name_ntop`
-----------------------------------------------------------------------------------------

def special (ch : UInt8) : Bool := ch ∈ [0x22, 0x2e, 0x3b, 0x5c, 0x28, 0x29, 0x40, 0x24]

def printable (ch : UInt8) : Bool := 0x20 < ch && ch < 0x7f

/-- `%02x` -/
def hex2 (n : Nat) : List UInt8 := List.replicate (2 - (numeral 16 n).length) 0x30 ++ numeral 16 n

/-- A `char` as an `int`, in two's complement. -/
def signExtend (c : UInt8) : Nat := if c < 0x80 then c.toNat else 0xffffff00 + c.toNat

/-- `sprintf` to a buffer with some space, which it does not know of. -/
def sprintf (dstsiz : Nat) (dn text : List UInt8) : Option (List UInt8) :=
  if dn.length + text.length < dstsiz then some (dn ++ text) else none

/-- The whole bytes of a bit string. -/
def wholeBytes (dstsiz : Nat) : Nat → List UInt8 → List UInt8 → Option (List UInt8 × List UInt8)
  | 0, cp, dn => some (dn, cp)
  | _ + 1, [], _ => none
  | n + 1, byte :: cp, dn => do wholeBytes dstsiz n cp (← sprintf dstsiz dn (hex2 byte.toNat))

/-- The bits of the last byte, `b` of them. -/
def lastBits (b : Nat) (tc : UInt8) : List UInt8 :=
  if b > 4 then
    hex2 (signExtend tc &&& 0xff <<< (8 - b))
  else
    numeral 16 (signExtend tc >>> 4 &&& 0x0f &&& 0x0f <<< (4 - b))

/-- The text so far and what follows the label, or no space. -/
def decodeBitstring (dstsiz : Nat) (cp dn : List UInt8)
    : Option (Except Errno (List UInt8 × List UInt8)) := do
  let first ← cp.head?
  let blen := if first = 0 then 256 else first.toNat
  let plen := (blen + 3) / 4 + 6 + (if blen > 99 then 3 else if blen > 9 then 2 else 1)
  if dn.length + plen ≥ dstsiz then
    return .error .EMSGSIZE
  else
    let dn ← sprintf dstsiz dn [backslash, 0x5b, 0x78]
    let (dn, cp) ← wholeBytes dstsiz (blen / 8) cp.tail dn
    let b := blen % 8
    if b > 0 then
      let tc ← cp.head?
      let dn ← sprintf dstsiz dn (lastBits b tc)
      let dn ← sprintf dstsiz dn (0x2f :: numeral 10 blen ++ [0x5d])
      return .ok (dn, cp.tail)
    else
      let dn ← sprintf dstsiz dn (0x2f :: numeral 10 blen ++ [0x5d])
      return .ok (dn, cp)

/-- The text of one byte. -/
def escape (c : UInt8) : List UInt8 :=
  if special c then
    [backslash, c]
  else if !printable c then
    [backslash, digitByte (c.toNat / 100), digitByte (c.toNat % 100 / 10), digitByte (c.toNat % 10)]
  else
    [c]

/-- The bytes of an ordinary label. There is a check before each one. -/
def ordinary (dstsiz : Nat)
    : Nat → List UInt8 → List UInt8 → Option (Except Errno (List UInt8 × List UInt8))
  | 0, cp, dn => some (.ok (dn, cp))
  | _ + 1, [], _ => none
  | l + 1, c :: cp, dn =>
      if dn.length + (escape c).length - 1 ≥ dstsiz then
        some (.error .EMSGSIZE)
      else
        ordinary dstsiz l cp (dn ++ escape c)

/-- The label that begins with `n`. -/
def label (dstsiz : Nat) (n : UInt8) (cp dn : List UInt8)
    : Option (Except Errno (List UInt8 × List UInt8)) := do
  match ← labellen (n :: cp) with
  | none => return .error .EMSGSIZE
  | some l =>
      if dn.length + l ≥ dstsiz then
        return .error .EMSGSIZE
      else if n.toNat &&& cmprsflgs = typeElt then
        if n ≠ bitstringType then
          return .error .EINVAL
        else
          decodeBitstring dstsiz cp dn
      else
        ordinary dstsiz l cp dn

/-- The end of the text: a name without labels is a dot. -/
def nsNameNtop.finish (dstsiz : Nat) (dn : List UInt8) : Except Errno (List UInt8) :=
  if dn = [] then
    if dstsiz ≤ 0 then .error .EMSGSIZE
    else if dstsiz ≤ 1 then .error .EMSGSIZE
    else .ok [dot, 0]
  else if dn.length ≥ dstsiz then
    .error .EMSGSIZE
  else
    .ok (dn ++ [0])

/-- The loop over the labels. Each one takes a byte or more, which bounds their number. -/
def nsNameNtop.loop (dstsiz : Nat) : Nat → List UInt8 → List UInt8
    → Option (Except Errno (List UInt8))
  | 0, _, _ => none
  | _ + 1, [], _ => none
  | fuel + 1, n :: cp, dn =>
      if n = 0 then
        some (nsNameNtop.finish dstsiz dn)
      else if n.toNat &&& cmprsflgs = cmprsflgs then
        some (.error .EMSGSIZE)
      else if dn ≠ [] && dn.length ≥ dstsiz then
        some (.error .EMSGSIZE)
      else
        match label dstsiz n cp (if dn = [] then dn else dn ++ [dot]) with
        | none => none
        | some (.error errno) => some (.error errno)
        | some (.ok (dn, cp)) => nsNameNtop.loop dstsiz fuel cp dn

/-- The bytes that are written to `dst`, with the terminator. Their number is returned. -/
def nsNameNtop (src : List UInt8) (dstsiz : Nat) : Option (Except Errno (List UInt8)) :=
  nsNameNtop.loop dstsiz (src.length + 1) src []

end BSDLibC.Nameser
