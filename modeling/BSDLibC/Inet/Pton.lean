import BSDLibC.Ctype.CLocale
import BSDLibC.Inet.Ntop

/-! Addresses from text, as `inet_pton.c` reads them. A text is the list of its characters, whose
end is the terminator.
-/

namespace BSDLibC.Inet

open Bytes Ctype

-----------------------------------------------------------------------------------------
-- `inet_pton4`
-----------------------------------------------------------------------------------------

/-- The leading `0x` or `0` of a number selects the base. -/
def numberBase : List UInt8 → Nat × List UInt8
  | 0x30 :: rest =>
      match rest with
      | 0x78 :: rest | 0x58 :: rest => (16, rest)
      | c :: _ => if isdigit c.toNat && c != 0x39 then (8, rest) else (10, rest)
      | [] => (10, rest)
  | src => (10, src)

/-- The digits of a number, as a `u_int32_t`, and what follows them. -/
def number (base : Nat) : List UInt8 → Nat → Nat × List UInt8
  | [], val => (val, [])
  | c :: src, val =>
      if isdigit c.toNat then
        if c.toNat - 0x30 ≥ base then
          (val, c :: src)
        else
          number base src ((val * base + (c.toNat - 0x30)) % 2 ^ 32)
      else if base = 16 && isxdigit c.toNat then
        let digit := c.toNat + 10 - (if islower c.toNat then 0x61 else 0x41)
        if digit ≥ 16 then
          (val, c :: src)
        else
          number base src ((val <<< 4 ||| digit) % 2 ^ 32)
      else
        (val, c :: src)

/-- The parts before the last one, the last one, and what follows. There are at most three parts
that end with a period.
-/
def parts (pton : Bool) : Nat → List UInt8 → List Nat → Option (List Nat × Nat × List UInt8)
  | 0, _, _ => none
  | fuel + 1, src, before =>
      if !isdigit (src.headD 0).toNat then
        none
      else
        let (base, src) := numberBase src
        if pton && base ≠ 10 then
          none
        else
          match number base src 0 with
          | (val, 0x2e :: src) =>
              if before.length ≥ 3 then none else parts pton fuel src (before ++ [val])
          | (val, src) => some (before, val, src)

/-- The address from the parts. -/
def concoct (before : List Nat) (val : Nat) : Option Nat :=
  match before with
  | [] => some val
  | [a] => if a > 0xff || val > 0xffffff then none else some (val ||| a <<< 24)
  | [a, b] =>
      if (a ||| b) > 0xff || val > 0xffff then none else some (val ||| (a <<< 24 ||| b <<< 16))
  | [a, b, c] =>
      if (a ||| b ||| c ||| val) > 0xff then none
      else some (val ||| (a <<< 24 ||| b <<< 16 ||| c <<< 8))
  | _ => none

/-- The bytes that are stored for a valid text. -/
def inetPton4 (src : List UInt8) (pton : Bool) : Option (List UInt8) := do
  -- A period takes a part, so that four rounds are enough.
  let (before, val, src) ← parts pton 4 src []
  if src ≠ [] && !isspace (src.headD 0).toNat then
    none
  else if pton && before.length + 1 ≠ 4 then
    none
  else
    let val ← concoct before val
    return [UInt8.ofNat (val >>> 24), UInt8.ofNat (val >>> 16), UInt8.ofNat (val >>> 8),
      UInt8.ofNat val]

-----------------------------------------------------------------------------------------
-- `inet_pton6`
-----------------------------------------------------------------------------------------

/-- `0123456789abcdef` -/
def xdigitsL : List UInt8 :=
  [0x30, 0x31, 0x32, 0x33, 0x34, 0x35, 0x36, 0x37, 0x38, 0x39, 0x61, 0x62, 0x63, 0x64, 0x65, 0x66]

/-- `0123456789ABCDEF` -/
def xdigitsU : List UInt8 :=
  [0x30, 0x31, 0x32, 0x33, 0x34, 0x35, 0x36, 0x37, 0x38, 0x39, 0x41, 0x42, 0x43, 0x44, 0x45, 0x46]

def xdigit (ch : UInt8) : Option Nat :=
  (xdigitsL.findIdx? (· == ch)).orElse (fun _ => xdigitsU.findIdx? (· == ch))

/-- The variables of the loop. The bytes before `tp` are a list, and `colonp` is an index. -/
structure Reader where
  bytes : List UInt8
  colonp : Option Nat
  curtok : List UInt8
  seenXdigits : Nat
  val : Nat
deriving DecidableEq, Repr

/-- `*tp++ = (u_char) (val >> 8) & 0xff; *tp++ = (u_char) val & 0xff` -/
def Reader.word (r : Reader) : Option (List UInt8) :=
  if r.bytes.length + 2 > 16 then none
  else some (r.bytes ++ [UInt8.ofNat (r.val >>> 8), UInt8.ofNat r.val])

/-- The loop, up to the terminator or an IPv4 address. -/
def inetPton6.loop : List UInt8 → Reader → Option Reader
  | [], r => some r
  | ch :: src, r =>
      match xdigit ch with
      | some digit =>
          if r.seenXdigits + 1 > 4 then
            none
          else
            inetPton6.loop src
              { r with val := r.val <<< 4 ||| digit, seenXdigits := r.seenXdigits + 1 }
      | none =>
          if ch = colon then
            if r.seenXdigits = 0 then
              if r.colonp.isSome then
                none
              else
                inetPton6.loop src { r with curtok := src, colonp := some r.bytes.length }
            else if src = [] then
              none
            else
              match r.word with
              | none => none
              | some bytes =>
                  inetPton6.loop src
                    { r with bytes := bytes, curtok := src, seenXdigits := 0, val := 0 }
          else if ch = period && r.bytes.length + 4 ≤ 16 then
            match inetPton4 r.curtok true with
            | some quad => some { r with bytes := r.bytes ++ quad, seenXdigits := 0 }
            | none => none
          else
            none

/-- The bytes with the last word, which no colon ends. -/
def Reader.completed (r : Reader) : Option (List UInt8) :=
  if r.seenXdigits ≠ 0 then r.word else some r.bytes

/-- `endp[- i] = colonp[n - i]; colonp[n - i] = 0` -/
def shiftByte (colonp n : Nat) (tmp : List UInt8) (i : Nat) : List UInt8 :=
  (tmp.set (16 - i) (tmp.getD (colonp + n - i) 0)).set (colonp + n - i) 0

/-- The address is what was read, with zeros at the place of the double colon. -/
def inetPton6.finish (r : Reader) : Option (List UInt8) := do
  let bytes ← r.completed
  match r.colonp with
  | some colonp =>
      if bytes.length = 16 then
        none
      else
        let n := bytes.length - colonp
        let tmp := bytes ++ List.replicate (16 - bytes.length) 0
        return (List.range' 1 n).foldl (shiftByte colonp n) tmp
  | none => if bytes.length ≠ 16 then none else some bytes

/-- A leading colon has to be a double one, and its first half is skipped. -/
def skipColon : List UInt8 → Option (List UInt8)
  | [] => some []
  | ch :: rest =>
      if ch = colon then
        if rest.head? = some colon then some rest else none
      else
        some (ch :: rest)

def inetPton6 (src : List UInt8) : Option (List UInt8) := do
  let src ← skipColon src
  let r ← inetPton6.loop src ⟨[], none, src, 0, 0⟩
  inetPton6.finish r

/-- A result `0` is `none`; otherwise the bytes are stored and `1` is returned. -/
def inetPton (af : Family) (src : List UInt8) : Except Errno (Option (List UInt8)) :=
  match af with
  | .inet => .ok (inetPton4 src true)
  | .inet6 => .ok (inetPton6 src)
  | .other => .error .EAFNOSUPPORT

end BSDLibC.Inet
