import BSDLibC.Bytes.Buffer
import BSDLibC.Ctype.CLocale

/-! The encoder and the decoder of `base64.c`. A result `none` is an access outside of the
memory that the call has got, or a call of `abort`.
-/

namespace BSDLibC.Base64

open Bytes Ctype

/-- `ABCDEFGHIJKLMNOPQRSTUVWXYZabcdefghijklmnopqrstuvwxyz0123456789+/` -/
def base64 : List UInt8 :=
  [0x41, 0x42, 0x43, 0x44, 0x45, 0x46, 0x47, 0x48, 0x49, 0x4a, 0x4b, 0x4c, 0x4d, 0x4e, 0x4f, 0x50,
    0x51, 0x52, 0x53, 0x54, 0x55, 0x56, 0x57, 0x58, 0x59, 0x5a, 0x61, 0x62, 0x63, 0x64, 0x65, 0x66,
    0x67, 0x68, 0x69, 0x6a, 0x6b, 0x6c, 0x6d, 0x6e, 0x6f, 0x70, 0x71, 0x72, 0x73, 0x74, 0x75, 0x76,
    0x77, 0x78, 0x79, 0x7a, 0x30, 0x31, 0x32, 0x33, 0x34, 0x35, 0x36, 0x37, 0x38, 0x39, 0x2b, 0x2f]

/-- `=` -/
def pad64 : UInt8 := 0x3d

-----------------------------------------------------------------------------------------
-- `b64_ntop`
-----------------------------------------------------------------------------------------

def output0 (a : UInt8) : UInt8 := a >>> 2

def output1 (a b : UInt8) : UInt8 := ((a &&& 0x03) <<< 4) + (b >>> 4)

def output2 (b c : UInt8) : UInt8 := ((b &&& 0x0f) <<< 2) + (c >>> 6)

def output3 (c : UInt8) : UInt8 := c &&& 0x3f

/-- `Base64[output]`, after the assertion that there is such a character. -/
def digit (output : UInt8) : Option UInt8 := base64[output.toNat]?

/-- What remains after the full groups, and the terminator. -/
def b64Ntop.finish (targsize : Nat) (src target : List UInt8) (datalength : Nat)
    : Option (Int × List UInt8) := do
  if src.length = 0 then
    if datalength ≥ targsize then return (-1, target)
    let target ← store target datalength 0
    return (toInt datalength, target)
  else
    let input0 := src.headD 0
    let input1 := src.tail.headD 0
    let d0 ← digit (output0 input0)
    let d1 ← digit (output1 input0 input1)
    let d2 ← digit (output2 input1 0)
    if datalength + 4 > targsize then return (-1, target)
    let target ← storeAll target datalength [d0, d1, if src.length = 1 then pad64 else d2, pad64]
    let datalength := datalength + 4
    if datalength ≥ targsize then return (-1, target)
    let target ← store target datalength 0
    return (toInt datalength, target)

def b64Ntop.loop (targsize : Nat) : List UInt8 → List UInt8 → Nat → Option (Int × List UInt8)
  | a :: b :: c :: src, target, datalength => do
      let d0 ← digit (output0 a)
      let d1 ← digit (output1 a b)
      let d2 ← digit (output2 b c)
      let d3 ← digit (output3 c)
      if datalength + 4 > targsize then return (-1, target)
      let target ← storeAll target datalength [d0, d1, d2, d3]
      b64Ntop.loop targsize src target (datalength + 4)
  | src, target, datalength => b64Ntop.finish targsize src target datalength

/-- `src` has `srclength` bytes. The result is the returned value and the buffer. -/
def b64Ntop (src target : List UInt8) (targsize : Nat) : Option (Int × List UInt8) :=
  b64Ntop.loop targsize src target 0

-----------------------------------------------------------------------------------------
-- `b64_pton`
-----------------------------------------------------------------------------------------

/-- The variables of the loop. The target may be `NULL`. -/
structure Decoder where
  target : Option (List UInt8)
  state : Fin 4
  tarindex : Nat
deriving DecidableEq, Repr

/-- A digit is refused with `-1`, or the loop goes on. -/
inductive Outcome
  | fail (target : Option (List UInt8))
  | next (d : Decoder)
deriving DecidableEq, Repr

/-- A digit whose bits belong to one byte. `merge` gives the byte from the old one. -/
def wholeBits (targsize : Nat) (d : Decoder) (merge : UInt8 → UInt8) (done : Decoder)
    : Option Outcome :=
  match d.target with
  | none => some (.next done)
  | some target =>
      if d.tarindex ≥ targsize then
        some (.fail target)
      else do
        let old ← target[d.tarindex]?
        let target ← store target d.tarindex (merge old)
        return .next { done with target := some target }

/-- A digit whose low bits begin the next byte. Without room for it they have to be zero. -/
def splitBits (targsize : Nat) (d : Decoder) (bits nextbyte : UInt8) (done : Decoder)
    : Option Outcome :=
  match d.target with
  | none => some (.next done)
  | some target =>
      if d.tarindex ≥ targsize then
        some (.fail target)
      else do
        let old ← target[d.tarindex]?
        let target ← store target d.tarindex (old ||| bits)
        if d.tarindex + 1 < targsize then
          let target ← store target (d.tarindex + 1) nextbyte
          return .next { done with target := some target }
        else if nextbyte ≠ 0 then
          return .fail target
        else
          return .next { done with target := some target }

/-- The `switch` for the digit at `pos` of the alphabet. -/
def decodeDigit (targsize : Nat) (d : Decoder) (pos : Nat) : Option Outcome :=
  match d.state with
  | 0 => wholeBits targsize d (fun _ => UInt8.ofNat (pos <<< 2)) { d with state := 1 }
  | 1 => splitBits targsize d (UInt8.ofNat (pos >>> 4)) (UInt8.ofNat ((pos &&& 0x0f) <<< 4))
      { d with state := 2, tarindex := d.tarindex + 1 }
  | 2 => splitBits targsize d (UInt8.ofNat (pos >>> 2)) (UInt8.ofNat ((pos &&& 0x03) <<< 6))
      { d with state := 3, tarindex := d.tarindex + 1 }
  | 3 => wholeBits targsize d (fun old => old ||| UInt8.ofNat pos)
      { d with state := 0, tarindex := d.tarindex + 1 }

/-- `isspace(ch)`. A `char` that was read without a conversion has a sign, and a negative number
has no class.
-/
def spaceAt (plain : Bool) (ch : UInt8) : Option Bool :=
  if plain && 0x80 ≤ ch then none else some (isspace ch.toNat)

/-- The character that ends spaces, and the text after it. The first one is a plain `char`, the
later ones are bytes.
-/
def skipSpaces (plain : Bool) : List UInt8 → Option (UInt8 × List UInt8)
  | [] => none
  | ch :: src =>
      if ch = 0 then
        some (ch, src)
      else do
        if ← spaceAt plain ch then skipSpaces false src else some (ch, src)

/-- After a pad character: whether what follows is allowed there. -/
def trailer (state : Fin 4) (src : List UInt8) : Option Bool :=
  match state with
  | 0 | 1 => some false
  | 2 => do
      let (ch, src) ← skipSpaces true src
      if ch ≠ pad64 then
        return false
      else
        let (ch, _) ← skipSpaces true src
        return ch = 0
  | 3 => do
      let (ch, _) ← skipSpaces true src
      return ch = 0

/-- The extra bits behind the last byte are zero, where there is a byte for them. -/
def extraClear (targsize : Nat) (d : Decoder) : Option Bool :=
  match d.target with
  | none => some true
  | some target =>
      if d.tarindex < targsize then
        (target[d.tarindex]?).map (· = 0)
      else
        some true

/-- The checks after the loop, which has ended at a pad character or at the terminator. -/
def b64Pton.finish (targsize : Nat) (d : Decoder) (pad : Bool) (src : List UInt8)
    : Option (Int × Option (List UInt8)) := do
  if pad then
    if ← trailer d.state src then
      if ← extraClear targsize d then
        return (toInt d.tarindex, d.target)
      else
        return (-1, d.target)
    else
      return (-1, d.target)
  else if d.state ≠ 0 then
    return (-1, d.target)
  else
    return (toInt d.tarindex, d.target)

def b64Pton.loop (targsize : Nat) : List UInt8 → Decoder → Option (Int × Option (List UInt8))
  | [], _ => none
  | ch :: src, d =>
      if ch = 0 then
        b64Pton.finish targsize d false src
      else if isspace ch.toNat then
        b64Pton.loop targsize src d
      else if ch = pad64 then
        b64Pton.finish targsize d true src
      else
        match base64.findIdx? (· == ch) with
        | none => some (-1, d.target)
        | some pos =>
            match decodeDigit targsize d pos with
            | none => none
            | some (.fail target) => some (-1, target)
            | some (.next d) => b64Pton.loop targsize src d

/-- `src` has the terminator of the string in it. -/
def b64Pton (src : List UInt8) (target : Option (List UInt8)) (targsize : Nat)
    : Option (Int × Option (List UInt8)) :=
  b64Pton.loop targsize src { target := target, state := 0, tarindex := 0 }

end BSDLibC.Base64
