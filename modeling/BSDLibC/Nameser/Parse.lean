import BSDLibC.Nameser.Name

/-! Domain names from text, as `ns_name_pton2` reads them. A text is the list of its characters,
whose end is the terminator.
-/

namespace BSDLibC.Nameser

open Bytes Ctype

-----------------------------------------------------------------------------------------
-- Bit strings
-----------------------------------------------------------------------------------------

/-- `strtol(text, &end, 10)` where a digit is first: the number and what follows it. -/
def strtol10 : List UInt8 → Nat → Nat × List UInt8
  | [], val => (min val (2 ^ 63 - 1), [])
  | c :: text, val =>
      if isdigit c.toNat then
        strtol10 text (val * 10 + (c.toNat - 0x30))
      else
        (min val (2 ^ 63 - 1), c :: text)

/-- The entry of a hexadecimal digit in `digitvalue`. -/
def digitvalue (c : UInt8) : Nat :=
  if isdigit c.toNat then c.toNat - 0x30
  else if islower c.toNat then c.toNat - 0x57
  else c.toNat - 0x37

/-- The variables of `encode_bitsring`. The bytes that are stored through `tp` are a list, and
`begBlen` is the text from the digit on where the length begins.
-/
structure Bits where
  afterslash : Bool
  begBlen : Option (List UInt8)
  value : Nat
  count : Nat
  tbcount : Nat
  tp : List UInt8
deriving DecidableEq, Repr

/-- The variables at the end of the loop, with the length and the rest of the text. -/
structure Scanned where
  bits : Bits
  blen : Int
  cp : List UInt8
  left : Nat
deriving DecidableEq, Repr

/-- A digit without a partner is the high half of a byte. -/
def Bits.padded (bits : Bits) : Bits :=
  if bits.count ≠ 0 then { bits with tp := bits.tp ++ [UInt8.ofNat (bits.value <<< 4)] } else bits

/-- `case ']'` -/
def closeBits (bits : Bits) (cp : List UInt8) (left : Nat) : Except Errno Scanned :=
  if bits.afterslash then
    match bits.begBlen with
    | none => .error .EINVAL
    | some text =>
        let (blen, rest) := strtol10 text 0
        if rest.head? ≠ some 0x5d then .error .EINVAL else .ok ⟨bits.padded, toInt blen, cp, left⟩
  else
    .ok ⟨bits.padded, 0, cp, left⟩

/-- A digit of the length, at `cp`. -/
def lengthDigit (bits : Bits) (cp : List UInt8) (c : UInt8) : Except Errno Bits :=
  if !isdigit c.toNat then
    .error .EINVAL
  else if bits.begBlen.isNone then
    if c = 0x30 then .error .EINVAL else .ok { bits with begBlen := some cp }
  else
    .ok bits

/-- A digit of the bits. Of `value`, which is not cleared between bytes, the last byte is used. -/
def bitsDigit (bits : Bits) (c : UInt8) : Except Errno Bits :=
  if !isxdigit c.toNat then
    .error .EINVAL
  else
    let value := (bits.value <<< 4 + digitvalue c) % 2 ^ 32
    if bits.tbcount + 4 > 256 then
      .error .EINVAL
    else if bits.count + 4 = 8 then
      .ok { bits with
        value := value,
        count := 0,
        tbcount := bits.tbcount + 4,
        tp := bits.tp ++ [UInt8.ofNat value] }
    else
      .ok { bits with value := value, count := bits.count + 4, tbcount := bits.tbcount + 4 }

/-- The loop, for at most `left` characters and as long as there is `room` before `eom`. -/
def scanBits (room : Nat) : Nat → List UInt8 → Bits → Except Errno Scanned
  | 0, cp, bits => .ok ⟨bits, 0, cp, 0⟩
  | left + 1, cp, bits =>
      if bits.tp.length ≥ room then
        .ok ⟨bits, 0, cp, left + 1⟩
      else if cp.headD 0 = 0x5d then
        closeBits bits cp.tail left
      else if cp.headD 0 = 0x2f then
        scanBits room left cp.tail { bits with afterslash := true }
      else
        match if bits.afterslash then lengthDigit bits cp (cp.headD 0)
            else bitsDigit bits (cp.headD 0) with
        | .error errno => .error errno
        | .ok bits => scanBits room left cp.tail bits

/-- The check of the length against the digits. -/
def validLength (scanned : Scanned) : Except Errno Int :=
  if scanned.blen > 0 then
    if (scanned.blen + 3) / 4 * 4 ≠ scanned.bits.tbcount then
      .error .EINVAL
    else
      let traillen := scanned.bits.tbcount - scanned.blen.toNat
      if (scanned.bits.value <<< (8 - traillen)) % 256 ≠ 0 then .error .EINVAL else .ok scanned.blen
  else
    .ok scanned.bits.tbcount

/-- The checks after the loop. The result is the bytes from `*dst` on, and the text after the
label.
-/
def finishBits (room : Nat) (scanned : Scanned) : Except Errno (List UInt8 × List UInt8) :=
  if scanned.left = 0 || scanned.bits.tp.length + 1 ≥ room then
    .error .EMSGSIZE
  else
    (validLength scanned).map (fun blen =>
      (UInt8.ofNat (if blen = 256 then 0 else blen.toNat) :: scanned.bits.tp, scanned.cp))

/-- The text goes up to `end`, which is `left` characters away, and `room` is what there is from
`*dst` to `eom`.
-/
def encodeBitsring (src : List UInt8) (left room : Nat) : Except Errno (List UInt8 × List UInt8) :=
  if left < 2 then
    .error .EINVAL
  else if src.headD 0 ≠ 0x78 then
    .error .EINVAL
  else if !isxdigit (src.tail.headD 0).toNat then
    .error .EINVAL
  else
    (scanBits (room - 1) (left - 1) src.tail ⟨false, none, 0, 0, 0, []⟩).bind (finishBits room)

-----------------------------------------------------------------------------------------
-- `ns_name_pton2`
-----------------------------------------------------------------------------------------

/-- The variables of the loop. `label` points behind the bytes that are done, `bp` behind those
of the label.
-/
structure Parser where
  done : List UInt8
  bytes : List UInt8
  escaped : Bool
deriving DecidableEq, Repr

def Parser.label (p : Parser) : Nat := p.done.length

def Parser.bp (p : Parser) : Nat := p.done.length + 1 + p.bytes.length

/-- What is returned, and the name in `dst`. -/
abbrev Parsed := Except Errno (Nat × List UInt8)

/-- The length of a label goes before its bytes. A label that is not empty is followed by the
root.
-/
def closeName (dstsiz : Nat) (p : Parser) (result : Nat) : Parsed :=
  if p.label ≥ dstsiz then
    .error .EMSGSIZE
  else
    let name := p.done ++ UInt8.ofNat p.bytes.length :: p.bytes
    if p.bytes = [] then
      if name.length > maxCdname then .error .EMSGSIZE else .ok (result, name)
    else if p.bp ≥ dstsiz then
      .error .EMSGSIZE
    else
      if name.length + 1 > maxCdname then .error .EMSGSIZE else .ok (result, name ++ [0])

/-- The bytes of a label are stored one by one. -/
def Parser.store (dstsiz : Nat) (p : Parser) (c : UInt8) : Except Errno Parser :=
  if p.bp ≥ dstsiz then .error .EMSGSIZE
  else .ok { p with bytes := p.bytes ++ [c], escaped := false }

/-- The position of a character in `digits`. -/
def digitAt (c : UInt8) : Option Nat :=
  if isdigit c.toNat then some (c.toNat - 0x30) else none

/-- The number of three digits, and the text after it. -/
def decimalEscape (first : Nat) (src : List UInt8) : Except Errno (UInt8 × List UInt8) :=
  match src with
  | c :: c' :: src =>
      match digitAt c, digitAt c' with
      | some second, some third =>
          let n := first * 100 + second * 10 + third
          if n > 255 then .error .EMSGSIZE else .ok (UInt8.ofNat n, src)
      | _, _ => .error .EMSGSIZE
  | _ => .error .EMSGSIZE

/-- The loop over the text. Each round takes a character, which bounds their number. -/
def nsNamePton2.loop (dstsiz : Nat) : Nat → List UInt8 → Parser → Option Parsed
  | 0, _, _ => none
  | _ + 1, [], p =>
      if p.bytes.length &&& cmprsflgs ≠ 0 then some (.error .EMSGSIZE)
      else some (closeName dstsiz p 0)
  | fuel + 1, c :: src, p =>
      if p.escaped then
        if c = 0x5b then
          match src.findIdx? (· == 0x5d) with
          | none => some (.error .EINVAL)
          | some close =>
              match encodeBitsring src (close + 2) (dstsiz - p.bp) with
              | .error errno => some (.error errno)
              | .ok (written, src) =>
                  let p : Parser := ⟨p.done ++ bitstringType :: (p.bytes ++ written), [], false⟩
                  match src with
                  | [] => some (closeName dstsiz p 0)
                  | c :: src =>
                      if c ≠ dot then some (.error .EINVAL)
                      else nsNamePton2.loop dstsiz fuel src p
        else
          match digitAt c with
          | some first =>
              match decimalEscape first src with
              | .error errno => some (.error errno)
              | .ok (c, src) =>
                  match p.store dstsiz c with
                  | .error errno => some (.error errno)
                  | .ok p => nsNamePton2.loop dstsiz fuel src p
          | none =>
              match p.store dstsiz c with
              | .error errno => some (.error errno)
              | .ok p => nsNamePton2.loop dstsiz fuel src p
      else if c = backslash then
        nsNamePton2.loop dstsiz fuel src { p with escaped := true }
      else if c = dot then
        if p.bytes.length &&& cmprsflgs ≠ 0 then
          some (.error .EMSGSIZE)
        else if p.label ≥ dstsiz then
          some (.error .EMSGSIZE)
        else if src = [] then
          some (closeName dstsiz p 1)
        else if p.bytes = [] || src.head? = some dot then
          some (.error .EMSGSIZE)
        else
          nsNamePton2.loop dstsiz fuel src
            ⟨p.done ++ UInt8.ofNat p.bytes.length :: p.bytes, [], false⟩
      else
        match p.store dstsiz c with
        | .error errno => some (.error errno)
        | .ok p => nsNamePton2.loop dstsiz fuel src p

def nsNamePton (src : List UInt8) (dstsiz : Nat) : Option Parsed :=
  nsNamePton2.loop dstsiz (src.length + 1) src ⟨[], [], false⟩

end BSDLibC.Nameser
