import BSDLibC.Xdr.Memory

/-! Records on the wire and how they are written, `xdr_rec.c`: a record is cut into fragments, each
behind a header with its length and a mark on the last one. Short records share a write, long ones
are flushed on the way, and the header of a fragment is filled in behind it. A store outside the
output buffer, and a write of more bytes than an `int` counts, is no result.
-/

namespace BSDLibC.Xdrrec

open Bytes Xdr

/-- `LAST_FRAG` -/
def lastFrag : BitVec 32 := 0x80000000#32

/-- The length in a header. -/
def fraglen (header : BitVec 32) : Nat := (header &&& ~~~lastFrag).toNat

/-- Whether a header is that of the last fragment. -/
def isLast (header : BitVec 32) : Bool := header &&& lastFrag != 0

/-- The header of a fragment. -/
def header (len : Nat) (last : Bool) : BitVec 32 :=
  BitVec.ofNat 32 len ||| (if last then lastFrag else 0)

theorem fraglen_eq_mod (word : BitVec 32) : fraglen word = word.toNat % 2 ^ 31 := by
  rw [fraglen, BitVec.toNat_and]
  exact Nat.and_two_pow_sub_one_eq_mod word.toNat 31

theorem isLast_eq_msb (word : BitVec 32) : isLast word = word.getLsbD 31 := by
  have mask : lastFrag = BitVec.twoPow 32 31 := rfl
  rw [isLast, mask, BitVec.and_twoPow]
  cases word.getLsbD 31 <;> rfl

theorem fraglen_header {len : Nat} (small : len < 2 ^ 31) (last : Bool)
    : fraglen (header len last) = len := by
  have mark : (if last then lastFrag else 0).toNat % 2 ^ 31 = 0 := by
    cases last <;> rfl
  rw [fraglen_eq_mod, header, BitVec.toNat_or, Nat.or_mod_two_pow, mark, BitVec.toNat_ofNat,
    Nat.or_zero]
  omega

theorem isLast_header {len : Nat} (small : len < 2 ^ 31) (last : Bool)
    : isLast (header len last) = last := by
  have unmarked : (BitVec.ofNat 32 len).getLsbD 31 = false := by
    rw [BitVec.getLsbD_ofNat, Nat.testBit_lt_two_pow small]
    rfl
  rw [isLast_eq_msb, header, BitVec.getLsbD_or, unmarked, Bool.false_or]
  cases last <;> rfl

/-- A record as it is cut into fragments. -/
structure Record where
  parts : List (List Byte)
  last : List Byte

/-- What a record says. -/
def Record.content (record : Record) : List Byte := record.parts.flatten ++ record.last

/-- A fragment behind its header. -/
def fragment (bytes : List Byte) (last : Bool) : List Byte :=
  beBytes (header bytes.length last) ++ bytes

/-- A record on the wire. -/
def Record.wire (record : Record) : List Byte :=
  record.parts.flatMap (fun part => fragment part false) ++ fragment record.last true

/-- Only the last fragment may be empty, and the record is within a maximum. -/
structure Record.Formed (record : Record) (maxrec : Nat) : Prop where
  nonempty : ∀ part ∈ record.parts, part ≠ []
  bounded : record.content.length ≤ maxrec

/-- A stream of records. -/
def stream (records : List Record) : List Byte := records.flatMap Record.wire

@[simp]
theorem length_fragment (bytes : List Byte) (last : Bool)
    : (fragment bytes last).length = 4 + bytes.length := by
  simp [fragment]

theorem four_le_length_wire (record : Record) : 4 ≤ record.wire.length := by
  rw [Record.wire, List.length_append, length_fragment]
  omega

theorem stream_cons (record : Record) (records : List Record)
    : stream (record :: records) = record.wire ++ stream records := rfl

theorem stream_append (records records' : List Record)
    : stream (records ++ records') = stream records ++ stream records' := List.flatMap_append

-----------------------------------------------------------------------------------------
-- Writing
-----------------------------------------------------------------------------------------

/-- `fix_buf_size` -/
def fixBufSize (s : Nat) : Nat :=
  let s := if s < 100 then 4000 else s
  (s + 3) % 2 ^ 32 / 4 * 4

/-- `RECSTREAM`, the outgoing part: `outBase` is the buffer up to `out_finger`, and `sent` is what
`writeit` has taken, which is all it is given.
-/
structure OutStrm where
  sendsize : Nat
  outBase : List Byte
  fragHeader : Nat
  fragSent : Bool
  sent : List Byte

/-- `xdrrec_create`. What stands in the place of a header is never sent. -/
def outCreate (sendsize : Nat) : OutStrm :=
  { sendsize := fixBufSize sendsize
    outBase := List.replicate 4 0
    fragHeader := 0
    fragSent := false
    sent := [] }

section

variable (host : Host)

/-- The output buffer with the header of the fragment filled in. -/
def OutStrm.closed (rstrm : OutStrm) (last : Bool) : List Byte :=
  rstrm.outBase.take rstrm.fragHeader
    ++ host.bytes (host.htonl (header (rstrm.outBase.length - rstrm.fragHeader - 4) last))
    ++ rstrm.outBase.drop (rstrm.fragHeader + 4)

/-- `flush_out` -/
def flushOut (rstrm : OutStrm) (eor : Bool) : Option OutStrm :=
  if rstrm.sendsize < rstrm.fragHeader + 4 then
    none
  else if 2 ^ 31 ≤ rstrm.outBase.length then
    none
  else
    some
      { rstrm with
        sent := rstrm.sent ++ rstrm.closed host eor
        fragHeader := 0
        outBase := List.replicate 4 0 }

/-- Bytes stored at `out_finger`. -/
def OutStrm.store (rstrm : OutStrm) (bytes : List Byte) : Option OutStrm :=
  if rstrm.sendsize < rstrm.outBase.length + bytes.length then
    none
  else
    some { rstrm with outBase := rstrm.outBase ++ bytes }

/-- `xdrrec_putlong` -/
def xdrrecPutlong (rstrm : OutStrm) (l : BitVec 64) : Option OutStrm :=
  let word := host.bytes (host.htonl (l.setWidth 32))
  if rstrm.outBase.length + 4 > rstrm.sendsize then do
    let rstrm ← flushOut host { rstrm with fragSent := true } false
    rstrm.store word
  else
    rstrm.store word

/-- The loop of `xdrrec_putbytes`; the first argument bounds its rounds. -/
def xdrrecPutbytes.loop : Nat → OutStrm → List Byte → Option OutStrm
  | _, rstrm, [] => some rstrm
  | 0, _, _ :: _ => none
  | rounds + 1, rstrm, byte :: rest => do
      let addr := byte :: rest
      let current := min addr.length (rstrm.sendsize - rstrm.outBase.length)
      let rstrm ← rstrm.store (addr.take current)
      if rstrm.outBase.length = rstrm.sendsize then
        let rstrm ← flushOut host { rstrm with fragSent := true } false
        xdrrecPutbytes.loop rounds rstrm (addr.drop current)
      else
        xdrrecPutbytes.loop rounds rstrm (addr.drop current)

/-- `xdrrec_putbytes`; a round copies a byte, or makes room for the next one. -/
def xdrrecPutbytes (rstrm : OutStrm) (addr : List Byte) : Option OutStrm :=
  xdrrecPutbytes.loop host (2 * addr.length) rstrm addr

/-- `xdrrec_endofrecord` -/
def xdrrecEndofrecord (rstrm : OutStrm) (sendnow : Bool) : Option OutStrm :=
  if sendnow || rstrm.fragSent || rstrm.outBase.length + 4 ≥ rstrm.sendsize then
    flushOut host { rstrm with fragSent := false } true
  else
    some
      { rstrm with
        outBase := rstrm.closed host true ++ List.replicate 4 0
        fragHeader := rstrm.outBase.length }

/-- What a writer puts into a record. -/
inductive Put where
  | long (l : BitVec 64)
  | bytes (addr : List Byte)

/-- The bytes of a call. -/
def Put.content : Put → List Byte
  | .long l => beBytes (l.setWidth 32)
  | .bytes addr => addr

def put (rstrm : OutStrm) : Put → Option OutStrm
  | .long l => xdrrecPutlong host rstrm l
  | .bytes addr => xdrrecPutbytes host rstrm addr

def putAll : List Put → OutStrm → Option OutStrm
  | [], rstrm => some rstrm
  | call :: calls, rstrm => do putAll calls (← put host rstrm call)

/-- How a record is written: the calls for its content, and whether it is sent at once. -/
structure Written where
  puts : List Put
  sendnow : Bool

def Written.content (written : Written) : List Byte := written.puts.flatMap Put.content

/-- Records written one after the other. -/
def writeAll : List Written → OutStrm → Option OutStrm
  | [], rstrm => some rstrm
  | written :: more, rstrm => do
      let rstrm ← putAll host written.puts rstrm
      let rstrm ← xdrrecEndofrecord host rstrm written.sendnow
      writeAll more rstrm

end

end BSDLibC.Xdrrec
