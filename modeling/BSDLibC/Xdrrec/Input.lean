import BSDLibC.Xdrrec.Output

/-! Reading records from a connection that blocks, `xdr_rec.c`. How `readit` cuts the bytes to come
into pieces is a function of the number of its call; a piece has at least one byte, and at the end
of the bytes `readit` fails, as it does when it is asked for no bytes or for more than an `int`
counts.
-/

namespace BSDLibC.Xdrrec

open Bytes Xdr

/-- `RECSTREAM`, the incoming part: `inBuf` is the buffer from `in_finger` to `in_boundry`. -/
structure InStrm where
  inBase : Nat
  inSize : Nat
  inBuf : List Byte
  inBoundry : Nat
  fbtbc : Nat
  lastFrag : Bool
  reads : Nat
  pending : List Byte

/-- `xdrrec_create`, with a buffer at an address. -/
def inCreate (recvsize inBase : Nat) (pending : List Byte) : InStrm :=
  { inBase := inBase
    inSize := fixBufSize recvsize
    inBuf := []
    inBoundry := inBase + fixBufSize recvsize
    fbtbc := 0
    lastFrag := true
    reads := 0
    pending := pending }

section

variable (cut : Nat → Nat)

/-- `readit` -/
def InStrm.readit (rstrm : InStrm) (len : Nat) : Option (List Byte × InStrm) :=
  if rstrm.pending = [] ∨ len = 0 ∨ 2 ^ 31 ≤ len then
    none
  else
    let n := max 1 (min (cut rstrm.reads) len)
    some (rstrm.pending.take n,
      { rstrm with reads := rstrm.reads + 1, pending := rstrm.pending.drop n })

/-- `fill_input_buf` -/
def fillInputBuf (rstrm : InStrm) : Option InStrm := do
  let i := rstrm.inBoundry % 4
  let (bytes, rstrm) ← rstrm.readit cut (rstrm.inSize - i)
  return { rstrm with inBuf := bytes, inBoundry := rstrm.inBase + i + bytes.length }

/-- The loop of `get_input_bytes`; the first argument bounds its rounds. -/
def getInputBytes.loop : Nat → Nat → List Byte → InStrm → Option (List Byte) × InStrm
  | _, 0, got, rstrm => (some got, rstrm)
  | 0, _ + 1, _, rstrm => (none, rstrm)
  | rounds + 1, len + 1, got, rstrm =>
      if rstrm.inBuf = [] then
        match fillInputBuf cut rstrm with
        | none => (none, rstrm)
        | some rstrm => getInputBytes.loop rounds (len + 1) got rstrm
      else
        let current := min (len + 1) rstrm.inBuf.length
        getInputBytes.loop rounds (len + 1 - current) (got ++ rstrm.inBuf.take current)
          { rstrm with inBuf := rstrm.inBuf.drop current }

/-- `get_input_bytes`; a round takes a byte, or reads one. -/
def getInputBytes (rstrm : InStrm) (len : Nat) : Option (List Byte) × InStrm :=
  getInputBytes.loop cut (2 * len) len [] rstrm

/-- `skip_input_bytes`, the same loop without the copy. -/
def skipInputBytes (rstrm : InStrm) (cnt : Nat) : Bool × InStrm :=
  let (got, rstrm) := getInputBytes cut rstrm cnt
  (got.isSome, rstrm)

variable (host : Host)

/-- `set_input_fragment` -/
def setInputFragment (rstrm : InStrm) : Bool × InStrm :=
  match getInputBytes cut rstrm 4 with
  | (none, rstrm) => (false, rstrm)
  | (some bytes, rstrm) =>
      let header := host.ntohl (host.word bytes)
      let rstrm := { rstrm with lastFrag := isLast header }
      if header = 0 then
        (false, rstrm)
      else
        (true, { rstrm with fbtbc := fraglen header })

/-- The bytes to come, in the buffer and behind it. -/
def InStrm.coming (rstrm : InStrm) : List Byte := rstrm.inBuf ++ rstrm.pending

/-- The loop of `xdrrec_getbytes`. -/
def xdrrecGetbytes.loop : Nat → Nat → List Byte → InStrm → Option (List Byte) × InStrm
  | _, 0, got, rstrm => (some got, rstrm)
  | 0, _ + 1, _, rstrm => (none, rstrm)
  | rounds + 1, len + 1, got, rstrm =>
      if rstrm.fbtbc = 0 then
        if rstrm.lastFrag then
          (none, rstrm)
        else
          match setInputFragment cut host rstrm with
          | (false, rstrm) => (none, rstrm)
          | (true, rstrm) => xdrrecGetbytes.loop rounds (len + 1) got rstrm
      else
        let current := min (len + 1) rstrm.fbtbc
        match getInputBytes cut rstrm current with
        | (none, rstrm) => (none, rstrm)
        | (some bytes, rstrm) =>
            xdrrecGetbytes.loop rounds (len + 1 - current) (got ++ bytes)
              { rstrm with fbtbc := rstrm.fbtbc - current }

/-- `xdrrec_getbytes`; every round but the last one consumes a byte. -/
def xdrrecGetbytes (rstrm : InStrm) (len : Nat) : Option (List Byte) × InStrm :=
  xdrrecGetbytes.loop cut host (rstrm.coming.length + 1) len [] rstrm

/-- `xdrrec_getlong` -/
def xdrrecGetlong (rstrm : InStrm) : Option (BitVec 64) × InStrm :=
  if 4 ≤ rstrm.fbtbc ∧ 4 ≤ rstrm.inBuf.length then
    (some ((host.ntohl (host.word (rstrm.inBuf.take 4))).setWidth 64),
      { rstrm with fbtbc := rstrm.fbtbc - 4, inBuf := rstrm.inBuf.drop 4 })
  else
    match xdrrecGetbytes cut host rstrm 4 with
    | (none, rstrm) => (none, rstrm)
    | (some bytes, rstrm) => (some ((host.ntohl (host.word bytes)).setWidth 64), rstrm)

/-- The loop of `xdrrec_skiprecord`. -/
def xdrrecSkiprecord.loop : Nat → InStrm → Bool × InStrm
  | 0, rstrm => (false, rstrm)
  | rounds + 1, rstrm =>
      if rstrm.fbtbc > 0 ∨ rstrm.lastFrag = false then
        match skipInputBytes cut rstrm rstrm.fbtbc with
        | (false, rstrm) => (false, rstrm)
        | (true, rstrm) =>
            let rstrm := { rstrm with fbtbc := 0 }
            if rstrm.lastFrag then
              xdrrecSkiprecord.loop rounds rstrm
            else
              match setInputFragment cut host rstrm with
              | (false, rstrm) => (false, rstrm)
              | (true, rstrm) => xdrrecSkiprecord.loop rounds rstrm
      else
        (true, { rstrm with lastFrag := false })

/-- `xdrrec_skiprecord`; every round but the last one consumes a byte. -/
def xdrrecSkiprecord (rstrm : InStrm) : Bool × InStrm :=
  xdrrecSkiprecord.loop cut host (rstrm.coming.length + 1) rstrm

end

/-- What a reader asks for. -/
inductive Get where
  | skip
  | bytes (len : Nat)
  | long

/-- What a reader gets. -/
inductive Got where
  | skipped (ok : Bool)
  | bytes (got : Option (List Byte))
  | long (got : Option (BitVec 64))

/-- One call of a reader. -/
def get (cut : Nat → Nat) (host : Host) (rstrm : InStrm) : Get → Got × InStrm
  | .skip =>
      let (ok, rstrm) := xdrrecSkiprecord cut host rstrm
      (.skipped ok, rstrm)
  | .bytes len =>
      let (got, rstrm) := xdrrecGetbytes cut host rstrm len
      (.bytes got, rstrm)
  | .long =>
      let (got, rstrm) := xdrrecGetlong cut host rstrm
      (.long got, rstrm)

/-- What a reader gets in a sequence of calls. -/
def getAll (cut : Nat → Nat) (host : Host) : List Get → InStrm → List Got
  | [], _ => []
  | call :: calls, rstrm =>
      let (got, rstrm) := get cut host rstrm call
      got :: getAll cut host calls rstrm

end BSDLibC.Xdrrec
