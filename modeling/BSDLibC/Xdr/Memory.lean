import BSDLibC.Bytes.Endian

/-! Memory streams, `xdr_mem.c`: the two tables of operations on a buffer at an address. An access
outside the buffer, and an access to a word through the table for aligned buffers at an address
that is not aligned, is a fault.
-/

namespace BSDLibC.Xdr

open Bytes

abbrev Byte := BitVec 8

/-- What the machine decides: its byte order, and whether its `char` is signed. -/
structure Host where
  bigEndian : Bool
  signedChar : Bool

/-- The word at four bytes of memory. -/
def Host.word (host : Host) (bytes : List Byte) : BitVec 32 :=
  beWord (if host.bigEndian then bytes else bytes.reverse)

/-- The four bytes of a word in memory. -/
def Host.bytes (host : Host) (word : BitVec 32) : List Byte :=
  if host.bigEndian then beBytes word else (beBytes word).reverse

/-- `bswap32` -/
def bswap32 (word : BitVec 32) : BitVec 32 := beWord (beBytes word).reverse

def Host.htonl (host : Host) (word : BitVec 32) : BitVec 32 :=
  if host.bigEndian then word else bswap32 word

def Host.ntohl (host : Host) (word : BitVec 32) : BitVec 32 :=
  if host.bigEndian then word else bswap32 word

theorem Host.bytes_htonl (host : Host) (word : BitVec 32)
    : host.bytes (host.htonl word) = beBytes word := by
  cases big : host.bigEndian with
  | true => simp [Host.bytes, Host.htonl, big]
  | false => simp [Host.bytes, Host.htonl, big, bswap32, beBytes_beWord]

theorem Host.ntohl_word (host : Host) {bytes : List Byte} (length : bytes.length = 4)
    : host.ntohl (host.word bytes) = beWord bytes := by
  cases big : host.bigEndian with
  | true => simp [Host.ntohl, Host.word, big]
  | false => simp [Host.ntohl, Host.word, big, bswap32, beBytes_beWord, length]

/-- How an operation can fail: it returns `FALSE`, or it touches memory that it must not. -/
inductive Fail where
  | refused
  | fault
deriving DecidableEq

/-- `XDR` on a buffer: which of the two tables of operations it has, its private fields and the
buffer at `base`.
-/
structure Handle where
  aligned : Bool
  base : Nat
  priv : Nat
  handy : Nat
  buf : List Byte
deriving DecidableEq

/-- `xdrmem_create` on a buffer of any content. -/
def xdrmemCreate (addr : Nat) (buf : List Byte) : Handle :=
  { aligned := addr % 4 = 0
    base := addr
    priv := addr
    handy := buf.length
    buf := buf }

namespace Handle

/-- Bytes of the buffer. -/
def load (xdrs : Handle) (addr len : Nat) : Except Fail (List Byte) :=
  if xdrs.base ≤ addr ∧ addr + len ≤ xdrs.base + xdrs.buf.length then
    .ok ((xdrs.buf.drop (addr - xdrs.base)).take len)
  else
    .error .fault

/-- Bytes put into the buffer. -/
def store (xdrs : Handle) (addr : Nat) (bytes : List Byte) : Except Fail Handle :=
  if xdrs.base ≤ addr ∧ addr + bytes.length ≤ xdrs.base + xdrs.buf.length then
    .ok
      { xdrs with
        buf := xdrs.buf.take (addr - xdrs.base) ++ bytes
          ++ xdrs.buf.drop (addr - xdrs.base + bytes.length) }
  else
    .error .fault

end Handle

section

variable (host : Host)

/-- `xdrmem_getlong_aligned` -/
def xdrmemGetlongAligned (xdrs : Handle) : Except Fail (BitVec 64 × Handle) :=
  if xdrs.handy < 4 then
    .error .refused
  else if xdrs.priv % 4 = 0 then do
    let word ← xdrs.load xdrs.priv 4
    return ((host.ntohl (host.word word)).setWidth 64,
      { xdrs with handy := xdrs.handy - 4, priv := xdrs.priv + 4 })
  else
    .error .fault

/-- `xdrmem_putlong_aligned` -/
def xdrmemPutlongAligned (xdrs : Handle) (l : BitVec 64) : Except Fail Handle :=
  if xdrs.handy < 4 then
    .error .refused
  else if xdrs.priv % 4 = 0 then do
    let xdrs ← xdrs.store xdrs.priv (host.bytes (host.htonl (l.setWidth 32)))
    return { xdrs with handy := xdrs.handy - 4, priv := xdrs.priv + 4 }
  else
    .error .fault

/-- `xdrmem_getlong_unaligned` -/
def xdrmemGetlongUnaligned (xdrs : Handle) : Except Fail (BitVec 64 × Handle) :=
  if xdrs.handy < 4 then
    .error .refused
  else do
    let word ← xdrs.load xdrs.priv 4
    return ((host.ntohl (host.word word)).setWidth 64,
      { xdrs with handy := xdrs.handy - 4, priv := xdrs.priv + 4 })

/-- `xdrmem_putlong_unaligned` -/
def xdrmemPutlongUnaligned (xdrs : Handle) (l : BitVec 64) : Except Fail Handle :=
  if xdrs.handy < 4 then
    .error .refused
  else do
    let xdrs ← xdrs.store xdrs.priv (host.bytes (host.htonl (l.setWidth 32)))
    return { xdrs with handy := xdrs.handy - 4, priv := xdrs.priv + 4 }

/-- `xdrmem_getbytes` -/
def xdrmemGetbytes (xdrs : Handle) (len : Nat) : Except Fail (List Byte × Handle) :=
  if xdrs.handy < len then
    .error .refused
  else do
    let bytes ← xdrs.load xdrs.priv len
    return (bytes, { xdrs with handy := xdrs.handy - len, priv := xdrs.priv + len })

/-- `xdrmem_putbytes` -/
def xdrmemPutbytes (xdrs : Handle) (bytes : List Byte) : Except Fail Handle :=
  if xdrs.handy < bytes.length then
    .error .refused
  else do
    let xdrs ← xdrs.store xdrs.priv bytes
    return { xdrs with handy := xdrs.handy - bytes.length, priv := xdrs.priv + bytes.length }

/-- `XDR_GETLONG` -/
def xdrGetlong (xdrs : Handle) : Except Fail (BitVec 64 × Handle) :=
  if xdrs.aligned then xdrmemGetlongAligned host xdrs else xdrmemGetlongUnaligned host xdrs

/-- `XDR_PUTLONG` -/
def xdrPutlong (xdrs : Handle) (l : BitVec 64) : Except Fail Handle :=
  if xdrs.aligned then xdrmemPutlongAligned host xdrs l else xdrmemPutlongUnaligned host xdrs l

end

/-- The cursor is in the buffer, and the counter is what is left behind it. -/
structure Inside (xdrs : Handle) : Prop where
  low : xdrs.base ≤ xdrs.priv
  room : xdrs.priv + xdrs.handy = xdrs.base + xdrs.buf.length

/-- Under the table for aligned buffers the cursor is also aligned, between two items. -/
structure Good (xdrs : Handle) : Prop extends Inside xdrs where
  table : xdrs.aligned = true → xdrs.priv % 4 = 0

theorem good_create (addr : Nat) (buf : List Byte) : Good (xdrmemCreate addr buf) :=
  ⟨⟨Nat.le_refl _, rfl⟩, fun aligned => by simpa [xdrmemCreate] using aligned⟩

namespace Handle

/-- What is left behind the cursor. -/
def rest (xdrs : Handle) : List Byte := xdrs.buf.drop (xdrs.priv - xdrs.base)

/-- What is before the cursor. -/
def done (xdrs : Handle) : List Byte := xdrs.buf.take (xdrs.priv - xdrs.base)

/-- The cursor moved over some bytes. -/
def skip (xdrs : Handle) (n : Nat) : Handle :=
  { xdrs with handy := xdrs.handy - n, priv := xdrs.priv + n }

/-- Bytes written at the cursor. -/
def write (xdrs : Handle) (bytes : List Byte) : Handle :=
  { xdrs with
    buf := xdrs.done ++ bytes ++ xdrs.rest.drop bytes.length
    handy := xdrs.handy - bytes.length
    priv := xdrs.priv + bytes.length }

end Handle

section

variable {xdrs : Handle}

theorem Inside.length_rest (inside : Inside xdrs) : xdrs.rest.length = xdrs.handy := by
  have := inside.low
  have := inside.room
  rw [Handle.rest, List.length_drop]
  omega

theorem Inside.length_done (inside : Inside xdrs) : xdrs.done.length = xdrs.priv - xdrs.base := by
  have := inside.low
  have := inside.room
  rw [Handle.done, List.length_take]
  omega

theorem Inside.skip (inside : Inside xdrs) {n : Nat} (left : n ≤ xdrs.handy)
    : Inside (xdrs.skip n) := by
  have low := inside.low
  have room := inside.room
  constructor
  · show xdrs.base ≤ xdrs.priv + n
    omega
  · show xdrs.priv + n + (xdrs.handy - n) = xdrs.base + xdrs.buf.length
    omega

theorem Good.skip (good : Good xdrs) {n : Nat} (left : n ≤ xdrs.handy) (units : n % 4 = 0)
    : Good (xdrs.skip n) := by
  refine ⟨good.toInside.skip left, fun aligned => ?_⟩
  have := good.table aligned
  show (xdrs.priv + n) % 4 = 0
  omega

theorem Inside.rest_skip (inside : Inside xdrs) (n : Nat)
    : (xdrs.skip n).rest = xdrs.rest.drop n := by
  have low := inside.low
  rw [Handle.rest, Handle.rest, List.drop_drop]
  show xdrs.buf.drop (xdrs.priv + n - xdrs.base) = _
  congr 1
  omega

theorem skip_skip (xdrs : Handle) (n m : Nat) : (xdrs.skip n).skip m = xdrs.skip (n + m) := by
  simp only [Handle.skip, Handle.mk.injEq, true_and, and_true]
  omega

theorem skip_zero (xdrs : Handle) : xdrs.skip 0 = xdrs := rfl

theorem Inside.write (inside : Inside xdrs) {bytes : List Byte} (left : bytes.length ≤ xdrs.handy)
    : Inside (xdrs.write bytes) := by
  have low := inside.low
  have room := inside.room
  constructor
  · show xdrs.base ≤ xdrs.priv + bytes.length
    omega
  · show xdrs.priv + bytes.length + (xdrs.handy - bytes.length)
      = xdrs.base + (xdrs.done ++ bytes ++ xdrs.rest.drop bytes.length).length
    simp only [List.length_append, List.length_drop, inside.length_done, inside.length_rest]
    omega

theorem Good.write (good : Good xdrs) {bytes : List Byte} (left : bytes.length ≤ xdrs.handy)
    (units : bytes.length % 4 = 0)
    : Good (xdrs.write bytes) := by
  refine ⟨good.toInside.write left, fun aligned => ?_⟩
  have := good.table aligned
  show (xdrs.priv + bytes.length) % 4 = 0
  omega

theorem Inside.done_write (inside : Inside xdrs) (bytes : List Byte)
    : (xdrs.write bytes).done = xdrs.done ++ bytes := by
  have low := inside.low
  have length := inside.length_done
  show (xdrs.done ++ bytes ++ xdrs.rest.drop bytes.length).take
    (xdrs.priv + bytes.length - xdrs.base) = _
  rw [List.take_left']
  rw [List.length_append]
  omega

theorem Inside.rest_write (inside : Inside xdrs) (bytes : List Byte)
    : (xdrs.write bytes).rest = xdrs.rest.drop bytes.length := by
  have low := inside.low
  have length := inside.length_done
  show (xdrs.done ++ bytes ++ xdrs.rest.drop bytes.length).drop
    (xdrs.priv + bytes.length - xdrs.base) = _
  rw [List.drop_left']
  rw [List.length_append]
  omega

/-- Bytes written in two parts. -/
theorem Inside.write_write (inside : Inside xdrs) (first second : List Byte)
    : (xdrs.write first).write second = xdrs.write (first ++ second) := by
  rw [Handle.write, inside.done_write, inside.rest_write]
  simp only [Handle.write, List.drop_drop, List.length_append, List.append_assoc,
    Handle.mk.injEq, true_and, and_true]
  omega

theorem write_nil (xdrs : Handle) : xdrs.write [] = xdrs := by
  simp [Handle.write, Handle.done, Handle.rest]

theorem Inside.load_eq (inside : Inside xdrs) {len : Nat} (left : len ≤ xdrs.handy)
    : xdrs.load xdrs.priv len = .ok (xdrs.rest.take len) := by
  have low := inside.low
  have room := inside.room
  rw [Handle.load, if_pos ⟨low, by omega⟩]
  rfl

theorem Inside.store_eq (inside : Inside xdrs) {bytes : List Byte}
    (left : bytes.length ≤ xdrs.handy)
    : xdrs.store xdrs.priv bytes
      = .ok { xdrs with buf := xdrs.done ++ bytes ++ xdrs.rest.drop bytes.length } := by
  have low := inside.low
  have room := inside.room
  rw [Handle.store, if_pos ⟨low, by omega⟩, Handle.done, Handle.rest, List.drop_drop]

theorem Inside.getbytes_eq (inside : Inside xdrs) (len : Nat)
    : xdrmemGetbytes xdrs len
      = if xdrs.handy < len then .error .refused
        else .ok (xdrs.rest.take len, xdrs.skip len) := by
  rw [xdrmemGetbytes]
  split
  · rfl
  · rw [inside.load_eq (by omega)]
    rfl

theorem Inside.putbytes_eq (inside : Inside xdrs) (bytes : List Byte)
    : xdrmemPutbytes xdrs bytes
      = if xdrs.handy < bytes.length then .error .refused else .ok (xdrs.write bytes) := by
  rw [xdrmemPutbytes]
  split
  · rfl
  · rw [inside.store_eq (by omega)]
    rfl

/-- Both tables read the same word. -/
theorem Good.getlong_eq (good : Good xdrs) (host : Host)
    : xdrGetlong host xdrs
      = if xdrs.handy < 4 then .error .refused
        else .ok ((beWord (xdrs.rest.take 4)).setWidth 64, xdrs.skip 4) := by
  by_cases short : xdrs.handy < 4
  · rw [if_pos short, xdrGetlong]
    split
    · rw [xdrmemGetlongAligned, if_pos short]
    · rw [xdrmemGetlongUnaligned, if_pos short]
  · have length : (xdrs.rest.take 4).length = 4 := by
      rw [List.length_take, good.length_rest]
      omega
    have loaded := good.load_eq (show 4 ≤ xdrs.handy by omega)
    rw [if_neg short, xdrGetlong]
    split
    · next aligned =>
      rw [xdrmemGetlongAligned, if_neg short, if_pos (good.table aligned), loaded]
      simp only [bind, Except.bind, host.ntohl_word length]
      rfl
    · rw [xdrmemGetlongUnaligned, if_neg short, loaded]
      simp only [bind, Except.bind, host.ntohl_word length]
      rfl

/-- Both tables write the same word. -/
theorem Good.putlong_eq (good : Good xdrs) (host : Host) (l : BitVec 64)
    : xdrPutlong host xdrs l
      = if xdrs.handy < 4 then .error .refused
        else .ok (xdrs.write (beBytes (l.setWidth 32))) := by
  by_cases short : xdrs.handy < 4
  · rw [if_pos short, xdrPutlong]
    split
    · rw [xdrmemPutlongAligned, if_pos short]
    · rw [xdrmemPutlongUnaligned, if_pos short]
  · have stored := good.store_eq (show (beBytes (l.setWidth 32)).length ≤ xdrs.handy by
      rw [length_beBytes]
      omega)
    rw [if_neg short, xdrPutlong]
    split
    · next aligned =>
      rw [xdrmemPutlongAligned, if_neg short, if_pos (good.table aligned), host.bytes_htonl, stored]
      rfl
    · rw [xdrmemPutlongUnaligned, if_neg short, host.bytes_htonl, stored]
      rfl

end

-----------------------------------------------------------------------------------------
-- `xdr_long`, where a `long` has 64 bits
-----------------------------------------------------------------------------------------

section

variable (host : Host)

/-- `xdr_long`, encoding. -/
def xdrLongEncode (l : BitVec 64) (xdrs : Handle) : Except Fail Handle := xdrPutlong host xdrs l

/-- `xdr_long`, decoding. -/
def xdrLongDecode (xdrs : Handle) : Except Fail (BitVec 64 × Handle) := xdrGetlong host xdrs

/-- What is decoded from the place where a value was encoded. -/
def longBack (l : BitVec 64) (xdrs : Handle) : Except Fail (BitVec 64) := do
  let written ← xdrLongEncode host l xdrs
  let (back, _) ← xdrLongDecode host { xdrs with buf := written.buf }
  return back

/-- The values of the type on the wire. -/
def IsInt32 (l : BitVec 64) : Prop := -2 ^ 31 ≤ l.toInt ∧ l.toInt < 2 ^ 31

/-- What is promised for a value: it comes back, or it is refused if the wire cannot carry it. -/
structure LongExact (l : BitVec 64) (xdrs : Handle) : Prop where
  back : IsInt32 l → longBack host l xdrs = .ok l
  refused : ¬ IsInt32 l → xdrLongEncode host l xdrs = .error .refused

end

variable {xdrs : Handle}

/-- The sign does not come back. -/
theorem longBack_eq (host : Host) (good : Good xdrs) (room : 4 ≤ xdrs.handy) (l : BitVec 64)
    : longBack host l xdrs = .ok ((l.setWidth 32).setWidth 64) := by
  have fits : ¬ xdrs.handy < 4 := Nat.not_lt.mpr room
  have length := good.length_done
  let written := xdrs.write (beBytes (l.setWidth 32))
  have same : Good { xdrs with buf := written.buf } := by
    refine ⟨⟨good.low, ?_⟩, good.table⟩
    have left : (beBytes (l.setWidth 32)).length ≤ xdrs.handy := room
    have total := (good.toInside.write left).room
    change xdrs.priv + 4 + (xdrs.handy - 4) = xdrs.base + written.buf.length at total
    rw [← total, Nat.add_assoc, Nat.add_sub_of_le room]
  have here : Handle.rest { xdrs with buf := written.buf }
      = beBytes (l.setWidth 32) ++ xdrs.rest.drop 4 := by
    show (xdrs.done ++ beBytes (l.setWidth 32) ++ xdrs.rest.drop 4).drop (xdrs.priv - xdrs.base) = _
    rw [List.append_assoc, List.drop_left' length]
  rw [longBack, xdrLongEncode, good.putlong_eq, if_neg fits]
  simp only [bind, Except.bind, xdrLongDecode]
  rw [same.getlong_eq, if_neg fits, here, List.take_left' (length_beBytes _), beWord_beBytes]
  rfl

theorem longExact_iff (host : Host) (good : Good xdrs) (room : 4 ≤ xdrs.handy) (l : BitVec 64)
    : LongExact host l xdrs ↔ 0 ≤ l.toInt ∧ l.toInt < 2 ^ 31 := by
  have encoded : xdrLongEncode host l xdrs ≠ .error .refused := by
    rw [xdrLongEncode, good.putlong_eq, if_neg (Nat.not_lt.mpr room)]
    nofun
  have same : (l.setWidth 32).setWidth 64 = l ↔ 0 ≤ l.toInt ∧ l.toInt < 2 ^ 32 := by
    rw [← BitVec.toNat_inj, BitVec.toInt_eq_toNat_cond]
    simp only [BitVec.toNat_setWidth]
    omega
  constructor
  · intro exact
    by_cases carried : IsInt32 l
    · have back := exact.back carried
      rw [longBack_eq host good room] at back
      exact ⟨(same.mp (Except.ok.inj back)).1, carried.2⟩
    · exact absurd (exact.refused carried) encoded
  · rintro ⟨positive, small⟩
    refine ⟨fun _ => ?_, fun outside => absurd ⟨?_, small⟩ outside⟩
    · rw [longBack_eq host good room, same.mpr ⟨positive, by omega⟩]
    · omega

theorem longExact_iff_five
    : LongExact ⟨false, true⟩ 5 (xdrmemCreate 0 [0, 0, 0, 0])
        ↔ 0 ≤ (5 : BitVec 64).toInt ∧ (5 : BitVec 64).toInt < 2 ^ 31 :=
  longExact_iff _ (good_create 0 _) (by decide) 5

/-- A negative value comes back as a large one. -/
theorem longBack_minus_one
    : longBack ⟨false, true⟩ (-1) (xdrmemCreate 0 [0, 0, 0, 0]) = .ok 0xffffffff
      ∧ ¬ LongExact ⟨false, true⟩ (-1) (xdrmemCreate 0 [0, 0, 0, 0]) := by
  refine ⟨by decide, fun exact => ?_⟩
  have back := exact.back ⟨by decide, by decide⟩
  revert back
  decide

end BSDLibC.Xdr
