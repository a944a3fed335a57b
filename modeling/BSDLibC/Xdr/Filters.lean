import BSDLibC.Xdr.Memory
import Mathlib.Data.PNat.Notation

/-! The filters of `xdr.c` and `xdr_array.c` in their two directions. A value is decoded into
memory of its own: the pointers of counted objects are null before, and memory is given.
-/

namespace BSDLibC.Xdr

open Bytes

/-- A filter with its parameters, as a caller nests them. -/
inductive Ty where
  | int
  | uInt
  | short
  | char
  | bool
  | int64
  | fixedBytes (cnt : BitVec 32)
  | bytes (maxsize : BitVec 32)
  | string (maxsize : BitVec 32)
  | array (maxsize : BitVec 32) (elsize : ℕ+) (elem : Ty)
  | vector (nelem : BitVec 32) (elem : Ty)

/-- What a filter works on. A string is a pointer, null or to the bytes before its last one, which
is zero.
-/
@[reducible]
def Val : Ty → Type
  | .int | .uInt => BitVec 32
  | .short => BitVec 16
  | .char => BitVec 8
  | .bool => Bool
  | .int64 => BitVec 64
  | .fixedBytes _ | .bytes _ => List Byte
  | .string _ => Option (List Byte)
  | .array _ _ elem | .vector _ elem => List (Val elem)

section

variable (host : Host)

/-- The integer filters, encoding: the value goes through a `long`. -/
def encodeInteger (signed : Bool) {w : Nat} (value : BitVec w) (xdrs : Handle)
    : Except Fail Handle :=
  xdrPutlong host xdrs (if signed then value.signExtend 64 else value.setWidth 64)

/-- The integer filters, decoding. -/
def decodeInteger (w : Nat) (xdrs : Handle) : Except Fail (BitVec w × Handle) := do
  let (l, xdrs) ← xdrGetlong host xdrs
  return (l.setWidth w, xdrs)

/-- `xdr_int` -/
def xdrIntEncode (value : BitVec 32) (xdrs : Handle) : Except Fail Handle :=
  encodeInteger host true value xdrs

def xdrIntDecode (xdrs : Handle) : Except Fail (BitVec 32 × Handle) := decodeInteger host 32 xdrs

/-- `xdr_u_int` -/
def xdrUIntEncode (value : BitVec 32) (xdrs : Handle) : Except Fail Handle :=
  encodeInteger host false value xdrs

def xdrUIntDecode (xdrs : Handle) : Except Fail (BitVec 32 × Handle) := decodeInteger host 32 xdrs

/-- `xdr_short` -/
def xdrShortEncode (value : BitVec 16) (xdrs : Handle) : Except Fail Handle :=
  encodeInteger host true value xdrs

def xdrShortDecode (xdrs : Handle) : Except Fail (BitVec 16 × Handle) := decodeInteger host 16 xdrs

/-- `xdr_char`, through an `int`. -/
def xdrCharEncode (value : BitVec 8) (xdrs : Handle) : Except Fail Handle :=
  xdrIntEncode host (if host.signedChar then value.signExtend 32 else value.setWidth 32) xdrs

def xdrCharDecode (xdrs : Handle) : Except Fail (BitVec 8 × Handle) := do
  let (i, xdrs) ← xdrIntDecode host xdrs
  return (i.setWidth 8, xdrs)

/-- `xdr_bool` -/
def xdrBoolEncode (value : Bool) (xdrs : Handle) : Except Fail Handle :=
  xdrPutlong host xdrs (if value then 1 else 0)

def xdrBoolDecode (xdrs : Handle) : Except Fail (Bool × Handle) := do
  let (lb, xdrs) ← xdrGetlong host xdrs
  return (lb != 0, xdrs)

/-- `xdr_int64_t` -/
def xdrInt64Encode (value : BitVec 64) (xdrs : Handle) : Except Fail Handle := do
  let xdrs ← xdrPutlong host xdrs ((value >>> 32) &&& 0xffffffff#64)
  xdrPutlong host xdrs (value &&& 0xffffffff#64)

def xdrInt64Decode (xdrs : Handle) : Except Fail (BitVec 64 × Handle) := do
  let (high, xdrs) ← xdrGetlong host xdrs
  let (low, xdrs) ← xdrGetlong host xdrs
  return ((high <<< 32) ||| low, xdrs)

/-- The bytes that fill an opaque object up to full units. -/
def rndup (cnt : Nat) : Nat := if cnt % 4 > 0 then 4 - cnt % 4 else cnt % 4

/-- `xdr_opaque` -/
def xdrOpaqueEncode (cp : List Byte) (cnt : Nat) (xdrs : Handle) : Except Fail Handle :=
  if cnt = 0 then
    .ok xdrs
  else do
    let xdrs ← xdrmemPutbytes xdrs (cp.take cnt)
    if rndup cnt = 0 then
      return xdrs
    else
      xdrmemPutbytes xdrs (List.replicate (rndup cnt) 0)

def xdrOpaqueDecode (cnt : Nat) (xdrs : Handle) : Except Fail (List Byte × Handle) :=
  if cnt = 0 then
    .ok ([], xdrs)
  else do
    let (cp, xdrs) ← xdrmemGetbytes xdrs cnt
    if rndup cnt = 0 then
      return (cp, xdrs)
    else do
      let (_, xdrs) ← xdrmemGetbytes xdrs (rndup cnt)
      return (cp, xdrs)

/-- `xdr_bytes` -/
def xdrBytesEncode (maxsize : BitVec 32) (value : List Byte) (xdrs : Handle)
    : Except Fail Handle := do
  let size := BitVec.ofNat 32 value.length
  let xdrs ← xdrUIntEncode host size xdrs
  if size > maxsize then
    .error .refused
  else
    xdrOpaqueEncode value size.toNat xdrs

def xdrBytesDecode (maxsize : BitVec 32) (xdrs : Handle) : Except Fail (List Byte × Handle) := do
  let (size, xdrs) ← xdrUIntDecode host xdrs
  if size > maxsize then
    .error .refused
  else
    xdrOpaqueDecode size.toNat xdrs

/-- `strlen` -/
def strlen (sp : List Byte) : Nat := (sp.takeWhile (· ≠ 0)).length

/-- `xdr_string`; the length of a null pointer is a fault. -/
def xdrStringEncode (maxsize : BitVec 32) : Option (List Byte) → Handle → Except Fail Handle
  | none, _ => .error .fault
  | some sp, xdrs => do
      let size := BitVec.ofNat 32 (strlen sp)
      let xdrs ← xdrUIntEncode host size xdrs
      if size > maxsize then
        .error .refused
      else
        xdrOpaqueEncode sp size.toNat xdrs

def xdrStringDecode (maxsize : BitVec 32) (xdrs : Handle)
    : Except Fail (Option (List Byte) × Handle) := do
  let (size, xdrs) ← xdrUIntDecode host xdrs
  if size > maxsize then
    .error .refused
  else
    let nodesize := size + 1
    if nodesize = 0 then
      return (none, xdrs)
    else do
      let (sp, xdrs) ← xdrOpaqueDecode size.toNat xdrs
      return (some sp, xdrs)

variable {α : Type}

/-- The elements of an array one after the other, encoding. -/
def encodeElements (elproc : α → Handle → Except Fail Handle)
    : List α → Handle → Except Fail Handle
  | [], xdrs => .ok xdrs
  | value :: values, xdrs => do
      let xdrs ← elproc value xdrs
      encodeElements elproc values xdrs

/-- The elements of an array one after the other, decoding. -/
def decodeElements (elproc : Handle → Except Fail (α × Handle))
    : Nat → Handle → Except Fail (List α × Handle)
  | 0, xdrs => .ok ([], xdrs)
  | n + 1, xdrs => do
      let (value, xdrs) ← elproc xdrs
      let (values, xdrs) ← decodeElements elproc n xdrs
      return (value :: values, xdrs)

/-- The test of `xdr_array` on the number of elements. -/
def tooMany (maxsize c : BitVec 32) (elsize : ℕ+) : Prop :=
  c > maxsize ∨ (2 ^ 32 - 1) / (elsize : Nat) < c.toNat

instance (maxsize c : BitVec 32) (elsize : ℕ+) : Decidable (tooMany maxsize c elsize) :=
  inferInstanceAs (Decidable (_ ∨ _))

/-- `xdr_array` -/
def xdrArrayEncode (maxsize : BitVec 32) (elsize : ℕ+)
    (elproc : α → Handle → Except Fail Handle) (values : List α) (xdrs : Handle)
    : Except Fail Handle := do
  let c := BitVec.ofNat 32 values.length
  let xdrs ← xdrUIntEncode host c xdrs
  if tooMany maxsize c elsize then
    .error .refused
  else
    encodeElements elproc (values.take c.toNat) xdrs

def xdrArrayDecode (maxsize : BitVec 32) (elsize : ℕ+)
    (elproc : Handle → Except Fail (α × Handle)) (xdrs : Handle)
    : Except Fail (List α × Handle) := do
  let (c, xdrs) ← xdrUIntDecode host xdrs
  if tooMany maxsize c elsize then
    .error .refused
  else
    decodeElements elproc c.toNat xdrs

/-- `xdr_vector` -/
def xdrVectorEncode (nelem : BitVec 32) (elproc : α → Handle → Except Fail Handle)
    (values : List α) (xdrs : Handle)
    : Except Fail Handle :=
  encodeElements elproc (values.take nelem.toNat) xdrs

def xdrVectorDecode (nelem : BitVec 32) (elproc : Handle → Except Fail (α × Handle))
    (xdrs : Handle)
    : Except Fail (List α × Handle) :=
  decodeElements elproc nelem.toNat xdrs

/-- A filter applied to a value. -/
def encode : (ty : Ty) → Val ty → Handle → Except Fail Handle
  | .int, value => xdrIntEncode host value
  | .uInt, value => xdrUIntEncode host value
  | .short, value => xdrShortEncode host value
  | .char, value => xdrCharEncode host value
  | .bool, value => xdrBoolEncode host value
  | .int64, value => xdrInt64Encode host value
  | .fixedBytes cnt, value => xdrOpaqueEncode value cnt.toNat
  | .bytes maxsize, value => xdrBytesEncode host maxsize value
  | .string maxsize, value => xdrStringEncode host maxsize value
  | .array maxsize elsize elem, values =>
      xdrArrayEncode host maxsize elsize (encode elem) values
  | .vector nelem elem, values => xdrVectorEncode nelem (encode elem) values

/-- A filter filling in a value. -/
def decode : (ty : Ty) → Handle → Except Fail (Val ty × Handle)
  | .int => xdrIntDecode host
  | .uInt => xdrUIntDecode host
  | .short => xdrShortDecode host
  | .char => xdrCharDecode host
  | .bool => xdrBoolDecode host
  | .int64 => xdrInt64Decode host
  | .fixedBytes cnt => xdrOpaqueDecode cnt.toNat
  | .bytes maxsize => xdrBytesDecode host maxsize
  | .string maxsize => xdrStringDecode host maxsize
  | .array maxsize elsize elem => xdrArrayDecode host maxsize elsize (decode elem)
  | .vector nelem elem => xdrVectorDecode nelem (decode elem)

end

end BSDLibC.Xdr
