import BSDLibC.Bitops.FastDivide
import BSDLibC.Cdb.Writer

/-! The reader of `libc/cdb/cdbr.c` over a mapped file. Pointers are 64-bit addresses, table
sizes and indices are 32-bit words, and a read outside the mapping has no result.
-/

namespace BSDLibC.Cdb
open BSDLibC.Bitops BSDLibC.Bytes

/-- A file mapped at an address; the pointer past its end is an address too. -/
structure Mapping where
  base : Nat
  bytes : List UInt8
  fits : base + bytes.length < 2 ^ 64

/-- The `size` bytes at an address, all of which must lie inside the mapping. -/
def Mapping.read (map : Mapping) (addr size : Nat) : Option (List UInt8) :=
  if map.base ≤ addr ∧ addr + size ≤ map.base + map.bytes.length then
    some ((map.bytes.drop (addr - map.base)).take size)
  else
    none

structure Cdbr where
  mmapBase : Nat
  mmapSize : Nat
  hashBase : Nat
  offsetBase : Nat
  dataBase : Nat
  dataSize : Nat
  entries : Nat
  entriesIndex : Nat
  seed : BitVec 32
  offsetSize : Nat
  indexSize : Nat
  entriesMagic : Magic
  entriesIndexMagic : Magic

def ptrAdd (addr n : Nat) : Nat := (addr + n) % 2 ^ 64

/-- `le32dec(buf + offset)` for the header -/
def Mapping.header32 (map : Mapping) (offset : Nat) : Nat :=
  leValue ((map.bytes.drop offset).take 4)

/-- `cdbr_open_mem` on a mapping, where `junk` is what the allocated `struct cdbr` held before,
and the allocation succeeds.
-/
def cdbrOpenMem (junk : Magic) (map : Mapping) : Option Cdbr :=
  if map.bytes.length < 40 ∨ map.bytes.take 8 ≠ [0x4e, 0x42, 0x43, 0x44, 0x42, 0x0a, 0, 1] then
    none
  else
    let dataSize := map.header32 24
    let entries := map.header32 28
    let entriesIndex := map.header32 32
    let seed := map.header32 36
    let offsetSize := computeSize dataSize
    let indexSize := computeSize entriesIndex
    let hashBase := ptrAdd map.base 40
    let table := (entriesIndex * indexSize) % 2 ^ 32
    let offsetBase := ptrAdd hashBase table
    let offsetBase :=
      if table % offsetSize ≠ 0 then
        ptrAdd offsetBase (offsetSize - table % offsetSize)
      else
        offsetBase
    let dataBase := ptrAdd offsetBase ((((entries + 1) % 2 ^ 32) * offsetSize) % 2 ^ 32)
    if hashBase < map.base
        ∨ offsetBase < map.base
        ∨ dataBase < map.base
        ∨ ptrAdd dataBase dataSize < map.base
        ∨ ptrAdd dataBase dataSize > ptrAdd map.base map.bytes.length then
      none
    else
      some
        { mmapBase := map.base
          mmapSize := map.bytes.length
          hashBase := hashBase
          offsetBase := offsetBase
          dataBase := dataBase
          dataSize := dataSize
          entries := entries
          entriesIndex := entriesIndex
          seed := BitVec.ofNat 32 seed
          offsetSize := offsetSize
          indexSize := indexSize
          entriesMagic := if entries ≠ 0 then fastDivide32Prepare entries else junk
          entriesIndexMagic :=
            if entriesIndex ≠ 0 then fastDivide32Prepare entriesIndex else junk }

/-- `get_uintX` -/
def getUintX (map : Mapping) (addr idx size : Nat) : Option Nat :=
  (map.read (ptrAdd addr ((idx * size) % 2 ^ 32)) size).map leValue

/-- `cdbr_get`: the returned pointer and length, or nothing when it returns -1. -/
def cdbrGet (map : Mapping) (cdbr : Cdbr) (idx : Nat) : Option (Option (Nat × Nat)) :=
  if idx ≥ cdbr.entries then
    some none
  else do
    let start ← getUintX map cdbr.offsetBase idx cdbr.offsetSize
    let stop ← getUintX map cdbr.offsetBase ((idx + 1) % 2 ^ 32) cdbr.offsetSize
    if start > stop then
      return none
    else if stop > cdbr.dataSize then
      return none
    else
      return some (ptrAdd cdbr.dataBase start, stop - start)

/-- `cdbr_find` -/
def cdbrFind (vectorHash : VectorHash) (map : Mapping) (cdbr : Cdbr) (key : List UInt8)
    : Option (Option (Nat × Nat)) :=
  if cdbr.entriesIndex = 0 then
    some none
  else do
    let hashes (j : Fin 3) :=
      fastRemainder32 (vectorHash key cdbr.seed j).toNat cdbr.entriesIndex cdbr.entriesIndexMagic
    let i0 ← getUintX map cdbr.hashBase (hashes 0) cdbr.indexSize
    let i1 ← getUintX map cdbr.hashBase (hashes 1) cdbr.indexSize
    let i2 ← getUintX map cdbr.hashBase (hashes 2) cdbr.indexSize
    let idx := ((i0 + i1) % 2 ^ 32 + i2) % 2 ^ 32
    cdbrGet map cdbr (fastRemainder32 idx cdbr.entries cdbr.entriesMagic)

end BSDLibC.Cdb
