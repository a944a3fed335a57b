import Mathlib.Algebra.Order.Ring.Nat
import Mathlib.Logic.Function.Basic

/-! The header of a hash database in `hash.c` and `hash_page.c`: which pages of the file belong to
buckets, and how overflow pages are given out and taken back. A result `none` is an access outside
of an array, through `NULL` or to a bitmap that would have to be read from a file, or a signed
number that is too large.
-/

namespace BSDLibC.HashDb

/-- The words of a bitmap page. -/
abbrev Bitmap := Nat → BitVec 32

def nCached : Nat := 32
def splitShift : Nat := 11
def splitMask : Nat := 0x7FF
def allSet : BitVec 32 := 0xFFFFFFFF#32

/-- `SETBIT` -/
def setBit (a : Bitmap) (n : Nat) : Bitmap :=
  Function.update a (n / 32) (a (n / 32) ||| (1#32 <<< (n % 32)))

/-- `CLRBIT` -/
def clrBit (a : Bitmap) (n : Nat) : Bitmap :=
  Function.update a (n / 32) (a (n / 32) &&& ~~~(1#32 <<< (n % 32)))

def splitNum (n : Nat) : Nat := n >>> splitShift
def oPageNum (n : Nat) : Nat := n &&& splitMask
def oaddrOf (s o : Nat) : Nat := (s <<< splitShift) + o

/-- The loop of `__log2`, which has no more than 32 turns. -/
def log2.loop (num : Nat) : Nat → Nat → Nat → Nat
  | 0, _, i => i
  | turns + 1, limit, i => if limit < num then log2.loop num turns (limit * 2 + 1) (i + 1) else i

def log2 (num : Nat) : Nat := if num = 0 then 0 else log2.loop (num - 1) 32 0 0

/-- The fields of `HASHHDR` that say where pages are, and the maps in memory. -/
structure Header where
  bshift : Nat
  hdrpages : Nat
  ovflPoint : Nat
  lastFreed : Nat
  maxBucket : Nat
  lowMask : Nat
  highMask : Nat
  spares : Nat → Nat
  bitmaps : Nat → Nat
  mapp : Nat → Option Bitmap
  nmaps : Nat

def Header.bsize (h : Header) : Nat := 2 ^ h.bshift

/-- `BSIZE << BYTE_SHIFT`, the bits of a bitmap page. -/
def Header.mapBits (h : Header) : Nat := h.bsize <<< 3

/-- `BUCKET_TO_PAGE`, in 32 bits. -/
def bucketToPage (h : Header) (b : Nat) : Nat :=
  (b + h.hdrpages + (if b = 0 then 0 else h.spares (log2 (b + 1) - 1))) % 2 ^ 32

/-- `OADDR_TO_PAGE`, in 32 bits. -/
def oaddrToPage (h : Header) (addr : Nat) : Nat :=
  (bucketToPage h ((1 <<< splitNum addr) - 1) + oPageNum addr) % 2 ^ 32

/-- The words that `__ibitmap` writes. -/
def ibitmap.words (nbits : Nat) : Bitmap :=
  let clearints := ((nbits - 1) >>> 5) + 1
  setBit
    (fun j =>
      if j = clearints - 1 then allSet <<< (nbits % 32)
      else if j < clearints then 0 else allSet)
    0

/-- `none` when there is no memory. -/
def ibitmap (malloc : Bool) (h : Header) (pnum nbits ndx : Nat) : Option Header :=
  if malloc then
    some { h with
      nmaps := h.nmaps + 1
      bitmaps := Function.update h.bitmaps ndx (pnum % 2 ^ 16)
      mapp := Function.update h.mapp ndx (some (ibitmap.words nbits)) }
  else
    none

/-- A table for `nelem` elements, of which `init_hash` has set the bucket size and the fill factor.
The number of buckets has to fit into an `int`, and twice that too.
-/
def initHtab (bshift ffactor nelem : Nat) : Option Header := do
  let nelem := (nelem - 1) / ffactor + 1
  let l2 := log2 (max (nelem % 2 ^ 32) 2)
  guard (l2 < 30)
  let nbuckets := 1 <<< l2
  ibitmap true
    { bshift
      hdrpages := ((512 - 1) >>> bshift) + 1
      ovflPoint := l2
      lastFreed := 2
      maxBucket := nbuckets - 1
      lowMask := nbuckets - 1
      highMask := (nbuckets <<< 1) - 1
      spares := Function.update (Function.update (fun _ => 0) l2 (l2 + 1)) (l2 + 1) (l2 + 1)
      bitmaps := fun _ => 0
      mapp := fun _ => none
      nmaps := 0 }
    (oaddrOf l2 1) (l2 + 1) 0

-----------------------------------------------------------------------------------------
-- `overflow_page`
-----------------------------------------------------------------------------------------

def firstFree (map : BitVec 32) : Nat := ((List.range 32).find? (fun i => !map.getLsbD i)).getD 32

/-- The words of one map, from word `j` on. -/
def overflowPage.scan (freep : Bitmap) (inUseBits : Nat) : Nat → Nat → Option Nat
  | 0, _ => none
  | turns + 1, j =>
      if 32 * j ≤ inUseBits then
        if freep j ≠ allSet then some j else overflowPage.scan freep inUseBits turns (j + 1)
      else
        none

/-- How the search for a free page ends. -/
inductive overflowPage.Search
  | found (i j : Nat) (freep : Bitmap)
  | noMap
  | exhausted (freep : Option Bitmap)

/-- The loop over the maps, with the last map that was seen. -/
def overflowPage.search (h : Header) (freePage freeBit firstPage : Nat)
    : Nat → Nat → Option Bitmap → Option overflowPage.Search
  | 0, _, _ => none
  | turns + 1, i, last =>
      if i ≤ freePage then
        if nCached ≤ i then
          none
        else
          match h.mapp i with
          | none => if h.nmaps ≤ i then some .noMap else none
          | some freep =>
              let inUseBits := if i = freePage then freeBit else h.mapBits - 1
              let j := if i = firstPage then h.lastFreed % h.mapBits / 32 else 0
              match overflowPage.scan freep inUseBits (inUseBits + 1) j with
              | some j => some (.found i j freep)
              | none => overflowPage.search h freePage freeBit firstPage turns (i + 1) (some freep)
      else
        some (.exhausted last)

def Header.freePage (h : Header) : Nat := (h.spares h.ovflPoint - 1) / h.mapBits
def Header.freeBit (h : Header) : Nat := (h.spares h.ovflPoint - 1) % h.mapBits

def overflowPage.start (h : Header) : Option overflowPage.Search :=
  let firstPage := h.lastFreed / h.mapBits
  overflowPage.search h h.freePage h.freeBit firstPage (h.freePage + 2) firstPage none

/-- `SPARES[splitnum]++` -/
def Header.addSpare (h : Header) (splitnum : Nat) : Header :=
  { h with spares := Function.update h.spares splitnum (h.spares splitnum + 1) }

/-- The last page of the split point becomes the first one of the next. -/
def Header.nextSplit (h : Header) (splitnum : Nat) : Header :=
  { h with
    ovflPoint := splitnum + 1
    spares := Function.update (Function.update h.spares (splitnum + 1) (h.spares splitnum)) splitnum
      (h.spares splitnum - 1) }

/-- The spare pages before a split point. -/
def Header.before (h : Header) (splitnum : Nat) : Nat :=
  if splitnum = 0 then 0 else h.spares (splitnum - 1)

/-- A page is given out after those of the maps, from the page `offset` of the split point on. -/
def overflowPage.extend (malloc : Bool) (h : Header) (freep : Option Bitmap) (freePage freeBit : Nat)
    (splitnum offset : Nat)
    : Option (Nat × Header) := do
  if freeBit = h.mapBits - 1 then
    if nCached ≤ freePage + 1 then
      return (0, h)
    else
      match ibitmap malloc h (oaddrOf splitnum offset) 1 (freePage + 1) with
      | none => return (0, h)
      | some h =>
          let h := h.addSpare splitnum
          if splitMask < offset + 1 then
            if nCached ≤ splitnum + 1 then
              return (0, h)
            else
              return (oaddrOf (splitnum + 1) 0 % 2 ^ 16, h.nextSplit splitnum)
          else
            return (oaddrOf splitnum (offset + 1) % 2 ^ 16, h)
  else
    let freep ← freep
    return (oaddrOf splitnum offset % 2 ^ 16,
      { h with mapp := Function.update h.mapp freePage (some (setBit freep (freeBit + 1))) })

/-- No free page has been found. -/
def overflowPage.fresh (malloc : Bool) (h : Header) (freep : Option Bitmap) : Option (Nat × Header) :=
  let freePage := h.freePage
  let freeBit := h.freeBit
  let splitnum := h.ovflPoint
  let h := { h with lastFreed := h.spares splitnum }.addSpare splitnum
  let offset := h.spares splitnum - h.before splitnum
  if splitMask < offset then
    if nCached ≤ splitnum + 1 then
      some (0, h)
    else
      overflowPage.extend malloc (h.nextSplit splitnum) freep freePage freeBit (splitnum + 1) 1
  else
    overflowPage.extend malloc h freep freePage freeBit splitnum offset

/-- The split point of a page that is counted from 1 on. -/
def Header.splitOf (h : Header) (page : Nat) : Nat :=
  ((List.range h.ovflPoint).find? (fun i => decide (page ≤ h.spares i))).getD h.ovflPoint

/-- A free page has been found in the word `j` of the map `i`. -/
def overflowPage.reuse (h : Header) (i j : Nat) (freep : Bitmap) : Nat × Header :=
  let bit := 32 * j + firstFree (freep j)
  let page := 1 + bit + i * h.mapBits
  let h := { h with
    mapp := Function.update h.mapp i (some (setBit freep bit))
    lastFreed := if h.lastFreed ≤ page then page - 1 else h.lastFreed }
  let offset := page - h.before (h.splitOf page)
  if splitMask ≤ offset then (0, h) else (oaddrOf (h.splitOf page) offset % 2 ^ 16, h)

/-- The address of a page, or 0. -/
def overflowPage (malloc : Bool) (h : Header) : Option (Nat × Header) := do
  match ← overflowPage.start h with
  | .noMap => return (0, h)
  | .found i j freep => return overflowPage.reuse h i j freep
  | .exhausted freep => overflowPage.fresh malloc h freep

/-- `__free_ovflpage`, without the buffer. -/
def freeOvflpage (h : Header) (addr : Nat) : Option Header := do
  let bitAddress := h.before (splitNum addr) + oPageNum addr - 1
  let freePage := bitAddress / h.mapBits
  guard (freePage < nCached)
  let freep ← h.mapp freePage
  return { h with
    lastFreed := if bitAddress < h.lastFreed then bitAddress else h.lastFreed
    mapp := Function.update h.mapp freePage (some (clrBit freep (bitAddress % h.mapBits))) }

/-- `__expand_table` up to `__split_page`, with the two buckets that it gets. There is no memory for
a new segment if `grown` is false.
-/
def expandTable (grown : Bool) (h : Header) : Option (Option (Nat × Nat) × Header) := do
  guard (h.maxBucket + 1 < 2 ^ 31)
  let newBucket := h.maxBucket + 1
  let h := { h with maxBucket := newBucket }
  let oldBucket := newBucket &&& h.lowMask
  if !grown then
    return (none, h)
  else
    let spareNdx := log2 (newBucket + 1)
    let h :=
      if h.ovflPoint < spareNdx then
        { h with
          spares := Function.update h.spares spareNdx (h.spares h.ovflPoint)
          ovflPoint := spareNdx }
      else h
    let h :=
      if h.highMask < newBucket then
        { h with lowMask := h.highMask, highMask := newBucket ||| h.highMask }
      else h
    return (some (oldBucket, newBucket), h)

end BSDLibC.HashDb
