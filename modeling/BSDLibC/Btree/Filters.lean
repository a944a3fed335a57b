import BSDLibC.Bytes.Places

/-! The filters `__bt_pgin` and `__bt_pgout`, which change the byte order of a page between a file and
the host. A page is the list of its bytes, and a result `none` is an access outside of it. The places
that are swapped are kept in their order.
-/

namespace BSDLibC.Btree

open Bytes

def P_BINTERNAL : Nat := 0x01

def P_BLEAF : Nat := 0x02

def P_TYPE : Nat := 0x1f

def P_BIGDATA : Nat := 0x01

def P_BIGKEY : Nat := 0x02

/-- The number of the meta page. -/
def P_META : Nat := 0

/-- A number in the byte order of the host. -/
def number (big : Bool) (bytes : List UInt8) : Nat :=
  (if big then bytes else bytes.reverse).foldl (fun n b => n * 256 + b.toNat) 0

def get (big : Bool) (p : Place) (page : List UInt8) : Option Nat :=
  if p.off + p.width ≤ page.length then some (number big (slice p page)) else none

structure Swapping where
  page : List UInt8
  swaps : List Place
deriving DecidableEq, Repr

def Swapping.swap (p : Place) (s : Swapping) : Option Swapping :=
  if p.off + p.width ≤ s.page.length then some ⟨reverseAt p s.page, s.swaps ++ [p]⟩ else none

/-- `P_32_SWAP(p)` -/
def swap32 (p : Nat) (s : Swapping) : Option Swapping := s.swap ⟨p, 4⟩

/-- `M_16_SWAP` -/
def swap16 (p : Nat) (s : Swapping) : Option Swapping := s.swap ⟨p, 2⟩

/-- `P_32_SWAP(p); p += sizeof(pgno_t); P_32_SWAP(p)` -/
def swapPair (p : Nat) (s : Swapping) : Option Swapping := do swap32 (p + 4) (← swap32 p s)

section

variable (big : Bool)

/-- The place of `h->linp[i]`. -/
def linpPlace (i : Nat) : Place := ⟨20 + 2 * i, 2⟩

def lowerPlace : Place := ⟨16, 2⟩

def flagsPlace : Place := ⟨12, 4⟩

/-- `NEXTINDEX`, for the value of `h->lower`. -/
def nextIndex (lower : Nat) : Nat := (lower + 2 ^ 64 - 20) % 2 ^ 64 / 2 % 2 ^ 16

/-- The places of the header. -/
def headerPlaces : List Place := [⟨0, 4⟩, ⟨4, 4⟩, ⟨8, 4⟩, flagsPlace, lowerPlace, ⟨18, 2⟩]

def swapHeader (s : Swapping) : Option Swapping := headerPlaces.foldlM (fun s p => s.swap p) s

/-- `mswap` -/
def mswap (s : Swapping) : Option Swapping := [0, 4, 8, 12, 16, 20].foldlM (fun s p => swap32 p s) s

/-- The fields of a `BINTERNAL`. -/
def swapInternal (p : Nat) (s : Swapping) : Option Swapping := do
  let s ← swapPair p s
  let flags ← get big ⟨p + 8, 1⟩ s.page
  if flags &&& P_BIGKEY ≠ 0 then swapPair (p + 9) s else some s

/-- The reference of an overflow key. The pointer is left at the second field. -/
def swapBigkey (flags p : Nat) (s : Swapping) : Option (Nat × Swapping) :=
  if flags &&& P_BIGKEY ≠ 0 then (swapPair p s).map (fun s => (p + 4, s)) else some (p, s)

/-- The references of a `BLEAF`, where `p` is behind its flags. -/
def swapRefs (flags ksize p : Nat) (s : Swapping) : Option Swapping :=
  if flags &&& (P_BIGKEY ||| P_BIGDATA) ≠ 0 then do
    let (p, s) ← swapBigkey flags p s
    if flags &&& P_BIGDATA ≠ 0 then swapPair (p + ksize) s else some s
  else
    some s

def internalIn (s : Swapping) (i : Nat) : Option Swapping := do
  let s ← s.swap (linpPlace i)
  let p ← get big (linpPlace i) s.page
  swapInternal big p s

def leafIn (s : Swapping) (i : Nat) : Option Swapping := do
  let s ← s.swap (linpPlace i)
  let p ← get big (linpPlace i) s.page
  let s ← swap32 p s
  let ksize ← get big ⟨p, 4⟩ s.page
  let s ← swap32 (p + 4) s
  let flags ← get big ⟨p + 8, 1⟩ s.page
  swapRefs flags ksize (p + 9) s

def internalOut (s : Swapping) (i : Nat) : Option Swapping := do
  let p ← get big (linpPlace i) s.page
  let s ← swapInternal big p s
  s.swap (linpPlace i)

def leafOut (s : Swapping) (i : Nat) : Option Swapping := do
  let p ← get big (linpPlace i) s.page
  let ksize ← get big ⟨p, 4⟩ s.page
  let s ← swapPair p s
  let flags ← get big ⟨p + 8, 1⟩ s.page
  let s ← swapRefs flags ksize (p + 9) s
  s.swap (linpPlace i)

/-- The items of a page, by its type. -/
def swapItems (internal leaf : Swapping → Nat → Option Swapping) (flags top : Nat) (s : Swapping)
    : Option Swapping :=
  if flags &&& P_TYPE = P_BINTERNAL then (List.range top).foldlM internal s
  else if flags &&& P_TYPE = P_BLEAF then (List.range top).foldlM leaf s
  else some s

/-- `__bt_pgin` -/
def btPgin (needswap : Bool) (pg : Nat) (page : List UInt8) : Option Swapping :=
  if !needswap then some ⟨page, []⟩
  else if pg = P_META then mswap ⟨page, []⟩
  else do
    let s ← swapHeader ⟨page, []⟩
    let lower ← get big lowerPlace s.page
    let flags ← get big flagsPlace s.page
    swapItems (internalIn big) (leafIn big) flags (nextIndex lower) s

/-- `__bt_pgout` -/
def btPgout (needswap : Bool) (pg : Nat) (page : List UInt8) : Option Swapping :=
  if !needswap then some ⟨page, []⟩
  else if pg = P_META then mswap ⟨page, []⟩
  else do
    let lower ← get big lowerPlace page
    let flags ← get big flagsPlace page
    let s ← swapItems (internalOut big) (leafOut big) flags (nextIndex lower) ⟨page, []⟩
    swapHeader s

-----------------------------------------------------------------------------------------
-- The fields of a page
-----------------------------------------------------------------------------------------

/-- The number at a place. -/
def field (page : List UInt8) (p : Place) : Nat := number big (slice p page)

def isLeaf (page : List UInt8) : Prop := field big page flagsPlace &&& P_TYPE = P_BLEAF

instance (page : List UInt8) : Decidable (isLeaf big page) := inferInstanceAs (Decidable (_ = _))

def itemCount (page : List UInt8) : Nat := (field big page lowerPlace - 20) / 2

def itemOff (page : List UInt8) (i : Nat) : Nat := field big page (linpPlace i)

def itemKsize (page : List UInt8) (i : Nat) : Nat := field big page ⟨itemOff big page i, 4⟩

def itemDsize (page : List UInt8) (i : Nat) : Nat := field big page ⟨itemOff big page i + 4, 4⟩

def itemFlags (page : List UInt8) (i : Nat) : Nat := field big page ⟨itemOff big page i + 8, 1⟩

def hasBigkey (page : List UInt8) (i : Nat) : Prop := itemFlags big page i &&& P_BIGKEY ≠ 0

/-- Overflow data, which only a leaf item has. -/
def hasBigdata (page : List UInt8) (i : Nat) : Prop :=
  isLeaf big page ∧ itemFlags big page i &&& P_BIGDATA ≠ 0

instance (page : List UInt8) (i : Nat) : Decidable (hasBigkey big page i) :=
  inferInstanceAs (Decidable (_ ≠ _))

instance (page : List UInt8) (i : Nat) : Decidable (hasBigdata big page i) :=
  inferInstanceAs (Decidable (_ ∧ _))

/-- `BTLALIGN` of the bytes of an item, from its offset on. -/
def itemPlace (page : List UInt8) (i : Nat) : Place :=
  ⟨itemOff big page i, (9 + itemKsize big page i
    + (if isLeaf big page then itemDsize big page i else 0) + 3) / 4 * 4⟩

/-- The 32-bit fields of an item: its sizes, or its size and its page number, and its references. -/
def itemPlaces (page : List UInt8) (i : Nat) : List Place :=
  let p := itemOff big page i
  let data := p + 9 + itemKsize big page i
  [⟨p, 4⟩, ⟨p + 4, 4⟩] ++ (if hasBigkey big page i then [⟨p + 9, 4⟩, ⟨p + 13, 4⟩] else [])
    ++ (if hasBigdata big page i then [⟨data, 4⟩, ⟨data + 4, 4⟩] else [])

/-- All fields of a page: the header, the index entries and the fields of the items. -/
def fields (page : List UInt8) : List Place :=
  headerPlaces
    ++ (List.range (itemCount big page)).flatMap fun i => linpPlace i :: itemPlaces big page i

/-- A page with items that do not overlap each other or the index entries. A reference to overflow
pages has eight bytes.
-/
structure WellFormedPage (page : List UInt8) : Prop where
  type : field big page flagsPlace &&& P_TYPE = P_BINTERNAL
    ∨ field big page flagsPlace &&& P_TYPE = P_BLEAF
  lower : field big page lowerPlace = 20 + 2 * itemCount big page
  small : page.length ≤ 65536
  header : 20 + 2 * itemCount big page ≤ page.length
  inside : ∀ i < itemCount big page, 20 + 2 * itemCount big page ≤ itemOff big page i
    ∧ (itemPlace big page i).Inside page
  apart : ∀ i < itemCount big page, ∀ j < itemCount big page, i ≠ j
    → (itemPlace big page i).Apart (itemPlace big page j)
  bigkey : ∀ i < itemCount big page, hasBigkey big page i → itemKsize big page i = 8
  bigdata : ∀ i < itemCount big page, hasBigdata big page i → itemDsize big page i = 8

/-- The filter for output swaps each field once and nothing else, and the filter for input gives the
page back.
-/
def FiltersExact (pg : Nat) (page : List UInt8) : Prop :=
  ∃ s, btPgout big true pg page = some s ∧ s.swaps.Perm (fields big page)
    ∧ s.page = reverseAll (fields big page) page
    ∧ ∃ back, btPgin big true pg s.page = some back ∧ back.page = page

end

end BSDLibC.Btree
