import Mathlib.Algebra.Order.Ring.Nat
import Mathlib.Data.List.Nodup
import Mathlib.Tactic.Common

/-! How `__bt_put` adds an item to a page: in place, on a new page at the end of the level, or with
`bt_psplit`. A page is the list of the items that `linp` refers to, in its order, and an open slot is
`none`. Page offsets have 16 bits.
-/

namespace BSDLibC.Btree

/-- `BTDATAOFF` -/
def BTDATAOFF : Nat := 20

/-- `sizeof(indx_t)` -/
def sizeofIndx : Nat := 2

def MAX_PAGE_OFFSET : Nat := 65535

/-- The bytes and the flag `P_BIGKEY` of an item. -/
structure Measure (ι : Type) where
  nbytes : ι → Nat
  isbigkey : ι → Bool

variable {ι : Type} (measure : Measure ι)

-----------------------------------------------------------------------------------------
-- bt_psplit
-----------------------------------------------------------------------------------------

/-- The loop for the left page: its slots, and the items that are left. -/
def leftLoop (skip ilen full : Nat) : Nat → List ι → List (Option ι) → Nat → Nat
    → List (Option ι) × List ι
  | bound + 1, item :: rest, left, used, bigkeycnt =>
      let off := left.length
      let nbytes := if skip = off then ilen else measure.nbytes item
      let isbigkey := skip ≠ off && measure.isbigkey item
      if (skip ≤ off ∧ used + nbytes + sizeofIndx ≥ full) ∨ rest = [] then (left, item :: rest)
      else
        let left := left ++ [if skip = off then none else some item]
        let rest := if skip = off then item :: rest else rest
        let used := (used + (nbytes + sizeofIndx)) % 2 ^ 16
        if used ≥ full / 2 then
          if !isbigkey || bigkeycnt = 3 then (left, rest)
          else leftLoop skip ilen full bound rest left used (bigkeycnt + 1)
        else leftLoop skip ilen full bound rest left used bigkeycnt
  | _, rest, left, _, _ => (left, rest)

/-- The slots of the right page, where `nxt` is the index of the first item. -/
def rightLoop (skip : Nat) : Nat → List ι → List (Option ι)
  | nxt, [] => if skip = nxt then [none] else []
  | nxt, item :: rest =>
      if skip = nxt then none :: some item :: rightLoop MAX_PAGE_OFFSET (nxt + 1) rest
      else some item :: rightLoop skip (nxt + 1) rest

structure Cursor where
  pgno : Nat
  index : Nat
deriving DecidableEq

/-- The two pages, the item that the right page begins with, whether the slot is on the left page,
its place there, and the cursor.
-/
structure Split (ι : Type) where
  left : List (Option ι)
  right : List (Option ι)
  nxt : Nat
  inLeft : Bool
  pskip : Nat
  cursor : Cursor

/-- `bt_psplit` for a page `h` with `full` bytes for its items. An offset `off` before the first one
is 65535.
-/
def btPsplit (full : Nat) (hpgno lpgno rpgno : Nat) (items : List ι) (skip ilen : Nat) (c : Cursor)
    : Split ι :=
  let (left, rest) := leftLoop measure skip ilen full (items.length + 2) items [] 0 0
  let nxt := items.length - rest.length
  let off := (left.length + 65535) % 2 ^ 16
  let index := if c.index ≥ skip then c.index + 1 else c.index
  let cursor :=
    if c.pgno = hpgno then
      if index < nxt then ⟨lpgno, index⟩ else ⟨rpgno, index - nxt⟩
    else c
  if skip ≤ off then ⟨left, rightLoop MAX_PAGE_OFFSET nxt rest, nxt, true, skip, cursor⟩
  else ⟨left, rightLoop skip nxt rest, nxt, false, skip - nxt, cursor⟩

-----------------------------------------------------------------------------------------
-- __bt_put
-----------------------------------------------------------------------------------------

/-- Two pages or one after a put, and the cursor. -/
structure Put (ι : Type) where
  pages : List (Nat × List (Option ι))
  cursor : Cursor

/-- The part of `__bt_split` for the page itself, with `bt_root` for the root page and `bt_page` for
another one. The new pages have the numbers `lnpg` and `npg`.
-/
def btSplit (psize : Nat) (root last : Bool) (hpgno lnpg npg : Nat) (items : List ι) (item : ι)
    (skip ilen : Nat) (c : Cursor)
    : Put ι :=
  if !root && last && skip = items.length then
    ⟨[(hpgno, items.map some), (npg, [some item])], c⟩
  else
    let lpgno := if root then lnpg else hpgno
    let split := btPsplit measure (psize - BTDATAOFF) hpgno lpgno npg items skip ilen c
    if split.inLeft then
      ⟨[(lpgno, split.left.set split.pskip (some item)), (npg, split.right)], split.cursor⟩
    else
      ⟨[(lpgno, split.left), (npg, split.right.set split.pskip (some item))], split.cursor⟩

/-- `(uint32_t)h->upper - (uint32_t)h->lower`, where the items are packed at the end of the page. -/
def freeSpace (psize : Nat) (items : List ι) : Nat :=
  ((psize - (items.map measure.nbytes).sum) % 2 ^ 16 + 2 ^ 32
    - (BTDATAOFF + sizeofIndx * items.length)) % 2 ^ 32

/-- The part of `__bt_put` that adds an item at the index `idx`. -/
def btAdd (psize : Nat) (root last : Bool) (hpgno lnpg npg : Nat) (items : List ι) (item : ι)
    (idx : Nat) (c : Cursor)
    : Put ι :=
  if freeSpace measure psize items < measure.nbytes item + sizeofIndx then
    btSplit measure psize root last hpgno lnpg npg items item idx (measure.nbytes item) c
  else
    ⟨[(hpgno, (items.insertIdx idx item).map some)],
      if c.pgno = hpgno ∧ c.index ≥ idx then ⟨c.pgno, c.index + 1⟩ else c⟩

end BSDLibC.Btree
