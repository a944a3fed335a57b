import Mathlib.Algebra.Order.Ring.Nat
import Mathlib.Data.List.Basic
import Mathlib.Tactic.Common

/-! `memmem`. A pointer is an offset into the haystack or the needle, and a `size_t` has `w` bits. A
result `none` is a read outside of both, a read of an entry of the shift table that was never set, a
sum or difference that leaves `size_t` where it may not, a pointer that leaves the haystack, or a
loop that meets its bound. `some none` is `NULL`.
-/

namespace BSDLibC.Memmem

variable (w : Nat)

/-- A sum that may not wrap. -/
def sum (a b : Nat) : Option Nat := if a + b < 2 ^ w then some (a + b) else none

/-- A difference that may not wrap. -/
def diff (a b : Nat) : Option Nat := if b ≤ a then some (a - b) else none

/-- A sum that may wrap, as `ip` and `ms` start with `(size_t)-1`. -/
def wrapSum (a b : Nat) : Nat := (a + b) % 2 ^ w

/-- A difference that may wrap. -/
def wrapDiff (a b : Nat) : Nat := (a + (2 ^ w - b)) % 2 ^ w

-----------------------------------------------------------------------------------------
-- Needles of two, three and four bytes
-----------------------------------------------------------------------------------------

/-- The bytes that were read last are kept in a word: `next` puts one more byte into it. -/
def rolling (length : Nat) (next : Nat → UInt8 → Nat) (nw : Nat) (h : List UInt8)
    : Nat → Nat → Nat → Option (Option Nat)
  | 0, at_, hw => some (if hw = nw then some (at_ - length) else none)
  | k + 1, at_, hw =>
      if hw = nw then
        some (some (at_ - length))
      else do
        let byte ← h[at_]?
        rolling length next nw h k (at_ + 1) (next hw byte)

def twobyteMemmem (h : List UInt8) (start k : Nat) (n : List UInt8) : Option (Option Nat) := do
  let nw := (← n[0]?).toNat <<< 8 ||| (← n[1]?).toNat
  let hw := (← h[start]?).toNat <<< 8 ||| (← h[start + 1]?).toNat
  rolling 2 (fun hw byte => (hw <<< 8 ||| byte.toNat) % 2 ^ 16) nw h (← diff k 2) (start + 2) hw

def threebyteMemmem (h : List UInt8) (start k : Nat) (n : List UInt8) : Option (Option Nat) := do
  let nw := (← n[0]?).toNat <<< 24 ||| (← n[1]?).toNat <<< 16 ||| (← n[2]?).toNat <<< 8
  let hw := (← h[start]?).toNat <<< 24 ||| (← h[start + 1]?).toNat <<< 16
    ||| (← h[start + 2]?).toNat <<< 8
  rolling 3 (fun hw byte => (hw ||| byte.toNat) <<< 8 % 2 ^ 32) nw h (← diff k 3) (start + 3) hw

def fourbyteMemmem (h : List UInt8) (start k : Nat) (n : List UInt8) : Option (Option Nat) := do
  let nw := (← n[0]?).toNat <<< 24 ||| (← n[1]?).toNat <<< 16 ||| (← n[2]?).toNat <<< 8
    ||| (← n[3]?).toNat
  let hw := (← h[start]?).toNat <<< 24 ||| (← h[start + 1]?).toNat <<< 16
    ||| (← h[start + 2]?).toNat <<< 8 ||| (← h[start + 3]?).toNat
  rolling 4 (fun hw byte => (hw <<< 8 ||| byte.toNat) % 2 ^ 32) nw h (← diff k 4) (start + 4) hw

-----------------------------------------------------------------------------------------
-- The preparation of the two-way search
-----------------------------------------------------------------------------------------

/-- The bit array of the bytes of the needle, and for each of them the place behind its last
occurrence. The entries of the other bytes are not set.
-/
structure Table where
  byteset : Nat
  shift : UInt8 → Option Nat

/-- The loop that fills the table, with `i` bytes behind it. -/
def fill : List UInt8 → Nat → Table → Option Table
  | [], _, table => some table
  | byte :: rest, i, table => do
      let next ← sum w i 1
      fill rest next
        { byteset := table.byteset ||| 1 <<< byte.toNat
          shift := fun other => if other = byte then some next else table.shift other }

/-- The variables of the loops that look for the maximal suffix. -/
structure Scan where
  ip : Nat
  jp : Nat
  k : Nat
  p : Nat

/-- The loop that looks for the maximal suffix, where `above` is the comparison of its second
branch.
-/
def maximalSuffix (above : UInt8 → UInt8 → Bool) (n : List UInt8) : Nat → Scan → Option Scan
  | 0, _ => none
  | bound + 1, ⟨ip, jp, k, p⟩ => do
      let place ← sum w jp k
      if place < n.length then
        let a ← n[wrapSum w ip k]?
        let b ← n[place]?
        if a = b then
          if k = p then
            maximalSuffix above n bound ⟨ip, ← sum w jp p, 1, p⟩
          else
            maximalSuffix above n bound ⟨ip, jp, ← sum w k 1, p⟩
        else if above a b then
          let jp ← sum w jp k
          maximalSuffix above n bound ⟨ip, jp, 1, wrapDiff w jp ip⟩
        else
          maximalSuffix above n bound ⟨jp, ← sum w jp 1, 1, 1⟩
      else
        return ⟨ip, jp, k, p⟩

/-- `ip` and `p` after the loop. -/
def maximalSuffixOf (above : UInt8 → UInt8 → Bool) (n : List UInt8) : Option (Nat × Nat) := do
  let scan ← maximalSuffix w above n (2 * n.length + 1) ⟨2 ^ w - 1, 0, 1, 1⟩
  return (scan.ip, scan.p)

/-- The bytes that `memcmp` reads. -/
def slice (n : List UInt8) (start length : Nat) : Option (List UInt8) :=
  if start + length ≤ n.length then some ((n.drop start).take length) else none

/-- What the search knows about the needle. -/
structure Plan where
  ms : Nat
  p : Nat
  mem0 : Nat

/-- The test whether the needle is periodic. -/
def periodic (n : List UInt8) (ms p : Nat) : Option Plan := do
  let left ← slice n 0 (wrapSum w ms 1)
  let right ← slice n p (wrapSum w ms 1)
  if left ≠ right then
    return ⟨ms, ← sum w (max ms (wrapDiff w (wrapDiff w n.length ms) 1)) 1, 0⟩
  else
    return ⟨ms, p, ← diff n.length p⟩

/-- The two maximal suffixes, and the test with the shorter one. -/
def prepare (n : List UInt8) : Option Plan := do
  let (ms, p0) ← maximalSuffixOf w (fun a b => a > b) n
  let (ip, p) ← maximalSuffixOf w (fun a b => a < b) n
  if wrapSum w ip 1 > wrapSum w ms 1 then
    periodic w n ip p
  else
    periodic w n ms p0

-----------------------------------------------------------------------------------------
-- The two-way search
-----------------------------------------------------------------------------------------

/-- `h += k`, which may not leave the haystack. -/
def advance (h : List UInt8) (at_ k : Nat) : Option Nat :=
  if at_ + k ≤ h.length then some (at_ + k) else none

/-- The loop that compares the right half. -/
def compareRight (n h : List UInt8) (at_ : Nat) : Nat → Nat → Option Nat
  | 0, _ => none
  | bound + 1, k =>
      if k < n.length then do
        if (← n[k]?) = (← h[at_ + k]?) then
          compareRight n h at_ bound (← sum w k 1)
        else
          return k
      else
        return k

/-- The loop that compares the left half. -/
def compareLeft (n h : List UInt8) (at_ mem : Nat) : Nat → Option Nat
  | 0 => some 0
  | k + 1 =>
      if k + 1 > mem then do
        if (← n[k]?) = (← h[at_ + k]?) then
          compareLeft n h at_ mem k
        else
          return k + 1
      else
        return k + 1

/-- A round of the search: the occurrence, or the next place with what is known there. -/
inductive Round where
  | found
  | next (at_ mem : Nat)

/-- The part of the search loop behind the comparison of the last byte. -/
def compareHalves (n : List UInt8) (plan : Plan) (h : List UInt8) (at_ mem : Nat)
    : Option Round := do
  let k ← compareRight w n h at_ (n.length + 1) (max (wrapSum w plan.ms 1) mem)
  if k < n.length then
    return .next (← advance h at_ (wrapDiff w k plan.ms)) 0
  else
    let k ← compareLeft n h at_ mem (wrapSum w plan.ms 1)
    if k ≤ mem then
      return .found
    else
      return .next (← advance h at_ plan.p) plan.mem0

/-- A round where the haystack is long enough. -/
def round (n : List UInt8) (table : Table) (plan : Plan) (h : List UInt8) (at_ mem : Nat)
    : Option Round := do
  let l := n.length
  let last ← h[at_ + (l - 1)]?
  if table.byteset.testBit last.toNat then
    let k ← diff l (← table.shift last)
    if k ≠ 0 then
      if plan.mem0 ≠ 0 ∧ mem ≠ 0 ∧ k < plan.p then
        return .next (← advance h at_ (← diff l plan.p)) 0
      else
        return .next (← advance h at_ k) 0
    else
      compareHalves w n plan h at_ mem
  else
    return .next (← advance h at_ l) 0

/-- The search loop. -/
def search (n : List UInt8) (table : Table) (plan : Plan) (h : List UInt8)
    : Nat → Nat → Nat → Option (Option Nat)
  | 0, _, _ => none
  | bound + 1, at_, mem =>
      if h.length - at_ < n.length then
        some none
      else do
        match ← round w n table plan h at_ mem with
        | .found => return some at_
        | .next at_ mem => search n table plan h bound at_ mem

def twowayMemmem (h : List UInt8) (start : Nat) (n : List UInt8) : Option (Option Nat) := do
  let table ← fill w n 0 ⟨0, fun _ => none⟩
  let plan ← prepare w n
  search w n table plan h (h.length + 1) start 0

-----------------------------------------------------------------------------------------
-- memmem
-----------------------------------------------------------------------------------------

/-- `memchr`, from `at_` on. -/
def memchr (c : UInt8) : List UInt8 → Nat → Option Nat
  | [], _ => none
  | byte :: rest, at_ => if byte = c then some at_ else memchr c rest (at_ + 1)

def memmem (h n : List UInt8) : Option (Option Nat) :=
  let k := h.length
  let l := n.length
  if l = 0 then
    some (some 0)
  else if k < l then
    some none
  else do
    match memchr (← n[0]?) h 0 with
    | none => return none
    | some start =>
        if l = 1 then
          return some start
        else
          let k ← diff k start
          if k < l then
            return none
          else if l = 2 then
            twobyteMemmem h start k n
          else if l = 3 then
            threebyteMemmem h start k n
          else if l = 4 then
            fourbyteMemmem h start k n
          else
            twowayMemmem w h start n

end BSDLibC.Memmem
