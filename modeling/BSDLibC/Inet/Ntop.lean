import BSDLibC.Bytes.Buffer
import BSDLibC.Bytes.Numeral

/-! Addresses in text form, as `inet_ntop.c` writes them. A result `none` is an access outside of
the memory that the call has got.
-/

namespace BSDLibC.Inet

open Bytes

inductive Family
  | inet
  | inet6
  | other
deriving DecidableEq, Repr

inductive Errno
  | ENOSPC
  | EAFNOSUPPORT
deriving DecidableEq, Repr

def colon : UInt8 := 0x3a

def period : UInt8 := 0x2e

/-- `strlcpy(dst, src, size)`, where the end of the list is the terminator of `src`. -/
def strlcpy (dst src : List UInt8) (size : Nat) : Option (List UInt8) :=
  if size = 0 then some dst else storeAll dst 0 (src.take (size - 1) ++ [0])

/-- The output of `"%u.%u.%u.%u"`. -/
def quad (src : List UInt8) : Option (List UInt8) := do
  let a ← src[0]?
  let b ← src[1]?
  let c ← src[2]?
  let d ← src[3]?
  return numeral 10 a.toNat ++ period :: numeral 10 b.toNat ++ period :: numeral 10 c.toNat
    ++ period :: numeral 10 d.toNat

/-- The buffer of `inet_ntop4` has 16 bytes, which `snprintf` does not exceed. -/
def inetNtop4 (src dst : List UInt8) (size : Nat) : Option (Except Errno (List UInt8)) := do
  let text ← quad src
  let tmp := text.take 15
  if text.length ≥ size then
    return .error .ENOSPC
  else
    return .ok (← strlcpy dst tmp size)

-----------------------------------------------------------------------------------------
-- `inet_ntop6`
-----------------------------------------------------------------------------------------

/-- A run of zero words. No run, which has the base `-1`, is `none`. -/
structure Run where
  base : Nat
  len : Nat
deriving DecidableEq, Repr

def better (best cur : Option Run) : Option Run :=
  match cur with
  | none => best
  | some c =>
      match best with
      | none => some c
      | some b => if c.len > b.len then some c else some b

/-- The longest run, the first one of several. -/
def bestRun.loop : Nat → List Nat → Option Run → Option Run → Option Run
  | _, [], best, cur => better best cur
  | i, word :: words, best, cur =>
      if word = 0 then
        bestRun.loop (i + 1) words best
          (some (match cur with
            | none => ⟨i, 1⟩
            | some c => { c with len := c.len + 1 }))
      else
        bestRun.loop (i + 1) words (better best cur) none

/-- Only a run of two words or more is abbreviated. -/
def bestRun (words : List Nat) : Option Run :=
  (bestRun.loop 0 words none none).filter (fun best => best.len ≥ 2)

/-- `words[i / 2] |= (src[i] << ((1 - (i % 2)) << 3))` -/
def addByte (src : List UInt8) (words : List Nat) (i : Nat) : Option (List Nat) := do
  let byte ← src[i]?
  return words.modify (i / 2) (· ||| byte.toNat <<< ((1 - i % 2) <<< 3))

def wordsOf (src : List UInt8) : Option (List Nat) :=
  (List.range 16).foldlM (addByte src) (List.replicate 8 0)

/-- `sizeof "ffff:ffff:ffff:ffff:ffff:ffff:255.255.255.255"` -/
def tmpSize : Nat := 46

/-- How the text goes on: there is no space, or what is in the buffer. -/
inductive Progress
  | full
  | text (tmp : List UInt8)
deriving DecidableEq, Repr

/-- `*tp++ = c`, unchecked -/
def push (tmp : List UInt8) (c : UInt8) : Option (List UInt8) :=
  if tmp.length < tmpSize then some (tmp ++ [c]) else none

/-- `if (tp + 1 >= ep) goto out; *tp++ = c` -/
def pushChecked (tmp : List UInt8) (c : UInt8) : Option Progress :=
  if tmp.length + 1 ≥ tmpSize then some .full else (push tmp c).map .text

/-- The test for an encapsulated IPv4 address. -/
def encapsulated (words : List Nat) (best : Option Run) (i : Nat) : Bool :=
  match best with
  | none => false
  | some best =>
      i = 6 && best.base = 0
        && (best.len = 6 || (best.len = 7 && words[7]? != some 0x0001)
          || (best.len = 5 && words[5]? == some 0xffff))

/-- The word at `i`, after the separator. The flag says that the loop is left. -/
def formatWord (src : List UInt8) (words : List Nat) (best : Option Run) (i word : Nat)
    (tmp : List UInt8) : Option (Progress × Bool) :=
  if encapsulated words best i then do
    match ← inetNtop4 (src.drop 12) (List.replicate (tmpSize - tmp.length) 0)
        (tmpSize - tmp.length) with
    | .error _ => return (.full, true)
    | .ok written => return (.text (tmp ++ written.takeWhile (· != 0)), true)
  else
    let text := numeral 16 word
    if text.length ≥ tmpSize - tmp.length then
      some (.full, false)
    else
      some (.text (tmp ++ text), false)

def inRun (best : Option Run) (i : Nat) : Bool :=
  best.any (fun best => best.base ≤ i && i < best.base + best.len)

/-- The loop over the words, from the one at `i` on. -/
def format (src : List UInt8) (words : List Nat) (best : Option Run)
    : Nat → List Nat → List UInt8 → Option Progress
  | _, [], tmp => some (.text tmp)
  | i, word :: rest, tmp =>
      if inRun best i then do
        let tmp ← if best.any (fun best => i = best.base) then push tmp colon else some tmp
        format src words best (i + 1) rest tmp
      else do
        match ← if i ≠ 0 then pushChecked tmp colon else some (.text tmp) with
        | .full => return .full
        | .text tmp =>
            match ← formatWord src words best i word tmp with
            | (.full, _) => return .full
            | (.text tmp, true) => return .text tmp
            | (.text tmp, false) => format src words best (i + 1) rest tmp

/-- The second colon of a trailing run. -/
def closeRun (best : Option Run) (tmp : List UInt8) : Option Progress :=
  if best.any (fun best => best.base + best.len = 8) then
    pushChecked tmp colon
  else
    some (.text tmp)

def inetNtop6 (src dst : List UInt8) (size : Nat) : Option (Except Errno (List UInt8)) := do
  let words ← wordsOf src
  let best := bestRun words
  match ← format src words best 0 words [] with
  | .full => return .error .ENOSPC
  | .text tmp =>
      match ← closeRun best tmp with
      | .full => return .error .ENOSPC
      | .text tmp =>
          match ← pushChecked tmp 0 with
          | .full => return .error .ENOSPC
          | .text terminated =>
              if terminated.length > size then
                return .error .ENOSPC
              else
                return .ok (← strlcpy dst tmp size)

/-- The text goes to `dst`; an error is a result `NULL`, and leaves `dst` alone. -/
def inetNtop (af : Family) (src dst : List UInt8) (size : Nat)
    : Option (Except Errno (List UInt8)) :=
  match af with
  | .inet => inetNtop4 src dst size
  | .inet6 => inetNtop6 src dst size
  | .other => some (.error .EAFNOSUPPORT)

end BSDLibC.Inet
