import Mathlib.Algebra.Order.Ring.Nat
import Mathlib.Data.List.Basic
import Mathlib.Tactic.Common

/-! The UTF-7 module of `citrus/modules/citrus_utf7.c`: the restartable decoder, the encoder and the
drivers that call them. Bytes, 16-bit units and code points are numbers.
-/

namespace BSDLibC.Utf7

def codes (text : String) : List Nat := text.toList.map Char.toNat

/-- `base64` -/
def base64 : List Nat :=
  codes "ABCDEFGHIJKLMNOPQRSTUVWXYZabcdefghijklmnopqrstuvwxyz0123456789+/"

/-- `direct` -/
def direct : List Nat :=
  codes "ABCDEFGHIJKLMNOPQRSTUVWXYZabcdefghijklmnopqrstuvwxyz0123456789(),-./:?"

/-- `option` -/
def optional : List Nat := codes "!\"#$%&';<=>@[]^_`\x7b|\x7d"

/-- `spaces` -/
def spaces : List Nat := codes " \t\r\n"

/-- `BASE64_IN` -/
def base64In : Nat := 43

/-- `BASE64_OUT` -/
def base64Out : Nat := 45

/-- The `cell` of a character, as `FILL` leaves it: its place in `base64` counted from one, and a
flag for each of the other tables.
-/
def cell (c : Nat) : Nat :=
  (if c ∈ base64 then base64.idxOf c + 1 else 0) ||| (if c ∈ direct then 0x100 else 0)
    ||| (if c ∈ optional then 0x200 else 0) ||| (if c ∈ spaces then 0x400 else 0)

/-- `FINDLEN` -/
def findlen (c : Nat) : Int := if c >>> 7 ≠ 0 then -1 else (cell c &&& 0xff : Nat) - 1

/-- `ISSPECIAL` -/
def isSpecial (c : Nat) : Bool := c = 0 || c = base64In

/-- `ISDIRECT` -/
def isDirect (c : Nat) : Bool := c >>> 7 = 0 && (isSpecial c || cell c &&& 0x700 ≠ 0)

/-- `ISSAFE` -/
def isSafe (c : Nat) : Bool := c >>> 7 = 0 && (isSpecial c || cell c &&& 0x500 ≠ 0)

/-- The part of `_UTF7State` that both sides carry from character to character: whether they are in
base64, and the bits of a unit that they hold.
-/
structure Shift where
  mode : Bool
  bits : Nat
  cache : Nat
deriving DecidableEq

/-- The state `_citrus_UTF7_init_state` sets. -/
def Shift.init : Shift := ⟨false, 0, 0⟩

/-- The 22 bits of `cache`. -/
def cacheSize : Nat := 2 ^ 22

/-- What one byte does in `_citrus_UTF7_mbtoutf16`. -/
inductive Step where
  | fail
  | more (shift : Shift)
  | done (u16 : Nat) (shift : Shift)

/-- One round of the loop of `_citrus_UTF7_mbtoutf16`. -/
def Shift.step (shift : Shift) (c : Nat) : Step :=
  if c >>> 7 ≠ 0 then
    .fail
  else if !shift.mode then
    if shift.bits > 0 ∨ shift.cache > 0 then
      .fail
    else if c = base64In then
      .more { shift with mode := true }
    else if !isDirect c then
      .fail
    else
      .done c shift
  else if c = base64Out ∧ shift.cache = 0 then
    .done base64In { shift with mode := false }
  else if findlen c < 0 then
    if shift.bits ≥ 6 then
      .fail
    else if c ≠ base64Out then
      if !isDirect c then .fail else .done c .init
    else
      .more .init
  else
    let cache := (shift.cache * 64 + (findlen c).toNat) % cacheSize
    if shift.bits ∈ [0, 2, 4, 6, 8] then
      .more { shift with bits := shift.bits + 6, cache := cache }
    else if shift.bits ∈ [10, 12, 14] then
      .done (cache / 2 ^ (shift.bits - 10) % 2 ^ 16)
        { shift with bits := shift.bits - 10, cache := cache }
    else
      .fail

/-- `_UTF7State` -/
structure State extends Shift where
  surrogate : Bool
  chlen : Nat
  ch : List Nat
deriving DecidableEq

/-- `_citrus_UTF7_init_state` -/
def State.init : State := { Shift.init with surrogate := false, chlen := 0, ch := [0, 0, 0, 0] }

/-- How `_citrus_UTF7_mbtoutf16` ends: with a unit and the bytes behind it, with a restart after all
bytes were taken, or with an error.
-/
inductive Unit16 where
  | unit (u16 : Nat) (state : State) (rest : List Nat)
  | restart (state : State)
  | fail

/-- The loop of `_citrus_UTF7_mbtoutf16` over new bytes; a byte that has no place in `ch` is an
error here. A restart goes back to the state at the start, `ch` included, and keeps the number of
bytes taken.
-/
def mbtoutf16.loop (sv : State) : List Nat → State → Unit16
  | [], state => .restart { sv with chlen := state.chlen }
  | c :: s, state =>
      if state.chlen ≥ 4 then
        .fail
      else
        let state := { state with ch := state.ch.set state.chlen c, chlen := state.chlen + 1 }
        match state.toShift.step c with
        | .fail => .fail
        | .more shift => mbtoutf16.loop sv s { state with toShift := shift }
        | .done u16 shift => .unit u16 { state with toShift := shift, chlen := 0 } s

/-- The loop over the bytes that `ch` holds from earlier calls. -/
def mbtoutf16.replay (sv : State) : List Nat → List Nat → State → Unit16
  | [], s, state => mbtoutf16.loop sv s state
  | c :: saved, s, state =>
      match state.toShift.step c with
      | .fail => .fail
      | .more shift => mbtoutf16.replay sv saved s { state with toShift := shift }
      | .done u16 shift =>
          if saved = [] then .unit u16 { state with toShift := shift, chlen := 0 } s else .fail

/-- `_citrus_UTF7_mbtoutf16` -/
def mbtoutf16 (state : State) (s : List Nat) : Unit16 :=
  mbtoutf16.replay state (state.ch.take state.chlen) s state

/-- How `_citrus_UTF7_mbrtowc_priv` ends. -/
inductive Result where
  | char (wc : Nat) (state : State) (rest : List Nat)
  | restart (state : State)
  | fail

/-- Whether a unit is the first one of a surrogate pair. -/
def isHigh (u16 : Nat) : Bool := 0xd800 ≤ u16 && u16 ≤ 0xdbff

/-- The end of `_citrus_UTF7_mbrtowc_priv`. -/
def mbrtowc.done (u32 : Nat) (state : State) (rest : List Nat) : Result :=
  if u32 = 0 then .char 0 .init rest else .char u32 { state with surrogate := false } rest

/-- `_citrus_UTF7_mbrtowc_priv` with the first unit of a pair in hand. -/
def mbrtowc.second (hi : Nat) (state : State) (s : List Nat) : Result :=
  match mbtoutf16 state s with
  | .fail => .fail
  | .restart state => .restart state
  | .unit lo state rest =>
      let hi := hi - 0xd800
      let lo := (lo + 2 ^ 16 - 0xdc00) % 2 ^ 16
      mbrtowc.done ((hi * 2 ^ 10 ||| lo) + 0x10000) state rest

/-- `_citrus_UTF7_mbrtowc_priv` -/
def mbrtowc (state : State) (s : List Nat) : Result :=
  if state.surrogate then
    let hi := state.cache / 2 ^ 2 % 2 ^ 16
    if isHigh hi then mbrtowc.second hi state s else .fail
  else
    match mbtoutf16 state s with
    | .fail => .fail
    | .restart state => .restart state
    | .unit hi state rest =>
        if isHigh hi then
          mbrtowc.second hi { state with surrogate := true } rest
        else
          mbrtowc.done hi state rest

/-- The characters of a piece of the input; the first argument bounds the number of calls. -/
def decodePiece : Nat → State → List Nat → Option (List Nat × State)
  | _, state, [] => some ([], state)
  | 0, _, _ :: _ => none
  | calls + 1, state, c :: s =>
      match mbrtowc state (c :: s) with
      | .fail => none
      | .restart state => some ([], state)
      | .char wc state rest => do
          let (wcs, state) ← decodePiece calls state rest
          return (wc :: wcs, state)

/-- The characters of an input that arrives in pieces. A call takes a byte unless it finishes a
character from bytes it holds.
-/
def decode : List (List Nat) → State → Option (List Nat)
  | [], _ => some []
  | piece :: pieces, state => do
      let (wcs, state) ← decodePiece (piece.length + 1) state piece
      let rest ← decode pieces state
      return wcs ++ rest

/-- The base64 digit of six bits. -/
def digit (value : Nat) : Nat := base64.getD value 0

/-- The digits that the loop of `_citrus_UTF7_utf16tomb` writes while there are six bits in hand. -/
def digits (cache : Nat) : Nat → List Nat
  | bits + 6 => digit (cache / 2 ^ bits % 64) :: digits cache bits
  | _ => []

/-- The digit with the bits that are left, and the bits dropped. -/
def Shift.flush (shift : Shift) : List Nat × Shift :=
  if shift.bits > 0 then
    ([digit (shift.cache * 2 ^ (6 - shift.bits) % 64)], { shift with bits := 0, cache := 0 })
  else
    ([], shift)

/-- The way out of base64 before a character that stands for itself. -/
def Shift.leave (shift : Shift) (u16 : Nat) : List Nat × Shift :=
  if shift.mode then
    let (bytes, shift) := shift.flush
    (bytes ++ (if u16 = base64Out ∨ 0 ≤ findlen u16 then [base64Out] else []),
      { shift with mode := false })
  else
    ([], shift)

/-- `_citrus_UTF7_utf16tomb` on a safe unit. -/
def utf16tomb.safe (shift : Shift) (u16 : Nat) : Option (List Nat × Shift) :=
  let (bytes, shift) := shift.leave u16
  if shift.bits ≠ 0 then
    none
  else
    some (bytes ++ u16 :: (if u16 = base64In then [base64Out] else []), shift)

/-- `_citrus_UTF7_utf16tomb` on any other unit. -/
def utf16tomb.coded (shift : Shift) (u16 : Nat) : Option (List Nat × Shift) :=
  if !shift.mode ∧ shift.bits > 0 then
    none
  else
    let cache := (shift.cache * 2 ^ 16 + u16) % cacheSize
    let bits := 16 + shift.bits
    some ((if shift.mode then [] else [base64In]) ++ digits cache bits, ⟨true, bits % 6, cache⟩)

/-- `_citrus_UTF7_utf16tomb`. Its state holds no bytes between the calls. -/
def utf16tomb (n : Nat) (shift : Shift) (u16 : Nat) : Option (List Nat × Shift) :=
  if shift.bits > 6 then
    none
  else
    match if isSafe u16 then utf16tomb.safe shift u16 else utf16tomb.coded shift u16 with
    | none => none
    | some (bytes, shift) => if n < bytes.length then none else some (bytes, shift)

/-- The units of a code point, as `_citrus_UTF7_wcrtomb_priv` computes them. -/
def units (u32 : Nat) : Option (List Nat) :=
  if u32 ≤ 0xffff then
    some [u32]
  else if u32 ≤ 0x10ffff then
    let u32 := u32 - 0x10000
    some [u32 / 2 ^ 10 + 0xd800, u32 % 2 ^ 10 + 0xdc00]
  else
    none

/-- The loop of `_citrus_UTF7_wcrtomb_priv` over the units. -/
def wcrtomb.loop : Nat → Shift → List Nat → Option (List Nat × Shift)
  | _, shift, [] => some ([], shift)
  | n, shift, u16 :: u16s => do
      let (bytes, shift) ← utf16tomb n shift u16
      let (rest, shift) ← wcrtomb.loop (n - bytes.length) shift u16s
      return (bytes ++ rest, shift)

/-- `_citrus_UTF7_wcrtomb_priv` -/
def wcrtomb (n : Nat) (shift : Shift) (wchar : Nat) : Option (List Nat × Shift) := do
  let u16s ← units wchar
  wcrtomb.loop (min n 8) shift u16s

/-- `_citrus_UTF7_put_state_reset` -/
def putStateReset (n : Nat) (shift : Shift) : Option (List Nat) :=
  if shift.bits > 6 then
    none
  else
    let bytes := if shift.mode ∧ shift.bits > 0 then shift.flush.1 ++ [base64Out] else []
    if ¬ shift.mode ∧ shift.bits ≠ 0 then
      none
    else if n < (if bytes = [] then 1 else 2) then
      none
    else
      some bytes

/-- The bytes of a sequence of code points, where every call has room for `n` bytes. -/
def encode (n : Nat) : Shift → List Nat → Option (List Nat)
  | shift, [] => putStateReset n shift
  | shift, wchar :: wchars => do
      let (bytes, shift) ← wcrtomb n shift wchar
      let rest ← encode n shift wchars
      return bytes ++ rest

end BSDLibC.Utf7
