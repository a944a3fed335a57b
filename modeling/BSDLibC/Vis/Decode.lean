import BSDLibC.Vis.Encode

/-! The decoder of `libc/gen/unvis.c`, a state machine that takes one character at a time. -/

namespace BSDLibC.Vis
open BSDLibC.Ctype

inductive Mode
  | ground
  | start
  | metachar
  | meta1
  | ctrl
  | octal2
  | octal3
  | hex
  | hex1
  | hex2
  | mime1
  | mime2
  | eatcrnl
  | amp
  | number
  | string
deriving DecidableEq, Repr

/-- `*astate`: the mode in the low byte and an index into a name in the high byte. -/
structure Astate where
  mode : Mode
  index : Nat
deriving DecidableEq, Repr

/-- `SS(0, mode)` -/
def ss (mode : Mode) : Astate := ⟨mode, 0⟩

inductive Code
  | valid
  | validpush
  | nochar
  | synbad
deriving DecidableEq, Repr

/-- `nv`, the names of RFC 1866. -/
def nv : List (String × UInt8) :=
  [("AElig", 198), ("Aacute", 193), ("Acirc", 194), ("Agrave", 192), ("Aring", 197),
    ("Atilde", 195), ("Auml", 196), ("Ccedil", 199), ("ETH", 208), ("Eacute", 201), ("Ecirc", 202),
    ("Egrave", 200), ("Euml", 203), ("Iacute", 205), ("Icirc", 206), ("Igrave", 204),
    ("Iuml", 207), ("Ntilde", 209), ("Oacute", 211), ("Ocirc", 212), ("Ograve", 210),
    ("Oslash", 216), ("Otilde", 213), ("Ouml", 214), ("THORN", 222), ("Uacute", 218),
    ("Ucirc", 219), ("Ugrave", 217), ("Uuml", 220), ("Yacute", 221), ("aacute", 225),
    ("acirc", 226), ("acute", 180), ("aelig", 230), ("agrave", 224), ("amp", 38), ("aring", 229),
    ("atilde", 227), ("auml", 228), ("brvbar", 166), ("ccedil", 231), ("cedil", 184),
    ("cent", 162), ("copy", 169), ("curren", 164), ("deg", 176), ("divide", 247), ("eacute", 233),
    ("ecirc", 234), ("egrave", 232), ("eth", 240), ("euml", 235), ("frac12", 189), ("frac14", 188),
    ("frac34", 190), ("gt", 62), ("iacute", 237), ("icirc", 238), ("iexcl", 161), ("igrave", 236),
    ("iquest", 191), ("iuml", 239), ("laquo", 171), ("lt", 60), ("macr", 175), ("micro", 181),
    ("middot", 183), ("nbsp", 160), ("not", 172), ("ntilde", 241), ("oacute", 243), ("ocirc", 244),
    ("ograve", 242), ("ordf", 170), ("ordm", 186), ("oslash", 248), ("otilde", 245), ("ouml", 246),
    ("para", 182), ("plusmn", 177), ("pound", 163), ("quot", 34), ("raquo", 187), ("reg", 174),
    ("sect", 167), ("shy", 173), ("sup1", 185), ("sup2", 178), ("sup3", 179), ("szlig", 223),
    ("thorn", 254), ("times", 215), ("uacute", 250), ("ucirc", 251), ("ugrave", 249), ("uml", 168),
    ("uuml", 252), ("yacute", 253), ("yen", 165), ("yuml", 255)]

/-- `nv[ia].name[is]`, where a name is padded with zero bytes. -/
def nvName (ia i : Nat) : Nat := (((nv.getD ia ("", 0)).1.toList.map chr).getD i 0)

def isoctal (c : UInt8) : Bool := 0x30 ≤ c && c ≤ 0x37

/-- `xtod` -/
def xtod (c : UInt8) : UInt8 :=
  if isdigit c.toNat then c - 0x30 else UInt8.ofNat (tolower c.toNat) - 0x61 + 10

/-- `XTOD` -/
def XTOD (c : UInt8) : UInt8 := if isdigit c.toNat then c - 0x30 else c - 0x41 + 10

/-- The character that a letter after a backslash stands for by itself. -/
def startLetter (c : UInt8) : Option UInt8 :=
  if c.toNat = chr '\\' then some c
  else if c.toNat = chr 'n' then some 0x0a
  else if c.toNat = chr 'r' then some 0x0d
  else if c.toNat = chr 'b' then some 0x08
  else if c.toNat = chr 'a' then some 0x07
  else if c.toNat = chr 'v' then some 0x0b
  else if c.toNat = chr 't' then some 0x09
  else if c.toNat = chr 'f' then some 0x0c
  else if c.toNat = chr 's' then some 0x20
  else if c.toNat = chr 'E' then some 0x1b
  else none

/-- The search of `S_STRING` from entry `ia` on: the entry whose name goes on with `uc` after
the same first characters.
-/
def findName (i lc uc : Nat) : Nat → Nat → Option Nat
  | _, 0 => none
  | ia, left + 1 =>
      if i ≠ 0 ∧ nvName ia (i - 1) ≠ lc then
        none
      else if nvName ia i = uc then
        some ia
      else
        findName i lc uc (ia + 1) left

/-- `S_STRING`, with the index `i` into the names. -/
def unvisString (cp uc : UInt8) (i : Nat) : UInt8 × Astate × Code :=
  let ia := cp.toNat
  let lc := if i = 0 then 0 else nvName ia (i - 1)
  let uc := if uc.toNat = chr ';' then 0 else uc.toNat
  match findName i lc uc ia (nv.length - ia) with
  | none => (cp, ss .ground, .synbad)
  | some ia =>
      if uc ≠ 0 then
        (UInt8.ofNat ia, ⟨.string, i + 1⟩, .nochar)
      else
        ((nv.getD ia ("", 0)).2, ss .ground, .valid)

/-- `unvis` without `UNVIS_END`: the new `*cp` and `*astate`, and the result. -/
def unvis (cp c : UInt8) (astate : Astate) (flag : Flags) : UInt8 × Astate × Code :=
  match astate.mode with
  | .ground =>
      if flag.noescape = false ∧ c.toNat = chr '\\' then
        (0, ss .start, .nochar)
      else if flag.httpstyle ∧ c.toNat = chr '%' then
        (0, ss .hex1, .nochar)
      else if flag.http1866 ∧ c.toNat = chr '&' then
        (0, ss .amp, .nochar)
      else if flag.mimestyle ∧ c.toNat = chr '=' then
        (0, ss .mime1, .nochar)
      else
        (c, astate, .valid)
  | .start =>
      match startLetter c with
      | some letter => (letter, ss .ground, .valid)
      | none =>
          if isoctal c then (c - 0x30, ss .octal2, .nochar)
          else if c.toNat = chr 'M' then (0x80, ss .metachar, .nochar)
          else if c.toNat = chr '^' then (cp, ss .ctrl, .nochar)
          else if c.toNat = chr 'x' then (cp, ss .hex, .nochar)
          else if c.toNat = chr '\n' then (cp, ss .ground, .nochar)
          else if c.toNat = chr '$' then (cp, ss .ground, .nochar)
          else if isgraph c.toNat then (c, ss .ground, .valid)
          else (cp, ss .ground, .synbad)
  | .metachar =>
      if c.toNat = chr '-' then (cp, ss .meta1, .nochar)
      else if c.toNat = chr '^' then (cp, ss .ctrl, .nochar)
      else (cp, ss .ground, .synbad)
  | .meta1 => (cp ||| c, ss .ground, .valid)
  | .ctrl =>
      (if c.toNat = chr '?' then cp ||| 0x7f else cp ||| (c &&& 0x1f), ss .ground, .valid)
  | .octal2 =>
      if isoctal c then (cp * 8 + (c - 0x30), ss .octal3, .nochar)
      else (cp, ss .ground, .validpush)
  | .octal3 =>
      if isoctal c then (cp * 8 + (c - 0x30), ss .ground, .valid)
      else (cp, ss .ground, .validpush)
  | .hex =>
      if isxdigit c.toNat then (xtod c, ss .hex2, .nochar)
      else (cp, ss .ground, .synbad)
  | .hex1 =>
      if isxdigit c.toNat then (xtod c, ss .hex2, .nochar)
      else (cp, ss .ground, .validpush)
  | .hex2 =>
      if isxdigit c.toNat then (xtod c ||| cp * 16, ss .ground, .valid)
      else (cp, ss .ground, .validpush)
  | .mime1 =>
      if c.toNat = chr '\n' ∨ c.toNat = chr '\r' then (cp, ss .eatcrnl, .nochar)
      else if isxdigit c.toNat && (isdigit c.toNat || isupper c.toNat) then
        (XTOD c, ss .mime2, .nochar)
      else (cp, ss .ground, .synbad)
  | .mime2 =>
      if isxdigit c.toNat && (isdigit c.toNat || isupper c.toNat) then
        (XTOD c ||| cp * 16, ss .ground, .valid)
      else (cp, ss .ground, .synbad)
  | .eatcrnl =>
      if c.toNat = chr '\r' ∨ c.toNat = chr '\n' then (cp, astate, .nochar)
      else if c.toNat = chr '=' then (cp, ss .mime1, .nochar)
      else (c, ss .ground, .valid)
  | .amp =>
      if c.toNat = chr '#' then (0, ss .number, .nochar)
      else unvisString 0 c 0
  | .string => unvisString cp c astate.index
  | .number =>
      if c.toNat = chr ';' then (cp, astate, .valid)
      else if isdigit c.toNat then (cp + (cp * 10 + c - 0x30), astate, .nochar)
      else (cp, ss .ground, .synbad)

/-- `unvis` with `UNVIS_END`, as far as `strnunvisx` looks at it: whether a character is due. -/
def unvisEnd (astate : Astate) : Code :=
  match astate.mode with
  | .octal2 | .octal3 | .hex2 => .valid
  | .ground => .nochar
  | _ => .synbad

/-- The variables of `strnunvisx`; `dst` is what has been written. -/
structure Decoder where
  t : UInt8
  state : Astate
  dst : List UInt8
  dlen : Nat
deriving DecidableEq, Repr

/-- `CHECKSPACE(); *dst++ = t;` -/
def Decoder.put (decoder : Decoder) : Option Decoder :=
  if decoder.dlen = 0 then
    none
  else
    some { decoder with dst := decoder.dst ++ [decoder.t], dlen := decoder.dlen - 1 }

/-- The loop at `again` for one character, with a bound on how often it is pushed back. -/
def strnunvisx.again (flag : Flags) (c : UInt8) : Nat → Decoder → Option Decoder
  | 0, _ => none
  | pushes + 1, decoder =>
      let (t, state, code) := unvis decoder.t c decoder.state flag
      let decoder := { decoder with t := t, state := state }
      match code with
      | .valid => decoder.put
      | .validpush => decoder.put.bind (strnunvisx.again flag c pushes)
      | .nochar => some decoder
      | .synbad => none

/-- `strnunvisx`: the bytes written before the terminator and the result, or nothing when it
returns -1. A character is pushed back once at most.
-/
def strnunvisx (dlen : Nat) (src : List UInt8) (flag : Flags) : Option (List UInt8 × Int) := do
  let decoder ← (cstring src).foldlM (fun decoder c => strnunvisx.again flag c 2 decoder)
    { t := 0, state := ss .ground, dst := [], dlen := dlen }
  let decoder ← if unvisEnd decoder.state = .valid then decoder.put else some decoder
  if decoder.dlen = 0 then none else some (decoder.dst, toInt decoder.dst.length)

/-- A character that was pushed back is not pushed back again, so the bound is never met. -/
theorem unvis_validpush {cp c : UInt8} {astate : Astate} {flag : Flags}
    (pushed : (unvis cp c astate flag).2.2 = .validpush)
    : (unvis cp c astate flag).2.1 = ss .ground
      ∧ ∀ cp', (unvis cp' c (ss .ground) flag).2.2 ≠ .validpush := by
  constructor
  · obtain ⟨mode, index⟩ := astate
    cases mode <;> simp only [unvis, unvisString] at pushed ⊢ <;> split at pushed <;> grind
  · intro cp' again
    simp only [unvis, ss] at again
    grind

end BSDLibC.Vis
