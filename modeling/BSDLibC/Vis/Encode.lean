import BSDLibC.Ctype.CLocale

/-! The encoder of `libc/gen/vis.c` in the C locale, where each byte is one wide character with
the same code. The functions on wide characters return what they append to the output.
Allocations succeed.
-/

namespace BSDLibC.Vis
open BSDLibC.Ctype

/-- The bits of `flags`. `VIS_HTTPSTYLE` and `VIS_HTTP1808` are one bit. -/
structure Flags where
  octal : Bool
  cstyle : Bool
  sp : Bool
  tab : Bool
  nl : Bool
  safe : Bool
  noslash : Bool
  httpstyle : Bool
  mimestyle : Bool
  http1866 : Bool
  noescape : Bool
  glob : Bool
  shell : Bool
  nolocale : Bool
  dq : Bool
deriving DecidableEq, Repr

/-- No flag -/
def Flags.none : Flags :=
  { octal := false, cstyle := false, sp := false, tab := false, nl := false, safe := false,
    noslash := false, httpstyle := false, mimestyle := false, http1866 := false,
    noescape := false, glob := false, shell := false, nolocale := false, dq := false }

/-- The code of a character of the source text. -/
abbrev chr (c : Char) : Nat := c.toNat

/-- `iswoctal`, which looks at the low byte only. -/
def iswoctal (c : Nat) : Bool := 0x30 ≤ c % 256 && c % 256 ≤ 0x37

def iswwhite (c : Nat) : Bool := c = chr ' ' || c = chr '\t' || c = chr '\n'

def iswsafe (c : Nat) : Bool := c = 0x08 || c = 0x07 || c = chr '\r'

/-- `xtoa`; `letter` is the digit for ten. -/
def digitOf (letter c : Nat) : Nat := if c < 10 then chr '0' + c else letter + (c - 10)

def xtoa (c : Nat) : Nat := digitOf (chr 'a') c

def XTOA (c : Nat) : Nat := digitOf (chr 'A') c

/-- `wcschr(s, c) != NULL`, which also finds the terminator. -/
def wcschr (s : List Nat) (c : Nat) : Bool := c = 0 || s.contains c

def charShell : List Nat := "'`\";&<>()|\x7b\x7d]\\$!^~".toList.map chr

def charGlob : List Nat := "*?[#".toList.map chr

/-- `ISGRAPH`: `isgraph` or `iswgraph`, which agree in the C locale. -/
def ISGRAPH (flags : Flags) (c : Nat) : Bool := if flags.nolocale then isgraph c else isgraph c

/-- The letter that stands for a character after a backslash with `VIS_CSTYLE`. -/
def cstyleLetter (c : Nat) : Option Nat :=
  if c = chr '\n' then some (chr 'n')
  else if c = chr '\r' then some (chr 'r')
  else if c = 0x08 then some (chr 'b')
  else if c = 0x07 then some (chr 'a')
  else if c = 0x0b then some (chr 'v')
  else if c = chr '\t' then some (chr 't')
  else if c = 0x0c then some (chr 'f')
  else if c = chr ' ' then some (chr 's')
  else none

/-- The characters that have a special meaning after a backslash, as `do_mbyte` lists them. -/
def cstyleSpecial : List Nat :=
  ['n', 'r', 'b', 'a', 'v', 't', 'f', 's', '0', 'M', '^', '$'].map chr

/-- `\\ddd` -/
def octalEscape (c : Nat) : List Nat :=
  [chr '\\', ((c % 256) >>> 6 &&& 3) + chr '0', ((c % 256) >>> 3 &&& 7) + chr '0',
    (c &&& 7) + chr '0']

/-- `M` for the high bit, and `^` or `-` with a character. -/
def metaEscape (c : Nat) : List Nat :=
  let (c, high) := if c &&& 0x80 ≠ 0 then (c &&& 0x7f, [chr 'M']) else (c, [])
  high
    ++ (if iscntrl c then
        [chr '^', if c = 0x7f then chr '?' else c + chr '@']
      else
        [chr '-', c])

/-- The part of `do_mbyte` below the `VIS_CSTYLE` switch. -/
def doMbytePlain (c : Nat) (flags : Flags) (iswextra : Bool) : List Nat :=
  if iswextra || c &&& 0x7f = chr ' ' || flags.octal then
    octalEscape c
  else
    (if flags.noslash then [] else [chr '\\']) ++ metaEscape c

/-- `do_mbyte` -/
def doMbyte (c : Nat) (flags : Flags) (nextc : Nat) (iswextra : Bool) : List Nat :=
  if flags.cstyle then
    match cstyleLetter c with
    | some letter => [chr '\\', letter]
    | none =>
        if c = 0 then
          chr '\\' :: chr '0' :: (if iswoctal nextc then [chr '0', chr '0'] else [])
        else if cstyleSpecial.contains c then
          doMbytePlain c flags iswextra
        else if ISGRAPH flags c && !iswoctal c then
          [chr '\\', c]
        else
          doMbytePlain c flags iswextra
  else
    doMbytePlain c flags iswextra

/-- The loop of `do_svis` over the bytes of a wide character, from the high end; `wmsk` covers
the bytes visited before.
-/
def doSvis.bytes (c : Nat) (flags : Flags) (nextc : Nat) (iswextra : Bool)
    : Nat → List Nat → List Nat
  | _, [] => []
  | wmsk, i :: rest =>
      let bmsk := 0xff <<< (i * 8)
      let wmsk := wmsk ||| bmsk
      (if c &&& wmsk ≠ 0 ∨ i = 0 then doMbyte ((c &&& bmsk) >>> (i * 8)) flags nextc iswextra
        else [])
        ++ doSvis.bytes c flags nextc iswextra wmsk rest

/-- `do_svis` -/
def doSvis (c : Nat) (flags : Flags) (nextc : Nat) (extra : List Nat) : List Nat :=
  let iswextra := wcschr extra c
  if !iswextra && (ISGRAPH flags c || iswwhite c || (flags.safe && iswsafe c)) then
    [c]
  else
    doSvis.bytes c flags nextc iswextra 0 [7, 6, 5, 4, 3, 2, 1, 0]

/-- `do_hvis` -/
def doHvis (c : Nat) (flags : Flags) (nextc : Nat) (extra : List Nat) : List Nat :=
  if isalnum c || ("$-_.+!*'(),".toList.map chr).contains c then
    doSvis c flags nextc extra
  else
    [chr '%', xtoa (c >>> 4 &&& 0xf), xtoa (c &&& 0xf)]

/-- `do_mvis` -/
def doMvis (c : Nat) (flags : Flags) (nextc : Nat) (extra : List Nat) : List Nat :=
  if c ≠ chr '\n'
      ∧ ((isspace c ∧ (nextc = chr '\r' ∨ nextc = chr '\n'))
        ∨ (¬ isspace c ∧ (c < 33 ∨ (c > 60 ∧ c < 62) ∨ c > 126))
        ∨ wcschr ("#$@[\\]^`\x7b|\x7d~".toList.map chr) c) then
    [chr '=', XTOA (c >>> 4 &&& 0xf), XTOA (c &&& 0xf)]
  else
    doSvis c flags nextc extra

/-- `getvisfun` -/
def getvisfun (flags : Flags) : Nat → Flags → Nat → List Nat → List Nat :=
  if flags.httpstyle then doHvis else if flags.mimestyle then doMvis else doSvis

/-- The bytes of a C string, up to its terminator. -/
def cstring (bytes : List UInt8) : List UInt8 := bytes.takeWhile (· ≠ 0)

/-- `makeextralist` -/
def makeextralist (flags : Flags) (src : List UInt8) : List Nat :=
  (cstring src).map UInt8.toNat
    ++ (if flags.glob then charGlob else [])
    ++ (if flags.shell then charShell else [])
    ++ (if flags.sp then [chr ' '] else [])
    ++ (if flags.tab then [chr '\t'] else [])
    ++ (if flags.nl then [chr '\n'] else [])
    ++ (if flags.dq then [0x22] else [])
    ++ (if flags.noslash then [] else [chr '\\'])

/-- The main processing loop; the last character sees `last` as the next one. -/
def visLoop (f : Nat → Flags → Nat → List Nat → List Nat) (flags : Flags) (extra : List Nat)
    (last : Nat)
    : List Nat → List Nat
  | [] => []
  | [c] => f c flags last extra
  | c :: next :: rest => f c flags next extra ++ visLoop f flags extra last (next :: rest)

/-- The value of a `size_t` converted to `int`. -/
def toInt (n : Nat) : Int := (BitVec.ofNat 32 n).toInt

/-- `istrsenvisx`: the bytes written before the terminator and the result, or nothing when it
returns -1. `after` is the byte behind `mbsrc`, which is read when there is only one. Without
`dlen` the size of the output is not limited.
-/
def istrsenvisx (dlen : Option Nat) (mbsrc : List UInt8) (after : UInt8) (flags : Flags)
    (mbextra : List UInt8)
    : Option (List UInt8 × Int) :=
  let mbslength := if mbsrc.length = 1 then 2 else mbsrc.length
  if mbslength > (2 ^ 64 - 2) / 16 then
    none
  else
    let last := if mbsrc.length = 1 then after.toNat else 0
    let extra := makeextralist flags mbextra
    let start := visLoop (getvisfun flags) flags extra last (mbsrc.map UInt8.toNat)
    let out := start.takeWhile (· ≠ 0)
    -- Each wide character is one byte on the way out, and the terminator needs room too.
    let fits : Bool := match dlen with
      | some maxolen => out.length < maxolen
      | none => out.length ≤ (2 ^ 64 - 2) / 32
    if fits then some (out.map UInt8.ofNat, toInt out.length) else none

/-- `strvisx` -/
def strvisx (mbsrc : List UInt8) (after : UInt8) (flags : Flags) : Option (List UInt8 × Int) :=
  istrsenvisx none mbsrc after flags []

/-- `strsvisx` -/
def strsvisx (mbsrc : List UInt8) (after : UInt8) (flags : Flags) (mbextra : List UInt8)
    : Option (List UInt8 × Int) :=
  istrsenvisx none mbsrc after flags mbextra

end BSDLibC.Vis
