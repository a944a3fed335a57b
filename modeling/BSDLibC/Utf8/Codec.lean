import BSDLibC.Transducer.Basic

/-! The UTF-8 module of `citrus/modules/citrus_utf8.c`: the tables built at start-up, the
restartable decoder and the encoder. `wchar_t` is a 32-bit word.
-/

namespace BSDLibC.Utf8

/-- `wchar_t` -/
abbrev WChar := BitVec 32

/-- `struct __UTF_B2` -/
structure Byte2 where
  low : Nat := 0
  high : Nat := 0
deriving DecidableEq, Repr

/-- `_UTF8_count_array` and `_UTF8_Byte2_array` -/
structure Tables where
  count : Nat → Nat := fun _ => 0
  byte2 : Nat → Byte2 := fun _ => {}

/-- One loop of `_UTF8_init_count` over the lead bytes from `first` to `last`. -/
def Tables.fill (tables : Tables) (first last count low high : Nat) : Tables :=
  { count := fun i => if first ≤ i ∧ i ≤ last then count else tables.count i
    byte2 := fun i => if first ≤ i ∧ i ≤ last then ⟨low, high⟩ else tables.byte2 i }

/-- `_UTF8_init_count`; the loop over the single bytes leaves their second byte clear. -/
def tables : Tables :=
  let tables : Tables := {}
  let tables := tables.fill 0x00 0x7f 1 0 0
  let tables := tables.fill 0xc2 0xdf 2 0x80 0xBF
  let tables := tables.fill 0xe0 0xe0 3 0xA0 0xBF
  let tables := tables.fill 0xe1 0xec 3 0x80 0xBF
  let tables := tables.fill 0xed 0xed 3 0x80 0x9F
  let tables := tables.fill 0xee 0xef 3 0x80 0xBF
  let tables := tables.fill 0xf0 0xf0 4 0x90 0xBF
  let tables := tables.fill 0xf1 0xf3 4 0x80 0xBF
  tables.fill 0xf4 0xf4 4 0x80 0x8F

/-- `_UTF8_range` -/
def range : List Nat := [0, 0x00000000, 0x00000080, 0x00000800, 0x00010000, 0x00110000]

/-- `_UTF8_findlen` -/
def findlen (v : WChar) : Int :=
  match [1, 2, 3, 4].find?
      (fun i => v.toNat ≥ range.getD i 0 && v.toNat < range.getD (i + 1) 0) with
  | some i => i
  | none => -1

/-- `_UTF8_surrogate` -/
def surrogate (wc : WChar) : Bool := wc.toInt ≥ 0xd800 && wc.toInt ≤ 0xdfff

/-- `_UTF8State`: the bytes of an unfinished character, `chlen` of them. -/
abbrev State := List UInt8

/-- What a call of `mbrtowc_priv` gives: a character with `nresult` and the bytes behind it, a
restart after all bytes were taken, or `EILSEQ` with the bytes behind the cursor.
-/
inductive Result where
  | char (wc : WChar) (nresult : Nat) (rest : List UInt8)
  | restart (state : State)
  | ilseq (rest : List UInt8)
deriving DecidableEq, Repr

/-- The bytes of a character put together. -/
def assemble (c : Nat) : List UInt8 → WChar
  | [] => 0
  | lead :: rest =>
      rest.foldl (fun wchar byte => (wchar <<< 6) ||| BitVec.ofNat 32 (byte.toNat &&& 0x3f))
        (BitVec.ofNat 32 (lead.toNat &&& (0x7f >>> c)))

/-- The end of `mbrtowc_priv`; `start` is where the call began. -/
def accept (start : List UInt8) (wchar : WChar) (s0 : List UInt8) : Result :=
  .char wchar (if wchar = 0 then 0 else start.length - s0.length) s0

/-- The `while` loop of `mbrtowc_priv` and what follows it. -/
def collect (start : List UInt8) (c : Nat) : List UInt8 → State → Result
  | [], ch =>
      if ch.length < c then
        .restart ch
      else
        accept start (assemble c ch) []
  | byte :: s0, ch =>
      if ch.length < c then
        if byte.toNat &&& 0xc0 ≠ 0x80 then
          .ilseq (byte :: s0)
        else
          collect start c s0 (ch ++ [byte])
      else
        accept start (assemble c ch) (byte :: s0)

/-- Whether there is a second byte and it is outside of the range its lead byte allows. -/
def badByte2 (lead : Nat) : List UInt8 → Bool
  | [] => false
  | byte :: _ => (tables.byte2 lead).low > byte.toNat || (tables.byte2 lead).high < byte.toNat

/-- `mbrtowc_priv` once the lead byte is in the buffer. -/
def decode (start s0 : List UInt8) (ch : State) : Result :=
  let lead := (ch.headD 0).toNat
  let c := tables.count lead
  if c < 1 ∨ c < ch.length then
    .ilseq s0
  else if c = 1 then
    accept start (BitVec.ofNat 32 lead) s0
  else if ch.length = 1 ∧ badByte2 lead s0 then
    .ilseq s0
  else
    collect start c s0 ch

/-- `_citrus_UTF8_mbrtowc_priv` on the bytes of one piece, `n` of them. -/
def mbrtowcPriv (s : List UInt8) (state : State) : Result :=
  match state, s with
  | [], [] => .restart []
  | [], byte :: s0 => decode s s0 [byte]
  | ch, s0 => decode s s0 ch

/-- The errors of the encoder. -/
inductive EncodeError where
  | eilseq
  | e2big
deriving DecidableEq, Repr

/-- The loop of `wcrtomb_priv` from the last byte down to the second: the bytes behind the
first one and what is left of the code point.
-/
def trailers : Nat → WChar → List UInt8 → List UInt8 × WChar
  | 0, c, written => (written, c)
  | i + 1, c, written =>
      trailers i (c.sshiftRight 6) (UInt8.ofNat (0x80 ||| (c.toNat &&& 0x3f)) :: written)

/-- `_citrus_UTF8_wcrtomb_priv` with room for `n` bytes; `nresult` is the length of the
result.
-/
def wcrtombPriv (n : Nat) (wc : WChar) : Except EncodeError (List UInt8) :=
  if surrogate wc then
    .error .eilseq
  else
    let cnt := findlen wc
    if cnt ≤ 0 ∨ cnt > 4 then
      .error .eilseq
    else if (n : Int) < cnt then
      .error .e2big
    else
      let (rest, c) := trailers (cnt.toNat - 1) wc []
      let lead :=
        if cnt = 1 then
          c.toNat &&& 0x7f
        else
          (c.toNat &&& (0x7f >>> cnt.toNat)) ||| ((0xff00 >>> cnt.toNat) &&& 0xff)
      .ok (UInt8.ofNat lead :: rest)

/-- The characters of one piece by successive calls, until the piece is used up or refused. -/
def feed : Nat → List UInt8 → State → Option (Transducer.Outcome WChar State)
  | 0, _, _ => none
  | calls + 1, s, state =>
      match mbrtowcPriv s state with
      | .char wc _ rest => do
          let (wcs, ending) ← feed calls rest []
          some (wc :: wcs, ending.shift (s.length - rest.length))
      | .restart state => some ([], .stands state)
      | .ilseq rest => some ([], .rejected (s.length - rest.length))

/-- The characters of a sequence cut into pieces, with the state carried from one piece to the
next. A piece has at most one character a byte, and a last call finds it used up.
-/
def feedAll : List (List UInt8) → State → Option (Transducer.Outcome WChar State)
  | [], state => some ([], .stands state)
  | piece :: pieces, state => do
      let (wcs, ending) ← feed (piece.length + 1) piece state
      match ending with
      | .rejected position => some (wcs, .rejected position)
      | .stands state =>
          let (more, ending) ← feedAll pieces state
          some (wcs ++ more, ending.shift piece.length)

end BSDLibC.Utf8
