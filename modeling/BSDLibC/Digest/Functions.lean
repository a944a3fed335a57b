import Mathlib
import BSDLibC.Digest.Blocks

/-! MD4, MD5, SHA-1 and RIPEMD-160: `md4c.c`, `md5c.c`, `sha1.c` and `rmd160.c`, and the keyed digests
of `hmac.c`. An input is the bytes that its length, an `unsigned int`, counts. The position in the input
that a loop over whole blocks counts is one too; an access outside of a buffer or of the input has no
result.
-/

namespace BSDLibC.Digest

/-- The buffer of a context -/
@[ext]
structure Buffer (size : Nat) where
  val : List UInt8
  whole : val.length = size

def Buffer.zeros (size : Nat) : Buffer size := ⟨List.replicate size 0, List.length_replicate⟩

/-- `memcpy(&buffer[idx], bytes, ...)` -/
def Buffer.copy {size : Nat} (buffer : Buffer size) (idx : Nat) (bytes : List UInt8)
    : Option (Buffer size) :=
  if room : idx + bytes.length ≤ size then
    some ⟨buffer.val.take idx ++ bytes ++ buffer.val.drop (idx + bytes.length), by
      have whole := buffer.whole
      simp only [List.length_append, List.length_take, List.length_drop]
      omega⟩
  else
    none

/-- `for (; more(i); i += 64) transform(state, &input[i])`; the first argument bounds its rounds. -/
def transformBlocks {σ : Type} (transform : σ → List UInt8 → σ) (more : UInt32 → UInt32 → Bool)
    (input : List UInt8)
    : Nat → σ → UInt32 → Option (σ × UInt32)
  | 0, _, _ => none
  | rounds + 1, state, i =>
      if more i input.length.toUInt32 then
        if i.toNat + 64 ≤ input.length then
          transformBlocks transform more input rounds (transform state ((input.drop i.toNat).take 64))
            (i + 64)
        else
          none
      else
        some (state, i)

def ROTATE_LEFT (x n : UInt32) : UInt32 := (x <<< n) ||| (x >>> (32 - n))

/-- `PADDING` -/
def PADDING : List UInt8 := 0x80 :: List.replicate 63 0

/-- `Encode`, of one word -/
def encodeWord (word : UInt32) : List UInt8 :=
  [(word &&& 0xff).toUInt8, ((word >>> 8) &&& 0xff).toUInt8, ((word >>> 16) &&& 0xff).toUInt8,
    ((word >>> 24) &&& 0xff).toUInt8]

/-- `Decode` -/
def decodeWords : List UInt8 → List UInt32
  | b0 :: b1 :: b2 :: b3 :: rest =>
      (b0.toUInt32 ||| (b1.toUInt32 <<< 8) ||| (b2.toUInt32 <<< 16) ||| (b3.toUInt32 <<< 24))
        :: decodeWords rest
  | _ => []

-----------------------------------------------------------------------------------------
-- MD4 and MD5
-----------------------------------------------------------------------------------------

/-- `state` of `MD4_CTX` and `MD5_CTX`, and the variables of the transformation -/
structure Words4 where
  a : UInt32
  b : UInt32
  c : UInt32
  d : UInt32
deriving DecidableEq, Repr

/-- `MD4_CTX` and `MD5_CTX` -/
structure MD_CTX where
  state : Words4
  count0 : UInt32
  count1 : UInt32
  buffer : Buffer 64

/-- A step of `FF`, `GG` or `HH` of MD4 with its basic function and constant, and the variables in the
order of the next step.
-/
def md4Step (f : UInt32 → UInt32 → UInt32 → UInt32) (ac : UInt32) (x : List UInt32) (v : Words4)
    (step : Nat × UInt32)
    : Words4 :=
  let (k, s) := step
  ⟨v.d, ROTATE_LEFT (v.a + (f v.b v.c v.d + x.getD k 0 + ac)) s, v.b, v.c⟩

def md4Round1 : List (Nat × UInt32) :=
  [(0, 3), (1, 7), (2, 11), (3, 19), (4, 3), (5, 7), (6, 11), (7, 19), (8, 3), (9, 7), (10, 11), (11, 19),
    (12, 3), (13, 7), (14, 11), (15, 19)]

def md4Round2 : List (Nat × UInt32) :=
  [(0, 3), (4, 5), (8, 9), (12, 13), (1, 3), (5, 5), (9, 9), (13, 13), (2, 3), (6, 5), (10, 9), (14, 13),
    (3, 3), (7, 5), (11, 9), (15, 13)]

def md4Round3 : List (Nat × UInt32) :=
  [(0, 3), (8, 9), (4, 11), (12, 15), (2, 3), (10, 9), (6, 11), (14, 15), (1, 3), (9, 9), (5, 11), (13, 15),
    (3, 3), (11, 9), (7, 11), (15, 15)]

/-- `MD4Transform` -/
def md4Transform (state : Words4) (block : List UInt8) : Words4 :=
  let x := decodeWords block
  let v := md4Round1.foldl (md4Step (fun x y z => (x &&& y) ||| (~~~x &&& z)) 0 x) state
  let v := md4Round2.foldl (md4Step (fun x y z => (x &&& y) ||| (x &&& z) ||| (y &&& z)) 0x5a827999 x) v
  let v := md4Round3.foldl (md4Step (fun x y z => x ^^^ y ^^^ z) 0x6ed9eba1 x) v
  ⟨state.a + v.a, state.b + v.b, state.c + v.c, state.d + v.d⟩

/-- `FF`, `GG`, `HH` or `II` of MD5 with its basic function, and the variables in the order of the next
step.
-/
def md5Step (f : UInt32 → UInt32 → UInt32 → UInt32) (x : List UInt32) (v : Words4)
    (step : Nat × UInt32 × UInt32)
    : Words4 :=
  let (k, s, ac) := step
  ⟨v.d, ROTATE_LEFT (v.a + (f v.b v.c v.d + x.getD k 0 + ac)) s + v.b, v.b, v.c⟩

def md5Round1 : List (Nat × UInt32 × UInt32) :=
  [(0, 7, 0xd76aa478), (1, 12, 0xe8c7b756), (2, 17, 0x242070db), (3, 22, 0xc1bdceee),
    (4, 7, 0xf57c0faf), (5, 12, 0x4787c62a), (6, 17, 0xa8304613), (7, 22, 0xfd469501),
    (8, 7, 0x698098d8), (9, 12, 0x8b44f7af), (10, 17, 0xffff5bb1), (11, 22, 0x895cd7be),
    (12, 7, 0x6b901122), (13, 12, 0xfd987193), (14, 17, 0xa679438e), (15, 22, 0x49b40821)]

def md5Round2 : List (Nat × UInt32 × UInt32) :=
  [(1, 5, 0xf61e2562), (6, 9, 0xc040b340), (11, 14, 0x265e5a51), (0, 20, 0xe9b6c7aa),
    (5, 5, 0xd62f105d), (10, 9, 0x2441453), (15, 14, 0xd8a1e681), (4, 20, 0xe7d3fbc8),
    (9, 5, 0x21e1cde6), (14, 9, 0xc33707d6), (3, 14, 0xf4d50d87), (8, 20, 0x455a14ed),
    (13, 5, 0xa9e3e905), (2, 9, 0xfcefa3f8), (7, 14, 0x676f02d9), (12, 20, 0x8d2a4c8a)]

def md5Round3 : List (Nat × UInt32 × UInt32) :=
  [(5, 4, 0xfffa3942), (8, 11, 0x8771f681), (11, 16, 0x6d9d6122), (14, 23, 0xfde5380c),
    (1, 4, 0xa4beea44), (4, 11, 0x4bdecfa9), (7, 16, 0xf6bb4b60), (10, 23, 0xbebfbc70),
    (13, 4, 0x289b7ec6), (0, 11, 0xeaa127fa), (3, 16, 0xd4ef3085), (6, 23, 0x4881d05),
    (9, 4, 0xd9d4d039), (12, 11, 0xe6db99e5), (15, 16, 0x1fa27cf8), (2, 23, 0xc4ac5665)]

def md5Round4 : List (Nat × UInt32 × UInt32) :=
  [(0, 6, 0xf4292244), (7, 10, 0x432aff97), (14, 15, 0xab9423a7), (5, 21, 0xfc93a039),
    (12, 6, 0x655b59c3), (3, 10, 0x8f0ccc92), (10, 15, 0xffeff47d), (1, 21, 0x85845dd1),
    (8, 6, 0x6fa87e4f), (15, 10, 0xfe2ce6e0), (6, 15, 0xa3014314), (13, 21, 0x4e0811a1),
    (4, 6, 0xf7537e82), (11, 10, 0xbd3af235), (2, 15, 0x2ad7d2bb), (9, 21, 0xeb86d391)]

/-- `MD5Transform` -/
def md5Transform (state : Words4) (block : List UInt8) : Words4 :=
  let x := decodeWords block
  let v := md5Round1.foldl (md5Step (fun x y z => (x &&& y) ||| (~~~x &&& z)) x) state
  let v := md5Round2.foldl (md5Step (fun x y z => (x &&& z) ||| (y &&& ~~~z)) x) v
  let v := md5Round3.foldl (md5Step (fun x y z => x ^^^ y ^^^ z) x) v
  let v := md5Round4.foldl (md5Step (fun x y z => y ^^^ (x ||| ~~~z)) x) v
  ⟨state.a + v.a, state.b + v.b, state.c + v.c, state.d + v.d⟩

def mdIv : Words4 := ⟨0x67452301, 0xefcdab89, 0x98badcfe, 0x10325476⟩

/-- `MD4Init` and `MD5Init` -/
def mdInit (context : MD_CTX) : MD_CTX := { context with state := mdIv, count0 := 0, count1 := 0 }

section

variable (transform : Words4 → List UInt8 → Words4)

/-- `MD4Update` and `MD5Update`, which differ in their transformations. -/
def mdUpdate (context : MD_CTX) (input : List UInt8) : Option MD_CTX := do
  let inputLen := input.length.toUInt32
  let idx := (context.count0 >>> 3) &&& 0x3f
  let count0 := context.count0 + (inputLen <<< 3)
  let count1 := if count0 < inputLen <<< 3 then context.count1 + 1 else context.count1
  let count1 := count1 + (inputLen >>> 29)
  let partLen := 64 - idx
  if inputLen ≥ partLen then
    let buffer ← context.buffer.copy idx.toNat (input.take partLen.toNat)
    let state := transform context.state buffer.val
    let (state, i) ← transformBlocks transform (fun i len => i + 63 < len) input (input.length + 1) state
      partLen
    return ⟨state, count0, count1, ← buffer.copy 0 (input.drop i.toNat)⟩
  else
    return ⟨context.state, count0, count1, ← context.buffer.copy idx.toNat input⟩

def encodeWords4 (state : Words4) : List UInt8 :=
  encodeWord state.a ++ encodeWord state.b ++ encodeWord state.c ++ encodeWord state.d

/-- `MD4Final` and `MD5Final`, with the context that they leave. -/
def mdFinal (context : MD_CTX) : Option (List UInt8 × MD_CTX) := do
  let bits := encodeWord context.count0 ++ encodeWord context.count1
  let idx := (context.count0 >>> 3) &&& 0x3f
  let padLen := if idx < 56 then 56 - idx else 120 - idx
  let context ← mdUpdate transform context (PADDING.take padLen.toNat)
  let context ← mdUpdate transform context bits
  return (encodeWords4 context.state, ⟨⟨0, 0, 0, 0⟩, 0, 0, Buffer.zeros 64⟩)

end

def md4Update : MD_CTX → List UInt8 → Option MD_CTX := mdUpdate md4Transform

def md4Final : MD_CTX → Option (List UInt8 × MD_CTX) := mdFinal md4Transform

def md5Update : MD_CTX → List UInt8 → Option MD_CTX := mdUpdate md5Transform

def md5Final : MD_CTX → Option (List UInt8 × MD_CTX) := mdFinal md5Transform

-----------------------------------------------------------------------------------------
-- SHA-1
-----------------------------------------------------------------------------------------

/-- `state` of `SHA1_CTX` and `RMD160_CTX`, and the variables of the transformation -/
structure Words5 where
  a : UInt32
  b : UInt32
  c : UInt32
  d : UInt32
  e : UInt32
deriving DecidableEq, Repr

/-- `SHA1_CTX` -/
structure SHA1_CTX where
  state : Words5
  count0 : UInt32
  count1 : UInt32
  buffer : Buffer 64

/-- The words of a block, the highest byte first: `blk0` in either order of the machine. -/
def blk0 : List UInt8 → List UInt32
  | b0 :: b1 :: b2 :: b3 :: rest =>
      ((b0.toUInt32 <<< 24) ||| (b1.toUInt32 <<< 16) ||| (b2.toUInt32 <<< 8) ||| b3.toUInt32) :: blk0 rest
  | _ => []

/-- `blk`, from the sixteenth step on -/
def blk (l : List UInt32) (i : Nat) : List UInt32 :=
  l.set (i % 16) (ROTATE_LEFT (l.getD ((i + 13) % 16) 0 ^^^ l.getD ((i + 8) % 16) 0
    ^^^ l.getD ((i + 2) % 16) 0 ^^^ l.getD (i % 16) 0) 1)

/-- The functions and constants of `R0` to `R4` -/
def sha1Round (i : Nat) (w x y : UInt32) : UInt32 :=
  if i < 20 then ((w &&& (x ^^^ y)) ^^^ y) + 0x5A827999
  else if i < 40 then (w ^^^ x ^^^ y) + 0x6ED9EBA1
  else if i < 60 then (((w ||| x) &&& y) ||| (w &&& x)) + 0x8F1BBCDC
  else (w ^^^ x ^^^ y) + 0xCA62C1D6

/-- A step with its place in the block, and the variables in the order of the next step. -/
def sha1Step (p : Words5 × List UInt32) (i : Nat) : Words5 × List UInt32 :=
  let (v, l) := p
  let l := if i < 16 then l else blk l i
  (⟨v.e + (sha1Round i v.b v.c v.d + l.getD (i % 16) 0 + ROTATE_LEFT v.a 5), v.a, ROTATE_LEFT v.b 30, v.c,
    v.d⟩, l)

/-- `SHA1Transform`, which works on a copy of the block. -/
def sha1Transform (state : Words5) (buffer : List UInt8) : Words5 :=
  let (v, _) := (List.range 80).foldl sha1Step (state, blk0 buffer)
  ⟨state.a + v.a, state.b + v.b, state.c + v.c, state.d + v.d, state.e + v.e⟩

def sha1Iv : Words5 := ⟨0x67452301, 0xEFCDAB89, 0x98BADCFE, 0x10325476, 0xC3D2E1F0⟩

/-- `SHA1Init` -/
def sha1Init (context : SHA1_CTX) : SHA1_CTX := { context with state := sha1Iv, count0 := 0, count1 := 0 }

/-- `SHA1Update` -/
def sha1Update (context : SHA1_CTX) (data : List UInt8) : Option SHA1_CTX := do
  let len := data.length.toUInt32
  let j := context.count0
  let count0 := context.count0 + (len <<< 3)
  let count1 := if count0 < j then context.count1 + ((len >>> 29) + 1) else context.count1
  let j := (j >>> 3) &&& 63
  if j + len > 63 then
    let i := 64 - j
    let buffer ← context.buffer.copy j.toNat (data.take i.toNat)
    let state := sha1Transform context.state buffer.val
    let (state, i) ← transformBlocks sha1Transform (fun i len => i + 63 < len) data (data.length + 1) state
      i
    return ⟨state, count0, count1, ← buffer.copy 0 (data.drop i.toNat)⟩
  else
    return ⟨context.state, count0, count1, ← context.buffer.copy j.toNat data⟩

/-- The bytes of a word, the highest first. -/
def encodeWordBe (word : UInt32) : List UInt8 := (encodeWord word).reverse

/-- `while ((context->count[0] & 504) != 448)` -/
def sha1Pad : Nat → SHA1_CTX → Option SHA1_CTX
  | 0, _ => none
  | rounds + 1, context =>
      if context.count0 &&& 504 ≠ 448 then do
        sha1Pad rounds (← sha1Update context [0])
      else
        some context

def encodeWords5 (encode : UInt32 → List UInt8) (state : Words5) : List UInt8 :=
  encode state.a ++ encode state.b ++ encode state.c ++ encode state.d ++ encode state.e

/-- `SHA1Final`, with the context that it leaves. -/
def sha1Final (context : SHA1_CTX) : Option (List UInt8 × SHA1_CTX) := do
  let finalcount := encodeWordBe context.count1 ++ encodeWordBe context.count0
  let context ← sha1Update context [0x80]
  let context ← sha1Pad 64 context
  let context ← sha1Update context finalcount
  return (encodeWords5 encodeWordBe context.state, ⟨⟨0, 0, 0, 0, 0⟩, 0, 0, Buffer.zeros 64⟩)

-----------------------------------------------------------------------------------------
-- RIPEMD-160
-----------------------------------------------------------------------------------------

/-- `RMD160_CTX` -/
structure RMD160_CTX where
  state : Words5
  count : UInt64
  buffer : Buffer 64

def F0 (x y z : UInt32) : UInt32 := x ^^^ y ^^^ z
def F1 (x y z : UInt32) : UInt32 := (x &&& y) ||| (~~~x &&& z)
def F2 (x y z : UInt32) : UInt32 := (x ||| ~~~y) ^^^ z
def F3 (x y z : UInt32) : UInt32 := (x &&& z) ||| (y &&& ~~~z)
def F4 (x y z : UInt32) : UInt32 := x ^^^ (y ||| ~~~z)

/-- The five rounds: the function, the constant, and the rotation and the word of each step. -/
def rmd160Rounds : List ((UInt32 → UInt32 → UInt32 → UInt32) × UInt32 × List (UInt32 × Nat)) :=
  [(F0, 0x00000000,
      [(11, 0), (14, 1), (15, 2), (12, 3), (5, 4), (8, 5), (7, 6), (9, 7), (11, 8), (13, 9), (14, 10),
       (15, 11), (6, 12), (7, 13), (9, 14), (8, 15)]),
    (F1, 0x5A827999,
      [(7, 7), (6, 4), (8, 13), (13, 1), (11, 10), (9, 6), (7, 15), (15, 3), (7, 12), (12, 0), (15, 9),
       (9, 5), (11, 2), (7, 14), (13, 11), (12, 8)]),
    (F2, 0x6ED9EBA1,
      [(11, 3), (13, 10), (6, 14), (7, 4), (14, 9), (9, 15), (13, 8), (15, 1), (14, 2), (8, 7), (13, 0),
       (6, 6), (5, 13), (12, 11), (7, 5), (5, 12)]),
    (F3, 0x8F1BBCDC,
      [(11, 1), (12, 9), (14, 11), (15, 10), (14, 0), (15, 8), (9, 12), (8, 4), (9, 13), (14, 3),
       (5, 7), (6, 15), (8, 14), (6, 5), (5, 6), (12, 2)]),
    (F4, 0xA953FD4E,
      [(9, 4), (15, 0), (5, 5), (11, 9), (6, 7), (8, 12), (13, 2), (12, 10), (5, 14), (12, 1), (13, 3),
       (14, 8), (11, 11), (8, 6), (5, 15), (6, 13)])]

/-- The five rounds beside them. -/
def rmd160ParallelRounds : List ((UInt32 → UInt32 → UInt32 → UInt32) × UInt32 × List (UInt32 × Nat)) :=
  [(F4, 0x50A28BE6,
      [(8, 5), (9, 14), (9, 7), (11, 0), (13, 9), (15, 2), (15, 11), (5, 4), (7, 13), (7, 6), (8, 15),
       (11, 8), (14, 1), (14, 10), (12, 3), (6, 12)]),
    (F3, 0x5C4DD124,
      [(9, 6), (13, 11), (15, 3), (7, 7), (12, 0), (8, 13), (9, 5), (11, 10), (7, 14), (7, 15), (12, 8),
       (7, 12), (6, 4), (15, 9), (13, 1), (11, 2)]),
    (F2, 0x6D703EF3,
      [(9, 15), (7, 5), (15, 1), (11, 3), (8, 7), (6, 14), (6, 6), (14, 9), (12, 11), (13, 8), (5, 12),
       (14, 2), (13, 10), (13, 0), (7, 4), (5, 13)]),
    (F1, 0x7A6D76E9,
      [(15, 8), (5, 6), (8, 4), (11, 1), (14, 3), (14, 11), (6, 15), (14, 0), (6, 5), (9, 12), (12, 2),
       (9, 13), (12, 9), (5, 7), (15, 10), (8, 14)]),
    (F0, 0x00000000,
      [(8, 12), (5, 15), (12, 10), (9, 4), (12, 1), (5, 5), (14, 8), (6, 7), (8, 6), (13, 2), (6, 13),
       (5, 14), (15, 0), (13, 3), (11, 9), (11, 11)])]

/-- `R`, and the variables in the order of the next step. -/
def rmd160Step (f : UInt32 → UInt32 → UInt32 → UInt32) (k : UInt32) (x : List UInt32) (v : Words5)
    (step : UInt32 × Nat)
    : Words5 :=
  let (s, r) := step
  ⟨v.e, ROTATE_LEFT (v.a + f v.b v.c v.d + x.getD r 0 + k) s + v.e, v.b, ROTATE_LEFT v.c 10, v.d⟩

def rmd160Line (rounds : List ((UInt32 → UInt32 → UInt32 → UInt32) × UInt32 × List (UInt32 × Nat)))
    (x : List UInt32) (state : Words5)
    : Words5 :=
  rounds.foldl (fun v round => round.2.2.foldl (rmd160Step round.1 round.2.1 x) v) state

/-- `RMD160Transform` -/
def rmd160Transform (state : Words5) (block : List UInt8) : Words5 :=
  let x := decodeWords block
  let v := rmd160Line rmd160Rounds x state
  let w := rmd160Line rmd160ParallelRounds x state
  ⟨state.b + v.c + w.d, state.c + v.d + w.e, state.d + v.e + w.a, state.e + v.a + w.b, state.a + v.b + w.c⟩

/-- `H0` to `H4` -/
def rmd160Iv : Words5 := ⟨0x67452301, 0xEFCDAB89, 0x98BADCFE, 0x10325476, 0xC3D2E1F0⟩

/-- `RMD160Init` -/
def rmd160Init (ctx : RMD160_CTX) : RMD160_CTX := { ctx with state := rmd160Iv, count := 0 }

/-- The last lines of `RMD160Update` -/
def rmd160Save (buffer : Buffer 64) (have_ off : UInt32) (input : List UInt8) : Option (Buffer 64) :=
  if off < input.length.toUInt32 then buffer.copy have_.toNat (input.drop off.toNat) else some buffer

/-- `RMD160Update`; its `8 * len` is an `unsigned int`. -/
def rmd160Update (ctx : RMD160_CTX) (input : List UInt8) : Option RMD160_CTX := do
  let len := input.length.toUInt32
  let have_ := (ctx.count / 8 % 64).toUInt32
  let need := 64 - have_
  let count := ctx.count + (8 * len).toUInt64
  if len ≥ need then
    let (buffer, state, off) ←
      if have_ ≠ 0 then do
        let buffer ← ctx.buffer.copy have_.toNat (input.take need.toNat)
        pure (buffer, rmd160Transform ctx.state buffer.val, need)
      else
        pure (ctx.buffer, ctx.state, 0)
    let (state, off) ← transformBlocks rmd160Transform (fun off len => off + 64 ≤ len) input
      (input.length + 1) state off
    return ⟨state, count, ← rmd160Save buffer 0 off input⟩
  else
    return ⟨ctx.state, count, ← rmd160Save ctx.buffer have_ 0 input⟩

/-- `PUT_64BIT_LE` -/
def put64BitLe (value : UInt64) : List UInt8 :=
  encodeWord value.toUInt32 ++ encodeWord (value >>> 32).toUInt32

/-- `RMD160Final`, with the context that it leaves. -/
def rmd160Final (ctx : RMD160_CTX) : Option (List UInt8 × RMD160_CTX) := do
  let size := put64BitLe ctx.count
  let padlen := (64 - ctx.count / 8 % 64).toUInt32
  let padlen := if padlen < 1 + 8 then padlen + 64 else padlen
  let ctx ← rmd160Update ctx (PADDING.take (padlen - 8).toNat)
  let ctx ← rmd160Update ctx size
  return (encodeWords5 encodeWord ctx.state, ⟨⟨0, 0, 0, 0, 0⟩, 0, Buffer.zeros 64⟩)

-----------------------------------------------------------------------------------------
-- Keyed digests
-----------------------------------------------------------------------------------------

/-- `struct hmac`, with the contexts of its functions. -/
structure Hmac where
  Ctx : Type
  digsize : Nat
  blocksize : Nat
  init : Ctx → Ctx
  update : Ctx → List UInt8 → Option Ctx
  final : Ctx → Option (List UInt8 × Ctx)

def md4Entry : Hmac := ⟨MD_CTX, 16, 64, mdInit, md4Update, md4Final⟩

def md5Entry : Hmac := ⟨MD_CTX, 16, 64, mdInit, md5Update, md5Final⟩

def rmd160Entry : Hmac := ⟨RMD160_CTX, 20, 64, rmd160Init, rmd160Update, rmd160Final⟩

def sha1Entry : Hmac := ⟨SHA1_CTX, 20, 64, sha1Init, sha1Update, sha1Final⟩

/-- `HMAC_SIZE` -/
def HMAC_SIZE : Nat := 128

/-- The bytes that a length, cast to `unsigned int`, counts. -/
def counted (bytes : List UInt8) : List UInt8 := bytes.take (bytes.length % 2 ^ 32)

/-- Bytes at the front of a memory -/
def store (memory bytes : List UInt8) : Option (List UInt8) :=
  if bytes.length ≤ memory.length then some (bytes ++ memory.drop bytes.length) else none

/-- `ipad` or `opad` -/
def pad (k : List UInt8) (x : UInt8) : List UInt8 :=
  (List.range HMAC_SIZE).map fun i => (if i < k.length then k.getD i 0 else 0) ^^^ x

/-- Bytes at `p`, which is the caller's buffer or `d`. -/
def storeAt (own : Bool) (bytes : List UInt8) (memory : List UInt8 × List UInt8)
    : Option (List UInt8 × List UInt8) :=
  if own then
    (store memory.1 bytes).map fun digest => (digest, memory.2)
  else
    (store memory.2 bytes).map fun d => (memory.1, d)

section

variable (h : Hmac)

/-- The key, or its digest in `d` where it is longer than a block, with `d` and the context. -/
def hmacKey (c : h.Ctx) (d key : List UInt8) : Option (List UInt8 × List UInt8 × h.Ctx) :=
  if key.length > h.blocksize then do
    let c ← h.update (h.init c) (counted key)
    let (out, c) ← h.final c
    let d ← store d out
    return (d.take h.digsize, d, c)
  else
    return (key, d, c)

/-- `hmac`, with the entry that it found. `c` and `d` are what its local variables held; `digest` is the
memory from the caller's buffer on, of which the caller says that `dlen` bytes are its own.
-/
def hmac (c : h.Ctx) (d key text digest : List UInt8) (dlen : Nat) : Option (List UInt8 × Nat) := do
  let (k, d, c) ← hmacKey h c d key
  let own := decide (dlen ≥ h.digsize)
  let memory ← (if own then some (digest, d)
    else storeAt own (digest.take dlen ++ List.replicate (h.digsize - dlen) 0) (digest, d))
  let c ← h.update (h.init c) ((pad k 0x36).take h.blocksize)
  let c ← h.update c (counted text)
  let (out, c) ← h.final c
  let memory ← storeAt own out memory
  let c ← h.update (h.init c) ((pad k 0x5C).take h.blocksize)
  let c ← (if h.digsize ≤ memory.1.length then h.update c (memory.1.take h.digsize) else none)
  let (out, _) ← h.final c
  let memory ← storeAt own out memory
  let digest ← (if own then some memory.1 else store memory.1 (memory.2.take dlen))
  return (digest, h.digsize)

end

end BSDLibC.Digest
