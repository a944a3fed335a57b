import BSDLibC.Bytes.Endian
import Mathlib.Data.List.GetD

/-! `mi_vector_hash` reads a key by words when it is aligned and by bytes when it is not. Both
ways lead to the hash of the same bytes, and neither reads a byte that the key does not call for.
-/

namespace BSDLibC.MiVectorHash
open BSDLibC.Bytes

/-- Memory, as far as it can be read. -/
abbrev Memory := Nat → Option UInt8

/-- `le16dec` -/
def le16dec (mem : Memory) (p : Nat) : Option (BitVec 16) := do
  let p0 ← mem p
  let p1 ← mem (p + 1)
  return p0.toBitVec.setWidth 16 ||| p1.toBitVec.setWidth 16 <<< 8

/-- `le32dec` -/
def le32dec (mem : Memory) (p : Nat) : Option (BitVec 32) := do
  let low ← le16dec mem p
  let high ← le16dec mem (p + 2)
  return low.setWidth 32 ||| high.setWidth 32 <<< 16

/-- The number that a few bytes stand for. -/
def word (bytes : List UInt8) : BitVec 32 := BitVec.ofNat 32 (leValue bytes)

/-- `le32toh` of the aligned word at an address, which is one access. -/
def key32 (mem : Memory) (p : Nat) : Option (BitVec 32) := do
  let p0 ← mem p
  let p1 ← mem (p + 1)
  let p2 ← mem (p + 2)
  let p3 ← mem (p + 3)
  return word [p0, p1, p2, p3]

/-- The variables `a`, `b` and `c`. -/
structure Mix where
  a : BitVec 32
  b : BitVec 32
  c : BitVec 32

def mix (s : Mix) : Mix :=
  let a := (s.a - s.b - s.c) ^^^ (s.c >>> 13)
  let b := (s.b - s.c - a) ^^^ (a <<< 8)
  let c := (s.c - a - b) ^^^ (b >>> 13)
  let a := (a - b - c) ^^^ (c >>> 12)
  let b := (b - c - a) ^^^ (a <<< 16)
  let c := (c - a - b) ^^^ (b >>> 5)
  let a := (a - b - c) ^^^ (c >>> 3)
  let b := (b - c - a) ^^^ (a <<< 10)
  let c := (c - a - b) ^^^ (b >>> 15)
  { a := a, b := b, c := c }

def fixedSeed : BitVec 32 := 0x9e3779b9

/-- The loop over blocks of 12 bytes, with what is left of the key. -/
def blocks (read : Nat → Option (BitVec 32)) (k len : Nat) (s : Mix)
    : Option (Nat × Nat × Mix) :=
  if len ≥ 12 then do
    let a ← read k
    let b ← read (k + 4)
    let c ← read (k + 8)
    blocks read (k + 12) (len - 12) (mix { a := s.a + a, b := s.b + b, c := s.c + c })
  else
    some (k, len, s)
termination_by len

/-- `case n: x += (uint32_t)*place << shift;`, reached from every label above it too. -/
def caseOf (mem : Memory) (len n place shift : Nat) (x : BitVec 32) : Option (BitVec 32) :=
  if n ≤ len then do
    let byte ← mem place
    return x + byte.toBitVec.setWidth 32 <<< shift
  else
    some x

/-- The three switches for the last bytes of an unaligned key. -/
def unalignedTail (mem : Memory) (k len : Nat) (origLen : BitVec 32) (s : Mix) : Option Mix := do
  let c := s.c + origLen
  if len > 8 then
    let c ← caseOf mem len 11 (k + 10) 24 c
    let c ← caseOf mem len 10 (k + 9) 16 c
    let c ← caseOf mem len 9 (k + 8) 8 c
    let b ← le32dec mem (k + 4)
    let a ← le32dec mem k
    return { a := s.a + a, b := s.b + b, c := c }
  else if len > 4 then
    let b ← caseOf mem len 8 (k + 7) 24 s.b
    let b ← caseOf mem len 7 (k + 6) 16 b
    let b ← caseOf mem len 6 (k + 5) 8 b
    let b ← caseOf mem len 5 (k + 4) 0 b
    let a ← le32dec mem k
    return { a := s.a + a, b := b, c := c }
  else if len ≠ 0 then
    let a ← caseOf mem len 4 (k + 3) 24 s.a
    let a ← caseOf mem len 3 (k + 2) 16 a
    let a ← caseOf mem len 2 (k + 1) 8 a
    let a ← caseOf mem len 1 k 0 a
    return { a := a, b := s.b, c := c }
  else
    return { a := s.a, b := s.b, c := c }

def mask : List (BitVec 32) := [0x000000ff, 0x0000ffff, 0x00ffffff, 0xffffffff]

/-- The last words of an aligned key, from which `mask` cuts what lies behind it. -/
def alignedTail (mem : Memory) (k len : Nat) (origLen : BitVec 32) (s : Mix) : Option Mix := do
  let c := s.c + origLen
  if len > 8 then
    let last ← key32 mem (k + 8)
    let cut ← mask[len - 9]?
    let b ← key32 mem (k + 4)
    let a ← key32 mem k
    return { a := s.a + a, b := s.b + b, c := c + (last &&& cut) <<< 8 }
  else if len > 4 then
    let last ← key32 mem (k + 4)
    let cut ← mask[len - 5]?
    let a ← key32 mem k
    return { a := s.a + a, b := s.b + (last &&& cut), c := c }
  else if len ≠ 0 then
    let last ← key32 mem k
    let cut ← mask[len - 1]?
    return { a := s.a + (last &&& cut), b := s.b, c := c }
  else
    return { a := s.a, b := s.b, c := c }

/-- What is stored in `hashes`. -/
def Mix.hashes (s : Mix) : Fin 3 → BitVec 32
  | 0 => s.a
  | 1 => s.b
  | 2 => s.c

/-- `mi_vector_hash`, or nothing when it reads outside the memory. -/
def miVectorHash (mem : Memory) (key len : Nat) (seed : BitVec 32)
    : Option (Fin 3 → BitVec 32) := do
  let origLen := BitVec.ofNat 32 len
  let start : Mix := { a := fixedSeed, b := fixedSeed, c := seed }
  let s ←
    if key &&& 3 ≠ 0 then do
      let (k, len, s) ← blocks (le32dec mem) key len start
      unalignedTail mem k len origLen s
    else do
      let (k, len, s) ← blocks (key32 mem) key len start
      alignedTail mem k len origLen s
  return (mix s).hashes

-----------------------------------------------------------------------------------------
-- Reading memory that holds a key
-----------------------------------------------------------------------------------------

/-- The bytes are in memory from an address on. -/
def Holds (mem : Memory) (addr : Nat) (bytes : List UInt8) : Prop :=
  ∀ i byte, bytes[i]? = some byte → mem (addr + i) = some byte

variable {mem : Memory} {addr : Nat} {bytes : List UInt8}

theorem Holds.drop (h : Holds mem addr bytes) (n : Nat)
    : Holds mem (addr + n) (bytes.drop n) := by
  intro i byte found
  rw [List.getElem?_drop] at found
  rw [Nat.add_assoc]
  exact h _ _ found

theorem Holds.left {more : List UInt8} (h : Holds mem addr (bytes ++ more))
    : Holds mem addr bytes := by
  intro i byte found
  refine h i byte ?_
  rwa [List.getElem?_append_left (List.getElem?_eq_some_iff.mp found).1]

theorem Holds.getElem (h : Holds mem addr bytes) {i : Nat} (inside : i < bytes.length)
    : mem (addr + i) = some bytes[i] :=
  h i _ (List.getElem?_eq_getElem inside)

/-- A list of at least four bytes shows the first four. -/
theorem exists_four (long : 4 ≤ bytes.length)
    : ∃ p0 p1 p2 p3 rest, bytes = p0 :: p1 :: p2 :: p3 :: rest := by
  match bytes, long with
  | p0 :: p1 :: p2 :: p3 :: rest, _ => exact ⟨p0, p1, p2, p3, rest, rfl⟩

theorem Holds.key32 (h : Holds mem addr bytes) (long : 4 ≤ bytes.length)
    : key32 mem addr = some (word (bytes.take 4)) := by
  obtain ⟨p0, p1, p2, p3, rest, rfl⟩ := exists_four long
  have read0 := h 0 p0 rfl
  have read1 := h 1 p1 rfl
  have read2 := h 2 p2 rfl
  have read3 := h 3 p3 rfl
  rw [Nat.add_zero] at read0
  simp [MiVectorHash.key32, read0, read1, read2, read3]

theorem or_shiftLeft (a b : UInt8)
    : (a.toBitVec.setWidth 16 ||| b.toBitVec.setWidth 16 <<< 8).toNat
      = a.toNat + 256 * b.toNat := by
  have ha := a.toNat_lt
  have hb := b.toNat_lt
  have shifted : (b.toNat <<< 8) % 2 ^ 16 = b.toNat <<< 8 :=
    Nat.mod_eq_of_lt (by rw [Nat.shiftLeft_eq]; omega)
  rw [BitVec.toNat_or, BitVec.toNat_shiftLeft, BitVec.toNat_setWidth, BitVec.toNat_setWidth,
    UInt8.toNat_toBitVec, UInt8.toNat_toBitVec, Nat.mod_eq_of_lt (by omega : a.toNat < 2 ^ 16),
    Nat.mod_eq_of_lt (by omega : b.toNat < 2 ^ 16), shifted, Nat.or_comm,
    ← Nat.shiftLeft_add_eq_or_of_lt ha, Nat.shiftLeft_eq]
  omega

theorem Holds.le32dec (h : Holds mem addr bytes) (long : 4 ≤ bytes.length)
    : le32dec mem addr = some (word (bytes.take 4)) := by
  obtain ⟨p0, p1, p2, p3, rest, rfl⟩ := exists_four long
  have read0 := h 0 p0 rfl
  have read1 := h 1 p1 rfl
  have read2 := h 2 p2 rfl
  have read3 := h 3 p3 rfl
  rw [Nat.add_zero] at read0
  simp only [MiVectorHash.le32dec, le16dec, read0, read1, read2, read3, Nat.add_assoc,
    Nat.reduceAdd, Option.bind_eq_bind, Option.bind_some, Option.pure_def, Option.some.injEq]
  refine BitVec.eq_of_toNat_eq ?_
  have low := or_shiftLeft p0 p1
  have high := or_shiftLeft p2 p3
  have h0 := p0.toNat_lt
  have h1 := p1.toNat_lt
  have h2 := p2.toNat_lt
  have h3 := p3.toNat_lt
  rw [BitVec.toNat_or, BitVec.toNat_shiftLeft, BitVec.toNat_setWidth, BitVec.toNat_setWidth, low,
    high, Nat.mod_eq_of_lt (by omega : p0.toNat + 256 * p1.toNat < 2 ^ 32),
    Nat.mod_eq_of_lt (by omega : p2.toNat + 256 * p3.toNat < 2 ^ 32), Nat.mod_eq_of_lt
      (by rw [Nat.shiftLeft_eq]; omega : (p2.toNat + 256 * p3.toNat) <<< 16 < 2 ^ 32),
    Nat.or_comm, ← Nat.shiftLeft_add_eq_or_of_lt
      (by omega : p0.toNat + 256 * p1.toNat < 2 ^ 16), Nat.shiftLeft_eq]
  simp only [List.take_succ_cons, List.take_zero, word, leValue, BitVec.toNat_ofNat]
  omega

theorem Holds.caseOf (h : Holds mem addr bytes) (i shift : Nat) (x : BitVec 32)
    : caseOf mem bytes.length (i + 1) (addr + i) shift x
      = some (x + BitVec.ofNat 32 ((bytes.getD i 0).toNat * 2 ^ shift)) := by
  rw [MiVectorHash.caseOf]
  split
  case isTrue inside =>
    rw [h.getElem inside, List.getD_eq_getElem _ _ inside]
    refine congrArg (fun added => some (x + added)) (BitVec.eq_of_toNat_eq ?_)
    rw [BitVec.toNat_shiftLeft, BitVec.toNat_setWidth, UInt8.toNat_toBitVec, BitVec.toNat_ofNat,
      Nat.shiftLeft_eq, Nat.mod_mul_mod]
  case isFalse outside =>
    rw [List.getD_eq_default _ _ (by omega)]
    simp

-----------------------------------------------------------------------------------------
-- The hash of the bytes of a key
-----------------------------------------------------------------------------------------

/-- What the variables are before the last `mix`. The last bytes count as words that have fewer
bytes, or none.
-/
def hashBytes (origLen : BitVec 32) (rest : List UInt8) (s : Mix) : Mix :=
  if 12 ≤ rest.length then
    hashBytes origLen (rest.drop 12)
      (mix
        { a := s.a + word (rest.take 4)
          b := s.b + word ((rest.drop 4).take 4)
          c := s.c + word ((rest.drop 8).take 4) })
  else
    { a := s.a + word (rest.take 4)
      b := s.b + word ((rest.drop 4).take 4)
      c := s.c + origLen + word (rest.drop 8) <<< 8 }
termination_by rest.length
decreasing_by
  rw [List.length_drop]
  omega

/-- The hash of a key, wherever it is. -/
def hashOf (key : List UInt8) (seed : BitVec 32) : Fin 3 → BitVec 32 :=
  (mix (hashBytes (BitVec.ofNat 32 key.length) key
    { a := fixedSeed, b := fixedSeed, c := seed })).hashes

theorem word_nil : word [] = 0 := rfl

/-- Up to four bytes add up to their word. -/
theorem word_take_four (bytes : List UInt8)
    : word (bytes.take 4)
      = BitVec.ofNat 32 ((bytes.getD 3 0).toNat * 2 ^ 24)
        + BitVec.ofNat 32 ((bytes.getD 2 0).toNat * 2 ^ 16)
        + BitVec.ofNat 32 ((bytes.getD 1 0).toNat * 2 ^ 8)
        + BitVec.ofNat 32 ((bytes.getD 0 0).toNat * 2 ^ 0) := by
  rw [word, ← BitVec.ofNat_add, ← BitVec.ofNat_add, ← BitVec.ofNat_add]
  refine congrArg (BitVec.ofNat 32) ?_
  rcases bytes with _ | ⟨p0, _ | ⟨p1, _ | ⟨p2, _ | ⟨p3, rest⟩⟩⟩⟩
  all_goals
    simp only [List.take_nil, List.take_succ_cons, List.take_zero, leValue, List.getD_nil,
      List.getD_cons_zero, List.getD_cons_succ, UInt8.toNat_zero]
    omega

theorem shiftLeft_ofNat (n shift : Nat)
    : BitVec.ofNat 32 n <<< shift = BitVec.ofNat 32 (n * 2 ^ shift) := by
  refine BitVec.eq_of_toNat_eq ?_
  rw [BitVec.toNat_shiftLeft, BitVec.toNat_ofNat, BitVec.toNat_ofNat, Nat.shiftLeft_eq,
    Nat.mod_mul_mod]

/-- The last word leaves the lowest byte of `c` to the length. -/
theorem word_drop_eight (short : bytes.length < 12)
    : word (bytes.drop 8) <<< 8
      = BitVec.ofNat 32 ((bytes.getD 10 0).toNat * 2 ^ 24)
        + BitVec.ofNat 32 ((bytes.getD 9 0).toNat * 2 ^ 16)
        + BitVec.ofNat 32 ((bytes.getD 8 0).toNat * 2 ^ 8) := by
  have whole : (bytes.drop 8).take 4 = bytes.drop 8 :=
    List.take_of_length_le (by rw [List.length_drop]; omega)
  have at' (i : Nat) : (bytes.drop 8).getD i 0 = bytes.getD (8 + i) 0 := by
    simp [List.getD_eq_getElem?_getD, List.getElem?_drop]
  have none : bytes.getD (8 + 3) 0 = 0 := List.getD_eq_default _ _ (by omega)
  rw [← whole, word_take_four, at', at', at', at', none]
  simp only [← BitVec.ofNat_add, shiftLeft_ofNat]
  refine congrArg (BitVec.ofNat 32) ?_
  simp only [Nat.reduceAdd, UInt8.toNat_zero]
  omega

theorem unalignedTail_eq (h : Holds mem addr bytes) (short : bytes.length < 12)
    (origLen : BitVec 32) (s : Mix)
    : unalignedTail mem addr bytes.length origLen s = some (hashBytes origLen bytes s) := by
  rw [hashBytes, if_neg (by omega), unalignedTail]
  have behind {n : Nat} (all : bytes.length ≤ n) : word (bytes.drop n) = 0 := by
    rw [List.drop_of_length_le all, word_nil]
  split
  case isTrue long =>
    have a := h.le32dec (by omega)
    have b := (h.drop 4).le32dec (by rw [List.length_drop]; omega)
    rw [h.caseOf 10, Option.bind_eq_bind, Option.bind_some, h.caseOf 9, Option.bind_some,
      h.caseOf 8, Option.bind_some, a, b]
    simp [word_drop_eight short, BitVec.add_assoc]
  split
  case isTrue long =>
    have a := h.le32dec (by omega)
    have behind := behind (show bytes.length ≤ 8 by omega)
    rw [h.caseOf 7, Option.bind_eq_bind, Option.bind_some, h.caseOf 6, Option.bind_some,
      h.caseOf 5, Option.bind_some, h.caseOf 4, Option.bind_some, a, behind,
      word_take_four (bytes.drop 4)]
    simp [BitVec.add_assoc]
  split
  case isTrue some =>
    have last : ∀ x, caseOf mem bytes.length 1 addr 0 x
        = .some (x + BitVec.ofNat 32 ((bytes.getD 0 0).toNat * 2 ^ 0)) := h.caseOf 0 0
    rw [h.caseOf 3, Option.bind_eq_bind, Option.bind_some, h.caseOf 2, Option.bind_some,
      h.caseOf 1, Option.bind_some, last, Option.bind_some, behind (show bytes.length ≤ 8 by omega),
      List.drop_of_length_le (show bytes.length ≤ 4 by omega), word_take_four bytes]
    simp [word_nil, BitVec.add_assoc]
  case isFalse none =>
    obtain rfl : bytes = [] := List.eq_nil_of_length_eq_zero (by omega)
    simp [word_nil]

/-- The mask with number `m` keeps `m + 1` bytes. -/
theorem word_and_mask {m : Nat} (small : m < 4)
    : ∃ cut, mask[m]? = some cut ∧ ∀ bytes, word bytes &&& cut = word (bytes.take (m + 1)) := by
  refine ⟨BitVec.ofNat 32 (2 ^ (8 * (m + 1)) - 1), ?_, fun bytes => ?_⟩
  · obtain rfl | rfl | rfl | rfl : m = 0 ∨ m = 1 ∨ m = 2 ∨ m = 3 := by omega
    all_goals rfl
  · have bits : 2 ^ (8 * (m + 1)) ≤ 2 ^ 32 := Nat.pow_le_pow_right (by decide) (by omega)
    have divides : 2 ^ (8 * (m + 1)) ∣ 2 ^ 32 := Nat.pow_dvd_pow 2 (by omega)
    have positive : 0 < 2 ^ (8 * (m + 1)) := Nat.two_pow_pos _
    have power : 256 ^ (m + 1) = 2 ^ (8 * (m + 1)) := by rw [Nat.pow_mul]
    refine BitVec.eq_of_toNat_eq ?_
    rw [BitVec.toNat_and, word, word, BitVec.toNat_ofNat, BitVec.toNat_ofNat, BitVec.toNat_ofNat,
      Nat.mod_eq_of_lt (show 2 ^ (8 * (m + 1)) - 1 < 2 ^ 32 by omega),
      Nat.and_two_pow_sub_one_eq_mod, Nat.mod_mod_of_dvd _ divides, leValue_take, power,
      Nat.mod_eq_of_lt (lt_of_lt_of_le (Nat.mod_lt _ positive) bits)]

/-- The word in which the key ends gives the last bytes of the key, whatever follows them. -/
theorem Holds.lastWord {pad : List UInt8} (h : Holds mem addr (bytes ++ pad)) {i m : Nat}
    (length : bytes.length = i + m + 1) (few : m < 4)
    (room : i + 4 ≤ bytes.length + pad.length)
    : ∃ last cut, MiVectorHash.key32 mem (addr + i) = some last
      ∧ mask[m]? = some cut
      ∧ last &&& cut = word (bytes.drop i) := by
  obtain ⟨cut, found, keeps⟩ := word_and_mask few
  have long : 4 ≤ ((bytes ++ pad).drop i).length := by
    rw [List.length_drop, List.length_append]
    omega
  refine ⟨_, cut, (h.drop i).key32 long, found, ?_⟩
  rw [keeps, List.take_take, Nat.min_eq_left (by omega), List.drop_append_of_le_length (by omega),
    List.take_append_of_le_length (by rw [List.length_drop]; omega),
    List.take_of_length_le (by rw [List.length_drop]; omega)]

theorem alignedTail_eq {pad : List UInt8} (h : Holds mem addr (bytes ++ pad))
    (short : bytes.length < 12) (whole : (bytes.length + pad.length) % 4 = 0)
    (origLen : BitVec 32) (s : Mix)
    : alignedTail mem addr bytes.length origLen s = some (hashBytes origLen bytes s) := by
  rw [hashBytes, if_neg (by omega), alignedTail]
  have inner {i : Nat} (inside : i + 4 ≤ bytes.length)
      : MiVectorHash.key32 mem (addr + i) = some (word ((bytes.drop i).take 4)) :=
    (h.left.drop i).key32 (by rw [List.length_drop]; omega)
  have behind {n : Nat} (all : bytes.length ≤ n) : word (bytes.drop n) = 0 := by
    rw [List.drop_of_length_le all, word_nil]
  have all {n : Nat} (few : bytes.length ≤ n + 4) : (bytes.drop n).take 4 = bytes.drop n :=
    List.take_of_length_le (by rw [List.length_drop]; omega)
  split
  case isTrue long =>
    obtain ⟨last, cut, read, found, masked⟩ :=
      h.lastWord (i := 8) (m := bytes.length - 9) (by omega) (by omega) (by omega)
    have a := inner (i := 0) (by omega)
    have b := inner (i := 4) (by omega)
    rw [Nat.add_zero, List.drop_zero] at a
    simp [read, found, a, b, masked]
  split
  case isTrue long =>
    obtain ⟨last, cut, read, found, masked⟩ :=
      h.lastWord (i := 4) (m := bytes.length - 5) (by omega) (by omega) (by omega)
    have a := inner (i := 0) (by omega)
    rw [Nat.add_zero, List.drop_zero] at a
    rw [all (n := 4) (by omega), behind (n := 8) (by omega)]
    simp [read, found, a, masked]
  split
  case isTrue some =>
    obtain ⟨last, cut, read, found, masked⟩ :=
      h.lastWord (i := 0) (m := bytes.length - 1) (by omega) (by omega) (by omega)
    rw [Nat.add_zero] at read
    rw [List.drop_zero] at masked
    rw [behind (n := 8) (by omega), List.drop_of_length_le (show bytes.length ≤ 4 by omega),
      List.take_of_length_le (show bytes.length ≤ 4 by omega)]
    simp [read, found, masked, word_nil]
  case isFalse none =>
    obtain rfl : bytes = [] := List.eq_nil_of_length_eq_zero (by omega)
    simp [word_nil]

/-- The loop over blocks hashes a multiple of twelve bytes and leaves the rest of the key. -/
theorem blocks_eq {read : Nat → Option (BitVec 32)} {addr : Nat} {bytes : List UInt8}
    (reads : ∀ i, i + 4 ≤ bytes.length → read (addr + i) = some (word ((bytes.drop i).take 4)))
    (s : Mix)
    : ∃ n s', n ≤ bytes.length ∧ bytes.length < n + 12 ∧ n % 4 = 0
      ∧ blocks read addr bytes.length s = some (addr + n, bytes.length - n, s')
      ∧ ∀ origLen, hashBytes origLen (bytes.drop n) s' = hashBytes origLen bytes s := by
  rcases Nat.lt_or_ge bytes.length 12 with short | long
  · refine ⟨0, s, by omega, by omega, rfl, ?_, fun _ => rfl⟩
    rw [blocks, if_neg (by omega)]
    rfl
  · have a := reads 0 (by omega)
    have b := reads 4 (by omega)
    have c := reads 8 (by omega)
    rw [Nat.add_zero, List.drop_zero] at a
    have rest (i : Nat) (inside : i + 4 ≤ (bytes.drop 12).length)
        : read (addr + 12 + i) = some (word (((bytes.drop 12).drop i).take 4)) := by
      rw [List.length_drop] at inside
      rw [List.drop_drop, Nat.add_assoc]
      exact reads (12 + i) (by omega)
    obtain ⟨n, s', le, lt, quarter, run, same⟩ := blocks_eq rest
      (mix
        { a := s.a + word (bytes.take 4)
          b := s.b + word ((bytes.drop 4).take 4)
          c := s.c + word ((bytes.drop 8).take 4) })
    rw [List.length_drop] at le lt run
    refine ⟨12 + n, s', by omega, by omega, by omega, ?_, fun origLen => ?_⟩
    · rw [blocks, if_pos long]
      simp only [a, b, c, Option.bind_eq_bind, Option.bind_some, run]
      rw [Nat.add_assoc, Nat.sub_sub]
    · rw [← List.drop_drop, same, hashBytes.eq_1 origLen bytes, if_pos long]
termination_by bytes.length
decreasing_by
  rw [List.length_drop]
  omega

theorem miVectorHash_unaligned (h : Holds mem addr bytes) (unaligned : addr % 4 ≠ 0)
    (seed : BitVec 32)
    : miVectorHash mem addr bytes.length seed = some (hashOf bytes seed) := by
  have reads (i : Nat) (inside : i + 4 ≤ bytes.length)
      : MiVectorHash.le32dec mem (addr + i) = some (word ((bytes.drop i).take 4)) :=
    (h.drop i).le32dec (by rw [List.length_drop]; omega)
  obtain ⟨n, s, le, lt, -, run, same⟩ := blocks_eq reads
    { a := fixedSeed, b := fixedSeed, c := seed }
  have tail := unalignedTail_eq (h.drop n) (by rw [List.length_drop]; omega)
    (BitVec.ofNat 32 bytes.length) s
  rw [List.length_drop, same] at tail
  have low : addr &&& 3 ≠ 0 := by
    rwa [show 3 = 2 ^ 2 - 1 from rfl, Nat.and_two_pow_sub_one_eq_mod]
  simp only [miVectorHash, if_pos low, run, tail, Option.bind_eq_bind, Option.bind_some]
  rfl

theorem miVectorHash_aligned {pad : List UInt8} (h : Holds mem addr (bytes ++ pad))
    (aligned : addr % 4 = 0) (whole : (bytes.length + pad.length) % 4 = 0) (seed : BitVec 32)
    : miVectorHash mem addr bytes.length seed = some (hashOf bytes seed) := by
  have reads (i : Nat) (inside : i + 4 ≤ bytes.length)
      : MiVectorHash.key32 mem (addr + i) = some (word ((bytes.drop i).take 4)) :=
    (h.left.drop i).key32 (by rw [List.length_drop]; omega)
  obtain ⟨n, s, le, lt, quarter, run, same⟩ := blocks_eq reads
    { a := fixedSeed, b := fixedSeed, c := seed }
  have rest := h.drop n
  rw [List.drop_append_of_le_length le] at rest
  have tail := alignedTail_eq rest (by rw [List.length_drop]; omega)
    (by rw [List.length_drop]; omega) (BitVec.ofNat 32 bytes.length) s
  rw [List.length_drop, same] at tail
  have low : ¬ addr &&& 3 ≠ 0 := by
    rw [show 3 = 2 ^ 2 - 1 from rfl, Nat.and_two_pow_sub_one_eq_mod, not_not]
    exact aligned
  simp only [miVectorHash, if_neg low, run, tail, Option.bind_eq_bind, Option.bind_some]
  rfl

/-- Memory with nothing but some bytes. -/
def onlyAt (addr : Nat) (bytes : List UInt8) : Memory := fun p =>
  if addr ≤ p then bytes[p - addr]? else none

theorem holds_onlyAt (addr : Nat) (bytes : List UInt8) : Holds (onlyAt addr bytes) addr bytes := by
  intro i byte found
  rw [onlyAt, if_pos (by omega), Nat.add_sub_cancel_left]
  exact found

/-- The same key at an unaligned and at an aligned address, where `pad` fills up the last word with
any bytes, has one hash, and nothing but the key and `pad` (three bytes at most) need be readable.
-/
theorem miVectorHash_alignment {mem mem' : Memory} {addr addr' : Nat} {key pad : List UInt8}
    (unaligned : addr % 4 ≠ 0) (held : Holds mem addr key) (aligned : addr' % 4 = 0)
    (whole : (key.length + pad.length) % 4 = 0) (held' : Holds mem' addr' (key ++ pad))
    (seed : BitVec 32)
    : ∃ hashes,
        miVectorHash mem addr key.length seed = some hashes
        ∧ miVectorHash mem' addr' key.length seed = some hashes
        ∧ miVectorHash (onlyAt addr key) addr key.length seed = some hashes
        ∧ miVectorHash (onlyAt addr' (key ++ pad)) addr' key.length seed = some hashes :=
  ⟨hashOf key seed, miVectorHash_unaligned held unaligned seed,
    miVectorHash_aligned held' aligned whole seed,
    miVectorHash_unaligned (holds_onlyAt addr key) unaligned seed,
    miVectorHash_aligned (holds_onlyAt addr' (key ++ pad)) aligned whole seed⟩

/-- Five bytes at the addresses 1 and 8. -/
theorem miVectorHash_alignment_five
    : ∃ hashes,
        miVectorHash (onlyAt 1 [1, 2, 3, 4, 5]) 1 [1, 2, 3, 4, 5].length 7 = some hashes
        ∧ miVectorHash (onlyAt 8 ([1, 2, 3, 4, 5] ++ [9, 9, 9])) 8 [1, 2, 3, 4, 5].length 7
          = some hashes
        ∧ miVectorHash (onlyAt 1 [1, 2, 3, 4, 5]) 1 [1, 2, 3, 4, 5].length 7 = some hashes
        ∧ miVectorHash (onlyAt 8 ([1, 2, 3, 4, 5] ++ [9, 9, 9])) 8 [1, 2, 3, 4, 5].length 7
          = some hashes :=
  miVectorHash_alignment (by decide) (holds_onlyAt 1 _) (by decide) (by decide)
    (holds_onlyAt 8 _) 7

end BSDLibC.MiVectorHash
