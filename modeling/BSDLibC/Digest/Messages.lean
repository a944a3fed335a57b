import BSDLibC.Digest.Functions

/-! The digest of a message that comes in pieces is the one of the padded message, block by block, and the
digest with a key is only one of the text where the caller's buffer holds a digest.
-/

namespace BSDLibC.Digest

-----------------------------------------------------------------------------------------
-- Updates
-----------------------------------------------------------------------------------------

theorem Buffer.copy_eq {size : Nat} {buffer : Buffer size} {idx : Nat} {bytes : List UInt8}
    (room : idx + bytes.length ≤ size)
    : ∃ buffer', buffer.copy idx bytes = some buffer'
      ∧ buffer'.val = buffer.val.take idx ++ bytes ++ buffer.val.drop (idx + bytes.length) :=
  ⟨_, dif_pos room, rfl⟩

/-- The free part of a buffer -/
theorem toNat_part {idx : UInt32} (below : idx.toNat < 64) : (64 - idx).toNat = 64 - idx.toNat := by
  rw [UInt32.toNat_sub_of_le]
  · rfl
  · rw [UInt32.le_iff_toNat_le]
    exact Nat.le_of_lt below

theorem toNat_length {input : List UInt8} (short : input.length ≤ 2 ^ 32 - 64)
    : input.length.toUInt32.toNat = input.length :=
  Nat.mod_eq_of_lt (show input.length < 2 ^ 32 by omega)

/-- A test of the loop over whole blocks that is true as long as a block is left. -/
def TellsBlocks (more : UInt32 → UInt32 → Bool) (input : List UInt8) : Prop :=
  ∀ i, i.toNat ≤ input.length → (more i input.length.toUInt32 = true ↔ i.toNat + 64 ≤ input.length)

theorem tellsBlocks_63 {input : List UInt8} (short : input.length ≤ 2 ^ 32 - 64)
    : TellsBlocks (fun i len => i + 63 < len) input := by
  intro i inside
  have last : (i + 63).toNat = i.toNat + 63 := by
    rw [UInt32.toNat_add]
    exact Nat.mod_eq_of_lt (show i.toNat + 63 < 2 ^ 32 by omega)
  rw [decide_eq_true_iff, UInt32.lt_iff_toNat_lt, last, toNat_length short]
  omega

theorem tellsBlocks_64 {input : List UInt8} (short : input.length < 2 ^ 32 - 64)
    : TellsBlocks (fun off len => off + 64 ≤ len) input := by
  intro off inside
  have last : (off + 64).toNat = off.toNat + 64 := by
    rw [UInt32.toNat_add]
    exact Nat.mod_eq_of_lt (show off.toNat + 64 < 2 ^ 32 by omega)
  rw [decide_eq_true_iff, UInt32.le_iff_toNat_le, last, toNat_length (Nat.le_of_lt short)]

section

variable {σ : Type} {transform : σ → List UInt8 → σ} {more : UInt32 → UInt32 → Bool} {iv s : σ}
  {buffer : Buffer 64} {message input : List UInt8} (short : input.length ≤ 2 ^ 32 - 64)
  (tells : TellsBlocks more input)

include short tells

variable (transform) in
/-- The loop takes the whole blocks behind its start. -/
theorem transformBlocks_eq {rounds : Nat} {i : UInt32} (inside : i.toNat ≤ input.length)
    (enough : input.length < i.toNat + rounds)
    : ∃ i', transformBlocks transform more input rounds s i
        = some (chain transform 64 s (input.drop i.toNat), i')
      ∧ input.drop i'.toNat = tail 64 (input.drop i.toNat) := by
  induction rounds generalizing s i with
  | zero => omega
  | succ rounds ih =>
      rw [transformBlocks]
      by_cases left : i.toNat + 64 ≤ input.length
      · have after : (i + 64).toNat = i.toNat + 64 := by
          rw [UInt32.toNat_add]
          exact Nat.mod_eq_of_lt (show i.toNat + 64 < 2 ^ 32 by omega)
        have block : ((input.drop i.toNat).take 64).length = 64 := by
          rw [List.length_take, List.length_drop]
          omega
        have split : input.drop i.toNat = (input.drop i.toNat).take 64 ++ input.drop (i + 64).toNat := by
          rw [after, ← List.drop_drop, List.take_append_drop]
        have whole : ((input.drop i.toNat).take 64).length % 64 = 0 := by rw [block]
        obtain ⟨i', run, rest⟩ := ih (s := transform s ((input.drop i.toNat).take 64)) (i := i + 64)
          (by omega) (by omega)
        refine ⟨i', ?_, ?_⟩
        · rw [if_pos ((tells i inside).mpr left), if_pos left, run]
          conv_rhs => rw [split, chain_append whole, chain_block (by decide) block]
        · rw [rest]
          conv_rhs => rw [split, tail_append whole]
      · have few : (input.drop i.toNat).length < 64 := by
          rw [List.length_drop]
          omega
        refine ⟨i, ?_, (tail_short few).symm⟩
        rw [if_neg (mt (tells i inside).mp left), chain_short few]

variable (taken : Taken transform 64 iv s buffer.val message) {idx : UInt32}
  (index : idx.toNat = message.length % 64)

include taken index

omit short tells in
/-- Input that does not fill the buffer. -/
theorem absorb_short (few : idx.toNat + input.length < 64)
    : ∃ buffer', buffer.copy idx.toNat input = some buffer'
      ∧ Taken transform 64 iv s buffer'.val (message ++ input) := by
  rw [index] at few ⊢
  obtain ⟨buffer', copied, content⟩ := buffer.copy_eq (Nat.le_of_lt few)
  refine ⟨buffer', copied, ?_⟩
  rw [content]
  exact taken.wait (by decide) few

omit short tells taken index in
/-- What is left of an input waits at the front of the buffer. -/
theorem absorb_rest (buffer : Buffer 64) {rest : List UInt8} (few : rest.length < 64)
    : ∃ buffer', buffer.copy 0 rest = some buffer' ∧ buffer'.val.take rest.length = rest := by
  have room : 0 + rest.length ≤ 64 := by omega
  obtain ⟨buffer', copied, content⟩ := buffer.copy_eq room
  refine ⟨buffer', copied, ?_⟩
  rw [content, List.take_zero, List.nil_append, List.take_left']
  rfl

/-- Input that fills the buffer, in the steps of the functions. -/
theorem absorb_long (many : 64 ≤ idx.toNat + input.length)
    : ∃ buffer₁ s' i buffer₂, buffer.copy idx.toNat (input.take (64 - idx).toNat) = some buffer₁
      ∧ transformBlocks transform more input (input.length + 1) (transform s buffer₁.val) (64 - idx)
        = some (s', i)
      ∧ buffer₁.copy 0 (input.drop i.toNat) = some buffer₂
      ∧ Taken transform 64 iv s' buffer₂.val (message ++ input) := by
  have whole := buffer.whole
  have below : message.length % 64 < 64 := Nat.mod_lt _ (by decide)
  have part := toNat_part (index ▸ below)
  have taking : (input.take (64 - idx).toNat).length = 64 - idx.toNat := by
    rw [List.length_take, part]
    omega
  have room : idx.toNat + (input.take (64 - idx).toNat).length ≤ 64 := by omega
  obtain ⟨buffer₁, filled, content⟩ := buffer.copy_eq room
  rw [taking, List.drop_of_length_le (by omega), List.append_nil, part, index] at content
  have inside : (64 - idx).toNat ≤ input.length := by omega
  have enough : input.length < (64 - idx).toNat + (input.length + 1) := by omega
  obtain ⟨i, run, rest⟩ := transformBlocks_eq transform short tells inside enough
    (s := transform s buffer₁.val)
  have left : (input.drop i.toNat).length < 64 := by
    rw [rest, length_tail]
    exact Nat.mod_lt _ (by decide)
  obtain ⟨buffer₂, moved, waiting⟩ := absorb_rest buffer₁ left
  rw [rest, part, index] at waiting
  refine ⟨buffer₁, _, i, buffer₂, filled, run, moved, taken.fill (by decide) (by omega) ?_ waiting⟩
  rw [content, part, index]

end

-----------------------------------------------------------------------------------------
-- Padding
-----------------------------------------------------------------------------------------

/-- Zeros, behind a byte behind a message, up to eight bytes before the end of a block -/
def zeros (message : List UInt8) : List UInt8 := List.replicate ((119 - message.length % 64) % 64) 0

/-- A message in whole blocks, with a size of eight bytes at their end. -/
def padded (size message : List UInt8) : List UInt8 := message ++ 0x80 :: zeros message ++ size

/-- The size of a message in bits, modulo 2^64, the lowest byte first. -/
def sizeLe (message : List UInt8) : List UInt8 :=
  encodeWord (8 * message.length).toUInt32 ++ encodeWord (8 * message.length / 2 ^ 32).toUInt32

def sizeBe (message : List UInt8) : List UInt8 := (sizeLe message).reverse

theorem length_zeros (message : List UInt8) : (zeros message).length = (119 - message.length % 64) % 64 :=
  List.length_replicate

theorem length_sizeLe (message : List UInt8) : (sizeLe message).length = 8 := rfl

/-- The words of a count of bits are the ones of the size. -/
theorem encodeWord_count {count0 count1 : UInt32} {message : List UInt8}
    (count : count0.toNat + 2 ^ 32 * count1.toNat = 8 * message.length % 2 ^ 64)
    : encodeWord count0 ++ encodeWord count1 = sizeLe message := by
  have bound := count0.toNat_lt
  have bound' := count1.toNat_lt
  have first : count0 = (8 * message.length).toUInt32 := by
    refine UInt32.toNat_inj.mp ?_
    show count0.toNat = 8 * message.length % 2 ^ 32
    omega
  have second : count1 = (8 * message.length / 2 ^ 32).toUInt32 := by
    refine UInt32.toNat_inj.mp ?_
    show count1.toNat = 8 * message.length / 2 ^ 32 % 2 ^ 32
    omega
  rw [first, second, sizeLe]

/-- The position in the buffer that a count of bits tells -/
theorem toNat_index {count0 : UInt32} {n : Nat} (count : count0.toNat = 8 * n % 2 ^ 32)
    : ((count0 >>> 3) &&& 0x3f).toNat = n % 64 := by
  rw [UInt32.toNat_and, UInt32.toNat_shiftRight, show (0x3f : UInt32).toNat = 2 ^ 6 - 1 from rfl,
    Nat.and_two_pow_sub_one_eq_mod, Nat.shiftRight_eq_div_pow, count,
    show (3 : UInt32).toNat % 32 = 3 from rfl]
  omega

/-- The bits of a length, in two words -/
theorem toNat_bits {len : Nat} (bounded : len < 2 ^ 32)
    : (len.toUInt32 <<< 3).toNat = 8 * len % 2 ^ 32 ∧ (len.toUInt32 >>> 29).toNat = len / 2 ^ 29 := by
  have exact : len.toUInt32.toNat = len := Nat.mod_eq_of_lt bounded
  constructor
  · rw [UInt32.toNat_shiftLeft, show (3 : UInt32).toNat % 32 = 3 from rfl, Nat.shiftLeft_eq, exact,
      Nat.mul_comm]
  · rw [UInt32.toNat_shiftRight, show (29 : UInt32).toNat % 32 = 29 from rfl,
      Nat.shiftRight_eq_div_pow, exact]

/-- The padding that the final calls take from the table -/
theorem take_PADDING (message : List UInt8)
    : PADDING.take ((119 - message.length % 64) % 64 + 1) = 0x80 :: zeros message := by
  rw [PADDING, List.take_succ_cons, List.take_replicate, zeros, Nat.min_eq_left]
  omega

-----------------------------------------------------------------------------------------
-- MD4 and MD5
-----------------------------------------------------------------------------------------

section

variable (transform : Words4 → List UInt8 → Words4)

/-- The digest of a message. -/
def mdDigest (message : List UInt8) : List UInt8 :=
  encodeWords4 (chain transform 64 mdIv (padded (sizeLe message) message))

/-- A context after a message. -/
structure MdTaken (context : MD_CTX) (message : List UInt8) : Prop where
  taken : Taken transform 64 mdIv context.state context.buffer.val message
  count : context.count0.toNat + 2 ^ 32 * context.count1.toNat = 8 * message.length % 2 ^ 64

variable {transform} {context : MD_CTX} {message input : List UInt8}

theorem mdTaken_init (context : MD_CTX) : MdTaken transform (mdInit context) [] :=
  ⟨taken_nil mdIv context.buffer.val, rfl⟩

/-- The sum of two counts of bits in two words, with the carry as `MD4Update` and `MD5Update` find it. -/
theorem md_count {count0 count1 : UInt32} {n len : Nat} (bounded : len < 2 ^ 32)
    (count : count0.toNat + 2 ^ 32 * count1.toNat = 8 * n % 2 ^ 64)
    : let sum := count0 + (len.toUInt32 <<< 3)
      sum.toNat + 2 ^ 32
          * ((if sum < len.toUInt32 <<< 3 then count1 + 1 else count1) + (len.toUInt32 >>> 29)).toNat
        = 8 * (n + len) % 2 ^ 64 := by
  obtain ⟨low, high⟩ := toNat_bits bounded
  have below := count0.toNat_lt
  have below' := count1.toNat_lt
  simp only [UInt32.lt_iff_toNat_lt, UInt32.toNat_add, low]
  split
  · rw [UInt32.toNat_add, high, show (1 : UInt32).toNat = 1 from rfl]
    omega
  · rw [high]
    omega

/-- The position in the buffer that the context tells -/
theorem MdTaken.index (h : MdTaken transform context message)
    : ((context.count0 >>> 3) &&& 0x3f).toNat = message.length % 64 := by
  refine toNat_index ?_
  have := h.count
  have := context.count0.toNat_lt
  omega

theorem mdUpdate_taken (h : MdTaken transform context message) (short : input.length ≤ 2 ^ 32 - 64)
    : ∃ context', mdUpdate transform context input = some context'
      ∧ MdTaken transform context' (message ++ input) := by
  have index := h.index
  have count := md_count (by omega : input.length < 2 ^ 32) h.count
  rw [← List.length_append] at count
  have total := toNat_length short
  generalize position : (context.count0 >>> 3) &&& 0x3f = idx at index
  have part := toNat_part (index ▸ Nat.mod_lt message.length (by decide))
  have more : input.length.toUInt32 ≥ 64 - idx ↔ 64 ≤ idx.toNat + input.length := by
    rw [ge_iff_le, UInt32.le_iff_toNat_le, part, total]
    omega
  by_cases long : 64 ≤ idx.toNat + input.length
  · obtain ⟨buffer₁, s', i, buffer₂, first, run, last, taken⟩ :=
      absorb_long short (tellsBlocks_63 short) h.taken index long
    refine ⟨⟨s', _, _, buffer₂⟩, ?_, taken, count⟩
    simp only [mdUpdate, position, if_pos (more.mpr long), first, run, last, Option.bind_eq_bind,
      Option.bind_some]
    rfl
  · have room : idx.toNat + input.length < 64 := by omega
    obtain ⟨buffer', copied, taken⟩ := absorb_short h.taken index room
    refine ⟨⟨context.state, _, _, buffer'⟩, ?_, taken, count⟩
    simp only [mdUpdate, position, if_neg (mt more.mp long), copied, Option.bind_eq_bind, Option.bind_some]
    rfl

theorem mdFinal_eq (h : MdTaken transform context message)
    : ∃ left, mdFinal transform context = some (mdDigest transform message, left) := by
  have index := h.index
  have below : message.length % 64 < 64 := Nat.mod_lt _ (by decide)
  have size := encodeWord_count h.count
  obtain ⟨context₁, filled, h₁⟩ := mdUpdate_taken h (show (0x80 :: zeros message).length ≤ 2 ^ 32 - 64 by
    rw [List.length_cons, length_zeros]
    omega)
  obtain ⟨context₂, measured, h₂⟩ := mdUpdate_taken h₁ (show (sizeLe message).length ≤ 2 ^ 32 - 64 by
    rw [length_sizeLe]
    decide)
  rw [mdFinal]
  generalize (context.count0 >>> 3) &&& 0x3f = idx at index
  have padLen : (if idx < 56 then 56 - idx else 120 - idx).toNat
      = (119 - message.length % 64) % 64 + 1 := by
    have low : (56 : UInt32).toNat = 56 := rfl
    have high : (120 : UInt32).toNat = 120 := rfl
    simp only [UInt32.lt_iff_toNat_lt, index, low]
    split
    · rw [UInt32.toNat_sub_of_le _ _ (by rw [UInt32.le_iff_toNat_le]; omega)]
      omega
    · rw [UInt32.toNat_sub_of_le _ _ (by rw [UInt32.le_iff_toNat_le]; omega)]
      omega
  simp only [padLen, take_PADDING, size, filled, measured, Option.bind_eq_bind, Option.bind_some]
  rw [mdDigest, padded, ← h₂.taken.state]
  exact ⟨_, rfl⟩

theorem mdPieces_eq (context : MD_CTX) {pieces : List (List UInt8)}
    (short : ∀ piece ∈ pieces, piece.length ≤ 2 ^ 32 - 64)
    : ∃ context' left, pieces.foldlM (mdUpdate transform) (mdInit context) = some context'
      ∧ mdFinal transform context' = some (mdDigest transform pieces.flatten, left) := by
  obtain ⟨context', run, h⟩ := foldlM_pieces (fun _ _ _ => mdUpdate_taken) (mdTaken_init context) short
  obtain ⟨left, final⟩ := mdFinal_eq h
  exact ⟨context', left, run, final⟩

end

-----------------------------------------------------------------------------------------
-- SHA-1
-----------------------------------------------------------------------------------------

def sha1Digest (message : List UInt8) : List UInt8 :=
  encodeWords5 encodeWordBe (chain sha1Transform 64 sha1Iv (padded (sizeBe message) message))

structure Sha1Taken (context : SHA1_CTX) (message : List UInt8) : Prop where
  taken : Taken sha1Transform 64 sha1Iv context.state context.buffer.val message
  count : context.count0.toNat + 2 ^ 32 * context.count1.toNat = 8 * message.length % 2 ^ 64

theorem sha1Taken_init (context : SHA1_CTX) : Sha1Taken (sha1Init context) [] :=
  ⟨taken_nil sha1Iv context.buffer.val, rfl⟩

/-- The sum of two counts of bits with the carry as `SHA1Update` finds it, which loses bits of inputs from
2^29 bytes on.
-/
theorem sha1_count {count0 count1 : UInt32} {n len : Nat} (bounded : len < 2 ^ 29)
    (count : count0.toNat + 2 ^ 32 * count1.toNat = 8 * n % 2 ^ 64)
    : let sum := count0 + (len.toUInt32 <<< 3)
      sum.toNat + 2 ^ 32
          * (if sum < count0 then count1 + ((len.toUInt32 >>> 29) + 1) else count1).toNat
        = 8 * (n + len) % 2 ^ 64 := by
  obtain ⟨low, high⟩ := toNat_bits (by omega : len < 2 ^ 32)
  have below := count0.toNat_lt
  have below' := count1.toNat_lt
  simp only [UInt32.lt_iff_toNat_lt, UInt32.toNat_add, low]
  split
  · rw [UInt32.toNat_add, UInt32.toNat_add, high, show (1 : UInt32).toNat = 1 from rfl]
    omega
  · omega

/-- A mask in place is the mask behind a shift. -/
theorem and_shiftLeft (n mask s : Nat) : n &&& mask <<< s = ((n >>> s) &&& mask) <<< s := by
  refine Nat.eq_of_testBit_eq fun i => ?_
  by_cases high : s ≤ i
  · simp [Nat.testBit_and, Nat.testBit_shiftLeft, Nat.testBit_shiftRight, high, Nat.add_sub_cancel' high]
  · simp [Nat.testBit_and, Nat.testBit_shiftLeft, high]

theorem and_504 (n : Nat) : n &&& 504 = n / 8 % 64 * 8 := by
  rw [show 504 = (2 ^ 6 - 1) <<< 3 from rfl, and_shiftLeft, Nat.and_two_pow_sub_one_eq_mod, Nat.shiftLeft_eq,
    Nat.shiftRight_eq_div_pow]

section

variable {context : SHA1_CTX} {message data : List UInt8}

theorem Sha1Taken.low (h : Sha1Taken context message)
    : context.count0.toNat = 8 * message.length % 2 ^ 32 := by
  have := h.count
  have := context.count0.toNat_lt
  omega

theorem sha1Update_taken (h : Sha1Taken context message) (short : data.length < 2 ^ 29)
    : ∃ context', sha1Update context data = some context' ∧ Sha1Taken context' (message ++ data) := by
  have index := toNat_index h.low
  have count := sha1_count short h.count
  rw [← List.length_append] at count
  have bounded : data.length ≤ 2 ^ 32 - 64 := by omega
  have total := toNat_length bounded
  generalize position : (context.count0 >>> 3) &&& 63 = j at index
  have below : message.length % 64 < 64 := Nat.mod_lt _ (by decide)
  have more : j + data.length.toUInt32 > 63 ↔ 64 ≤ j.toNat + data.length := by
    rw [gt_iff_lt, UInt32.lt_iff_toNat_lt, UInt32.toNat_add, total]
    show 63 < (j.toNat + data.length) % 2 ^ 32 ↔ _
    omega
  by_cases long : 64 ≤ j.toNat + data.length
  · obtain ⟨buffer₁, s', i, buffer₂, first, run, last, taken⟩ :=
      absorb_long bounded (tellsBlocks_63 bounded) h.taken index long
    refine ⟨⟨s', _, _, buffer₂⟩, ?_, taken, count⟩
    simp only [sha1Update, position, if_pos (more.mpr long), first, run, last, Option.bind_eq_bind,
      Option.bind_some]
    rfl
  · have room : j.toNat + data.length < 64 := by omega
    obtain ⟨buffer', copied, taken⟩ := absorb_short h.taken index room
    refine ⟨⟨context.state, _, _, buffer'⟩, ?_, taken, count⟩
    simp only [sha1Update, position, if_neg (mt more.mp long), copied, Option.bind_eq_bind, Option.bind_some]
    rfl

/-- The test of the loop over zeros -/
theorem Sha1Taken.at_size (h : Sha1Taken context message)
    : (context.count0 &&& 504) ≠ 448 ↔ message.length % 64 ≠ 56 := by
  have low := h.low
  have mask : (context.count0 &&& 504).toNat = message.length % 64 * 8 := by
    rw [UInt32.toNat_and, low]
    refine (and_504 _).trans ?_
    omega
  rw [not_iff_not, ← UInt32.toNat_inj, mask]
  show message.length % 64 * 8 = 448 ↔ _
  omega

/-- The loop adds zeros one at a time up to the size. -/
theorem sha1Pad_taken (h : Sha1Taken context message) {rounds n : Nat} (zeros : n < rounds)
    (size : (message.length + n) % 64 = 56) (first : n < 64)
    : ∃ context', sha1Pad rounds context = some context'
      ∧ Sha1Taken context' (message ++ List.replicate n 0) := by
  induction n generalizing rounds context message with
  | zero =>
      obtain ⟨rounds, rfl⟩ := Nat.exists_eq_succ_of_ne_zero (Nat.ne_of_gt zeros)
      rw [sha1Pad, if_neg (mt h.at_size.mp (by omega))]
      exact ⟨context, rfl, by rwa [List.replicate_zero, List.append_nil]⟩
  | succ n ih =>
      obtain ⟨rounds, rfl⟩ := Nat.exists_eq_succ_of_ne_zero (Nat.ne_zero_of_lt zeros)
      obtain ⟨context₁, added, h₁⟩ := sha1Update_taken h (show [(0 : UInt8)].length < 2 ^ 29 by decide)
      obtain ⟨context₂, run, h₂⟩ := ih h₁ (Nat.lt_of_succ_lt_succ zeros)
        (by rw [List.length_append, List.length_singleton]; omega) (by omega)
      rw [sha1Pad, if_pos (h.at_size.mpr (by omega)), added, Option.bind_eq_bind, Option.bind_some]
      refine ⟨context₂, run, ?_⟩
      rwa [List.append_assoc, List.singleton_append, ← List.replicate_succ] at h₂

theorem sha1Final_eq (h : Sha1Taken context message)
    : ∃ left, sha1Final context = some (sha1Digest message, left) := by
  have size : encodeWordBe context.count1 ++ encodeWordBe context.count0 = sizeBe message := by
    rw [sizeBe, ← encodeWord_count h.count, List.reverse_append]
    rfl
  obtain ⟨context₁, first, h₁⟩ := sha1Update_taken h (show [(0x80 : UInt8)].length < 2 ^ 29 by decide)
  obtain ⟨context₂, filled, h₂⟩ := sha1Pad_taken h₁ (n := (119 - message.length % 64) % 64)
    (show _ < 64 by omega) (by rw [List.length_append, List.length_singleton]; omega) (by omega)
  obtain ⟨context₃, measured, h₃⟩ := sha1Update_taken h₂ (show (sizeBe message).length < 2 ^ 29 by
    rw [sizeBe, List.length_reverse, length_sizeLe]
    decide)
  have state : context₃.state = chain sha1Transform 64 sha1Iv (padded (sizeBe message) message) := by
    rw [h₃.taken.state, List.append_assoc message]
    rfl
  simp only [sha1Final, size, first, filled, measured, Option.bind_eq_bind, Option.bind_some]
  rw [sha1Digest, ← state]
  exact ⟨_, rfl⟩

theorem sha1Pieces_eq (context : SHA1_CTX) {pieces : List (List UInt8)}
    (short : ∀ piece ∈ pieces, piece.length < 2 ^ 29)
    : ∃ context' left, pieces.foldlM sha1Update (sha1Init context) = some context'
      ∧ sha1Final context' = some (sha1Digest pieces.flatten, left) := by
  obtain ⟨context', run, h⟩ := foldlM_pieces (fun _ _ _ => sha1Update_taken) (sha1Taken_init context) short
  obtain ⟨left, final⟩ := sha1Final_eq h
  exact ⟨context', left, run, final⟩

end

-----------------------------------------------------------------------------------------
-- RIPEMD-160
-----------------------------------------------------------------------------------------

def rmd160Digest (message : List UInt8) : List UInt8 :=
  encodeWords5 encodeWord (chain rmd160Transform 64 rmd160Iv (padded (sizeLe message) message))

structure Rmd160Taken (ctx : RMD160_CTX) (message : List UInt8) : Prop where
  taken : Taken rmd160Transform 64 rmd160Iv ctx.state ctx.buffer.val message
  count : ctx.count.toNat = 8 * message.length % 2 ^ 64

theorem rmd160Taken_init (ctx : RMD160_CTX) : Rmd160Taken (rmd160Init ctx) [] :=
  ⟨taken_nil rmd160Iv ctx.buffer.val, rfl⟩

theorem rmd160_count {count : UInt64} {n len : Nat} (bounded : len < 2 ^ 29)
    (before : count.toNat = 8 * n % 2 ^ 64)
    : (count + (8 * len.toUInt32).toUInt64).toNat = 8 * (n + len) % 2 ^ 64 := by
  have bits : (8 * len.toUInt32).toUInt64.toNat = 8 * len := by
    rw [UInt32.toNat_toUInt64, UInt32.toNat_mul,
      show len.toUInt32.toNat = len from Nat.mod_eq_of_lt (by omega)]
    exact Nat.mod_eq_of_lt (show 8 * len < 2 ^ 32 by omega)
  rw [UInt64.toNat_add, bits, before]
  omega

/-- Where nothing is left, nothing would be copied. -/
theorem rmd160Save_eq (buffer : Buffer 64) {have_ off : UInt32} {input : List UInt8}
    (inside : have_.toNat < 64)
    (total : input.length.toUInt32.toNat = input.length)
    : rmd160Save buffer have_ off input = buffer.copy have_.toNat (input.drop off.toNat) := by
  rw [rmd160Save]
  split
  · rfl
  · next past =>
    rw [UInt32.lt_iff_toNat_lt, total, Nat.not_lt] at past
    rw [List.drop_eq_nil_of_le past]
    have room : have_.toNat + ([] : List UInt8).length ≤ 64 := Nat.le_of_lt inside
    obtain ⟨buffer', copied, content⟩ := buffer.copy_eq room
    rw [List.append_nil, List.length_nil, Nat.add_zero, List.take_append_drop] at content
    rw [copied, Buffer.ext content]

section

variable {ctx : RMD160_CTX} {message input : List UInt8}

theorem Rmd160Taken.index (h : Rmd160Taken ctx message)
    : (ctx.count / 8 % 64).toNat = message.length % 64 := by
  rw [UInt64.toNat_mod, UInt64.toNat_div, h.count]
  show 8 * message.length % 2 ^ 64 / 8 % 64 = _
  omega

theorem rmd160Update_taken (h : Rmd160Taken ctx message) (short : input.length < 2 ^ 29)
    : ∃ ctx', rmd160Update ctx input = some ctx' ∧ Rmd160Taken ctx' (message ++ input) := by
  have count := rmd160_count short h.count
  rw [← List.length_append] at count
  have bounded : input.length ≤ 2 ^ 32 - 64 := by omega
  have total := toNat_length bounded
  have tells := tellsBlocks_64 (by omega : input.length < 2 ^ 32 - 64)
  have below : message.length % 64 < 64 := Nat.mod_lt _ (by decide)
  have index : (ctx.count / 8 % 64).toUInt32.toNat = message.length % 64 := by
    rw [UInt64.toNat_toUInt32, h.index]
    exact Nat.mod_eq_of_lt (by omega)
  generalize position : (ctx.count / 8 % 64).toUInt32 = held at index
  have need := toNat_part (index ▸ below)
  have zero : (0 : UInt32).toNat < 64 := by decide
  have more : input.length.toUInt32 ≥ 64 - held ↔ 64 ≤ held.toNat + input.length := by
    rw [ge_iff_le, UInt32.le_iff_toNat_le, need, total]
    omega
  by_cases long : 64 ≤ held.toNat + input.length
  · by_cases waiting : held ≠ 0
    · obtain ⟨buffer₁, s', off, buffer₂, first, run, last, taken⟩ :=
        absorb_long bounded tells h.taken index long
      refine ⟨⟨s', _, buffer₂⟩, ?_, taken, count⟩
      simp only [rmd160Update, position, if_pos (more.mpr long), if_pos waiting, first, run,
        rmd160Save_eq _ zero total, UInt32.toNat_zero, last, Option.bind_eq_bind, Option.bind_some,
        Option.pure_def]
    -- The blocks of the input are taken from its start.
    · have none : held = 0 := not_not.mp waiting
      rw [none] at index
      have enough : input.length < (0 : UInt32).toNat + (input.length + 1) := by
        rw [UInt32.toNat_zero]
        omega
      obtain ⟨off, run, rest⟩ := transformBlocks_eq rmd160Transform bounded tells (Nat.zero_le _) enough
        (s := ctx.state)
      have few : (input.drop off.toNat).length < 64 := by
        rw [rest, length_tail]
        exact Nat.mod_lt _ (by decide)
      obtain ⟨buffer', last, front⟩ := absorb_rest ctx.buffer few
      rw [rest] at front
      refine ⟨⟨_, _, buffer'⟩, ?_, h.taken.aligned (by decide) index.symm rfl front, count⟩
      simp only [rmd160Update, position, if_pos (more.mpr long), if_neg waiting, run,
        rmd160Save_eq _ zero total, UInt32.toNat_zero, last, Option.bind_eq_bind, Option.bind_some,
        Option.pure_def]
      rfl
  · have room : held.toNat + input.length < 64 := by omega
    obtain ⟨buffer', copied, taken⟩ := absorb_short h.taken index room
    refine ⟨⟨ctx.state, _, buffer'⟩, ?_, taken, count⟩
    simp only [rmd160Update, position, if_neg (mt more.mp long), rmd160Save_eq _ (index ▸ below) total,
      UInt32.toNat_zero, List.drop_zero, copied, Option.bind_eq_bind, Option.bind_some, Option.pure_def]

theorem rmd160Final_eq (h : Rmd160Taken ctx message)
    : ∃ left, rmd160Final ctx = some (rmd160Digest message, left) := by
  have index := h.index
  have below : message.length % 64 < 64 := Nat.mod_lt _ (by decide)
  have low : ctx.count.toUInt32.toNat = ctx.count.toNat % 2 ^ 32 := UInt64.toNat_toUInt32 ctx.count
  have high : (ctx.count >>> 32).toUInt32.toNat = ctx.count.toNat / 2 ^ 32 := by
    rw [UInt64.toNat_toUInt32, UInt64.toNat_shiftRight, Nat.shiftRight_eq_div_pow]
    have := ctx.count.toNat_lt
    show ctx.count.toNat / 2 ^ 32 % 2 ^ 32 = _
    omega
  have size : put64BitLe ctx.count = sizeLe message := by
    refine encodeWord_count ?_
    rw [low, high, ← h.count, Nat.mod_add_div]
  obtain ⟨ctx₁, filled, h₁⟩ := rmd160Update_taken h (show (0x80 :: zeros message).length < 2 ^ 29 by
    rw [List.length_cons, length_zeros]
    omega)
  obtain ⟨ctx₂, measured, h₂⟩ := rmd160Update_taken h₁ (show (sizeLe message).length < 2 ^ 29 by
    rw [length_sizeLe]
    decide)
  have free : (64 - ctx.count / 8 % 64).toUInt32.toNat = 64 - message.length % 64 := by
    have whole : (64 : UInt64).toNat = 64 := rfl
    rw [UInt64.toNat_toUInt32,
      UInt64.toNat_sub_of_le _ _ (by rw [UInt64.le_iff_toNat_le, index, whole]; omega), index, whole]
    exact Nat.mod_eq_of_lt (by omega)
  rw [rmd160Final]
  generalize (64 - ctx.count / 8 % 64).toUInt32 = padlen at free
  have taking : ((if padlen < 1 + 8 then padlen + 64 else padlen) - 8).toNat
      = (119 - message.length % 64) % 64 + 1 := by
    have more : (padlen + 64).toNat = padlen.toNat + 64 := by
      rw [UInt32.toNat_add]
      exact Nat.mod_eq_of_lt (show padlen.toNat + 64 < 2 ^ 32 by omega)
    have nine : ((1 : UInt32) + 8).toNat = 9 := rfl
    have eight : (8 : UInt32).toNat = 8 := rfl
    simp only [UInt32.lt_iff_toNat_lt, nine]
    split
    · rw [UInt32.toNat_sub_of_le _ _ (by rw [UInt32.le_iff_toNat_le]; omega)]
      omega
    · rw [UInt32.toNat_sub_of_le _ _ (by rw [UInt32.le_iff_toNat_le]; omega)]
      omega
  simp only [taking, take_PADDING, size, filled, measured, Option.bind_eq_bind, Option.bind_some]
  rw [rmd160Digest, padded, ← h₂.taken.state]
  exact ⟨_, rfl⟩

theorem rmd160Pieces_eq (ctx : RMD160_CTX) {pieces : List (List UInt8)}
    (short : ∀ piece ∈ pieces, piece.length < 2 ^ 29)
    : ∃ ctx' left, pieces.foldlM rmd160Update (rmd160Init ctx) = some ctx'
      ∧ rmd160Final ctx' = some (rmd160Digest pieces.flatten, left) := by
  obtain ⟨ctx', run, h⟩ := foldlM_pieces (fun _ _ _ => rmd160Update_taken) (rmd160Taken_init ctx) short
  obtain ⟨left, final⟩ := rmd160Final_eq h
  exact ⟨ctx', left, run, final⟩

end

-----------------------------------------------------------------------------------------
-- Keyed digests
-----------------------------------------------------------------------------------------

/-- The functions of an entry digest messages that come in pieces up to a length, whatever the context
held.
-/
structure Hmac.Digests (h : Hmac) (value : List UInt8 → List UInt8) (limit : Nat) : Prop where
  pieces : ∀ (c : h.Ctx) (pieces : List (List UInt8)), (∀ piece ∈ pieces, piece.length ≤ limit)
    → ∃ c' left, pieces.foldlM h.update (h.init c) = some c'
      ∧ h.final c' = some (value pieces.flatten, left)
  size : ∀ message, (value message).length = h.digsize
  sizes : h.digsize ≤ h.blocksize ∧ h.blocksize ≤ HMAC_SIZE ∧ h.blocksize ≤ limit ∧ limit < 2 ^ 32

/-- The key of a block: a long key is digested first. -/
def blockKey (value : List UInt8 → List UInt8) (blocksize : Nat) (key : List UInt8) : List UInt8 :=
  let k := if key.length > blocksize then value key else key
  k ++ List.replicate (blocksize - k.length) 0

/-- The digest of a text with a key. -/
def keyedDigest (value : List UInt8 → List UInt8) (blocksize : Nat) (key text : List UInt8) : List UInt8 :=
  let k := blockKey value blocksize key
  value (k.map (· ^^^ 0x5C) ++ value (k.map (· ^^^ 0x36) ++ text))

theorem md_digests (transform : Words4 → List UInt8 → Words4)
    : Hmac.Digests ⟨MD_CTX, 16, 64, mdInit, mdUpdate transform, mdFinal transform⟩ (mdDigest transform)
        (2 ^ 32 - 64) where
  pieces c _ short := mdPieces_eq c short
  size _ := rfl
  sizes := show 16 ≤ 64 ∧ 64 ≤ HMAC_SIZE ∧ 64 ≤ 2 ^ 32 - 64 ∧ 2 ^ 32 - 64 < 2 ^ 32 by decide

theorem rmd160_digests : rmd160Entry.Digests rmd160Digest (2 ^ 29 - 1) where
  pieces c _ short :=
    rmd160Pieces_eq c fun piece member => Nat.lt_of_le_pred (by decide) (short piece member)
  size _ := rfl
  sizes := by decide

theorem sha1_digests : sha1Entry.Digests sha1Digest (2 ^ 29 - 1) where
  pieces c _ short :=
    sha1Pieces_eq c fun piece member => Nat.lt_of_le_pred (by decide) (short piece member)
  size _ := rfl
  sizes := by decide

theorem length_pad (k : List UInt8) (x : UInt8) : (pad k x).length = HMAC_SIZE := by
  rw [pad, List.length_map, List.length_range]

/-- A pad of a block is a key of a block with its constant. -/
theorem take_pad {k : List UInt8} {blocksize : Nat} (short : k.length ≤ blocksize)
    (room : blocksize ≤ HMAC_SIZE) (x : UInt8)
    : (pad k x).take blocksize = (k ++ List.replicate (blocksize - k.length) 0).map (· ^^^ x) := by
  refine List.ext_getElem ?_ fun i inside _ => ?_
  · simp only [List.length_take, length_pad, List.length_map, List.length_append, List.length_replicate]
    omega
  · simp only [pad, List.getElem_take, List.getElem_map, List.getElem_range, List.getElem_append]
    split
    · next low => rw [List.getD_eq_getElem _ _ low]
    · rw [List.getElem_replicate]

theorem counted_eq {bytes : List UInt8} (short : bytes.length < 2 ^ 32) : counted bytes = bytes := by
  rw [counted, Nat.mod_eq_of_lt short, List.take_length]

theorem store_eq {memory bytes : List UInt8} (room : bytes.length ≤ memory.length)
    : store memory bytes = some (bytes ++ memory.drop bytes.length) :=
  if_pos room

/-- What is stored is read back, and the memory keeps its length. -/
theorem exists_store {memory bytes : List UInt8} (room : bytes.length ≤ memory.length)
    : ∃ memory', store memory bytes = some memory' ∧ memory'.length = memory.length
      ∧ ∀ n ≤ bytes.length, memory'.take n = bytes.take n := by
  refine ⟨bytes ++ memory.drop bytes.length, store_eq room, ?_, fun n few => ?_⟩
  · rw [List.length_append, List.length_drop]
    omega
  · exact List.take_append_of_le_length few

section

variable {h : Hmac} {value : List UInt8 → List UInt8} {limit : Nat} (means : h.Digests value limit)

include means

theorem Hmac.Digests.single (c : h.Ctx) {message : List UInt8} (short : message.length ≤ limit)
    : ∃ c₁ left, h.update (h.init c) message = some c₁ ∧ h.final c₁ = some (value message, left) := by
  obtain ⟨c₁, left, run, final⟩ := means.pieces c [message] (by simpa using short)
  rw [List.foldlM_cons, Option.bind_eq_bind, Option.bind_eq_some_iff] at run
  obtain ⟨c₂, one, stop⟩ := run
  cases stop
  rw [List.flatten_singleton] at final
  exact ⟨c₁, left, one, final⟩

theorem Hmac.Digests.pair (c : h.Ctx) {first second : List UInt8} (short : first.length ≤ limit)
    (short' : second.length ≤ limit)
    : ∃ c₁ c₂ left, h.update (h.init c) first = some c₁ ∧ h.update c₁ second = some c₂
      ∧ h.final c₂ = some (value (first ++ second), left) := by
  obtain ⟨c₂, left, run, final⟩ := means.pieces c [first, second] (by simpa using ⟨short, short'⟩)
  rw [List.foldlM_cons, Option.bind_eq_bind, Option.bind_eq_some_iff] at run
  obtain ⟨c₁, one, rest⟩ := run
  rw [List.foldlM_cons, Option.bind_eq_bind, Option.bind_eq_some_iff] at rest
  obtain ⟨c₃, two, stop⟩ := rest
  cases stop
  rw [List.flatten_cons, List.flatten_singleton] at final
  exact ⟨c₁, c₂, left, one, two, final⟩

variable {c : h.Ctx} {d key text digest : List UInt8} (junk : d.length = HMAC_SIZE)
  (shortKey : key.length ≤ limit)

include junk shortKey

/-- The key that the pads are formed of -/
theorem hmacKey_eq
    : ∃ k d' c', hmacKey h c d key = some (k, d', c') ∧ d'.length = HMAC_SIZE
      ∧ k = (if key.length > h.blocksize then value key else key) ∧ k.length ≤ h.blocksize := by
  obtain ⟨inBlock, inArray, -, small⟩ := means.sizes
  rw [hmacKey]
  split
  · next long =>
    obtain ⟨c₁, left, updated, final⟩ := means.single c shortKey
    have size := means.size key
    have room : (value key).length ≤ d.length := by omega
    obtain ⟨d', stored, kept, front⟩ := exists_store room
    have back : d'.take h.digsize = value key := by
      rw [front _ (Nat.le_of_eq size.symm), List.take_of_length_le (Nat.le_of_eq size)]
    refine ⟨value key, d', left, ?_, kept.trans junk, rfl, by omega⟩
    rw [counted_eq (by omega), updated]
    simp only [Option.bind_eq_bind, Option.bind_some, final, stored, back]
    rfl
  · next small => exact ⟨key, d, c, rfl, junk, rfl, by omega⟩

variable (shortText : text.length ≤ limit)

include shortText

/-- With room for a digest the text is digested with the key. -/
theorem hmac_long {dlen : Nat} (room : h.digsize ≤ dlen) (whole : dlen ≤ digest.length)
    : hmac h c d key text digest dlen
      = some (keyedDigest value h.blocksize key text ++ digest.drop h.digsize, h.digsize) := by
  obtain ⟨inBlock, inArray, block, small⟩ := means.sizes
  obtain ⟨k, d₁, c₁, keyed, -, isKey, fits⟩ := hmacKey_eq means junk shortKey (c := c)
  have inner := take_pad fits inArray 0x36
  have outer := take_pad fits inArray 0x5C
  have length (x : UInt8) : ((pad k x).take h.blocksize).length ≤ limit := by
    rw [List.length_take]
    omega
  obtain ⟨c₂, c₃, left, one, two, final⟩ := means.pair c₁ (length 0x36) shortText
  generalize out : value ((pad k 0x36).take h.blocksize ++ text) = digested at final
  have size : digested.length = h.digsize := by rw [← out, means.size]
  obtain ⟨c₄, c₅, left', three, four, final'⟩ := means.pair left (length 0x5C)
    (show digested.length ≤ limit by omega)
  have taken : (digested ++ digest.drop h.digsize).take h.digsize = digested := List.take_left' size
  have enough : h.digsize ≤ (digested ++ digest.drop h.digsize).length := by
    rw [List.length_append]
    omega
  have last : value ((pad k 0x5C).take h.blocksize ++ digested)
      = keyedDigest value h.blocksize key text := by
    rw [keyedDigest, blockKey, ← isKey, ← out, inner, outer]
  rw [last] at final'
  have stored : store digest digested = some (digested ++ digest.drop h.digsize) := by
    rw [store_eq (by omega), size]
  have stored' : store (digested ++ digest.drop h.digsize) (keyedDigest value h.blocksize key text)
      = some (keyedDigest value h.blocksize key text ++ digest.drop h.digsize) := by
    have size' : (keyedDigest value h.blocksize key text).length = h.digsize := means.size _
    rw [store_eq (by omega), size', List.drop_left' size]
  simp only [hmac, keyed, Option.bind_eq_bind, Option.bind_some, decide_eq_true room, if_true, one,
    counted_eq (show text.length < 2 ^ 32 by omega), two, final, storeAt, stored, Option.map_some, three,
    if_pos enough, taken, four, final', stored']
  rfl

/-- Without room for a digest the digest of the text is never looked at: the last digest is one of the
key and of what stands in the caller's buffer and behind it.
-/
theorem hmac_short {dlen : Nat} (small : dlen < h.digsize) (whole : dlen ≤ digest.length)
    : hmac h c d key text digest dlen
      = if h.digsize ≤ digest.length then
          some
            ((value ((blockKey value h.blocksize key).map (· ^^^ 0x5C) ++ digest.take h.digsize)).take dlen
              ++ digest.drop dlen, h.digsize)
        else
          none := by
  obtain ⟨inBlock, inArray, block, limited⟩ := means.sizes
  obtain ⟨k, d₁, c₁, keyed, junk₁, isKey, fits⟩ := hmacKey_eq means junk shortKey (c := c)
  have outer := take_pad fits inArray 0x5C
  have length (x : UInt8) : ((pad k x).take h.blocksize).length ≤ limit := by
    rw [List.length_take]
    omega
  obtain ⟨c₂, c₃, left, one, two, final⟩ := means.pair c₁ (length 0x36) shortText
  have size := means.size ((pad k 0x36).take h.blocksize ++ text)
  generalize value ((pad k 0x36).take h.blocksize ++ text) = digested at final size
  generalize clear : digest.take dlen ++ List.replicate (h.digsize - dlen) 0 = cleared
  have bytes : cleared.length = h.digsize := by
    rw [← clear, List.length_append, List.length_take, List.length_replicate]
    omega
  obtain ⟨d₂, stored, kept, -⟩ := exists_store (show cleared.length ≤ d₁.length by omega)
  obtain ⟨d₃, stored₂, kept', -⟩ := exists_store (show digested.length ≤ d₂.length by omega)
  have not : decide (dlen ≥ h.digsize) = false := decide_eq_false (by omega)
  by_cases enough : h.digsize ≤ digest.length
  · have taken : (digest.take h.digsize).length ≤ limit := by
      rw [List.length_take]
      omega
    obtain ⟨c₄, c₅, left', three, four, final'⟩ := means.pair left (length 0x5C) taken
    have size' := means.size ((pad k 0x5C).take h.blocksize ++ digest.take h.digsize)
    rw [outer, isKey] at final' size'
    rw [blockKey]
    generalize value _ = answer at final' size' ⊢
    obtain ⟨d₄, stored₃, -, front⟩ := exists_store (show answer.length ≤ d₃.length by omega)
    have stored₄ : store digest (answer.take dlen) = some (answer.take dlen ++ digest.drop dlen) := by
      have exact : (answer.take dlen).length = dlen := by
        rw [List.length_take]
        omega
      rw [store_eq (by omega), exact]
    simp only [hmac, keyed, Option.bind_eq_bind, Option.bind_some, not, Bool.false_eq_true, if_false, one,
      counted_eq (show text.length < 2 ^ 32 by omega), two, final, storeAt, clear, stored, stored₂,
      Option.map_some, three, if_pos enough, four, final', stored₃, front dlen (by omega), stored₄]
    rfl
  · obtain ⟨c₄, left', three, -⟩ := means.single left (length 0x5C)
    simp only [hmac, keyed, Option.bind_eq_bind, Option.bind_some, not, Bool.false_eq_true, if_false, one,
      counted_eq (show text.length < 2 ^ 32 by omega), two, final, storeAt, clear, stored, stored₂,
      Option.map_some, three, if_neg enough, Option.bind_none]

end

section

variable (h : Hmac) (value : List UInt8 → List UInt8) (limit : Nat)

/-- What a caller with room for a digest gets: the digest of the text with the key, before what stood
behind it.
-/
def Hmac.Authenticates : Prop :=
  ∀ (c : h.Ctx) (d key text digest : List UInt8) (dlen : Nat), d.length = HMAC_SIZE → key.length ≤ limit
    → text.length ≤ limit → h.digsize ≤ dlen → dlen ≤ digest.length
    → hmac h c d key text digest dlen
      = some (keyedDigest value h.blocksize key text ++ digest.drop h.digsize, h.digsize)

/-- What a caller with less room gets: bytes that depend on the key and on the memory at the buffer, and on
no text; there is no result if that memory is too short to be read.
-/
def Hmac.IgnoresText : Prop :=
  ∀ (c : h.Ctx) (d key text digest : List UInt8) (dlen : Nat), d.length = HMAC_SIZE → key.length ≤ limit
    → text.length ≤ limit → dlen < h.digsize → dlen ≤ digest.length
    → hmac h c d key text digest dlen
      = if h.digsize ≤ digest.length then
          some
            ((value ((blockKey value h.blocksize key).map (· ^^^ 0x5C) ++ digest.take h.digsize)).take dlen
              ++ digest.drop dlen, h.digsize)
        else
          none

end

theorem entries_digest
    : md4Entry.Digests (mdDigest md4Transform) (2 ^ 32 - 64)
      ∧ md5Entry.Digests (mdDigest md5Transform) (2 ^ 32 - 64)
      ∧ rmd160Entry.Digests rmd160Digest (2 ^ 29 - 1)
      ∧ sha1Entry.Digests sha1Digest (2 ^ 29 - 1) :=
  ⟨md_digests md4Transform, md_digests md5Transform, rmd160_digests, sha1_digests⟩

theorem entries_authenticate
    : md4Entry.Authenticates (mdDigest md4Transform) (2 ^ 32 - 64)
      ∧ md5Entry.Authenticates (mdDigest md5Transform) (2 ^ 32 - 64)
      ∧ rmd160Entry.Authenticates rmd160Digest (2 ^ 29 - 1)
      ∧ sha1Entry.Authenticates sha1Digest (2 ^ 29 - 1) := by
  refine ⟨?_, ?_, ?_, ?_⟩ <;> intro c d key text digest dlen junk shortKey shortText room whole
  · exact hmac_long (md_digests md4Transform) junk shortKey shortText room whole
  · exact hmac_long (md_digests md5Transform) junk shortKey shortText room whole
  · exact hmac_long rmd160_digests junk shortKey shortText room whole
  · exact hmac_long sha1_digests junk shortKey shortText room whole

theorem entries_ignore_text
    : md4Entry.IgnoresText (mdDigest md4Transform) (2 ^ 32 - 64)
      ∧ md5Entry.IgnoresText (mdDigest md5Transform) (2 ^ 32 - 64)
      ∧ rmd160Entry.IgnoresText rmd160Digest (2 ^ 29 - 1)
      ∧ sha1Entry.IgnoresText sha1Digest (2 ^ 29 - 1) := by
  refine ⟨?_, ?_, ?_, ?_⟩ <;> intro c d key text digest dlen junk shortKey shortText small whole
  · exact hmac_short (md_digests md4Transform) junk shortKey shortText small whole
  · exact hmac_short (md_digests md5Transform) junk shortKey shortText small whole
  · exact hmac_short rmd160_digests junk shortKey shortText small whole
  · exact hmac_short sha1_digests junk shortKey shortText small whole

end BSDLibC.Digest
