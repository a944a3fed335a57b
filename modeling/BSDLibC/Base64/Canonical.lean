import BSDLibC.Base64.Inverse
import Mathlib.Data.Fintype.Basic
import Mathlib.Tactic.FinCases

/-! What the decoder accepts is canonical text, and it writes nothing outside of its buffer. -/

namespace BSDLibC.Base64

open Bytes Ctype

variable {targsize : Nat} {d : Decoder} {seen junk s t : List UInt8}

-----------------------------------------------------------------------------------------
-- The buffer
-----------------------------------------------------------------------------------------

/-- A buffer of the same size, unchanged from `targsize` on. -/
structure Kept (targsize : Nat) (t t' : List UInt8) : Prop where
  length : t'.length = t.length
  after : t'.drop targsize = t.drop targsize

theorem Kept.refl (t : List UInt8) : Kept targsize t t := ⟨rfl, rfl⟩

theorem Kept.trans {t t' t'' : List UInt8} (h : Kept targsize t t') (h' : Kept targsize t' t'')
    : Kept targsize t t'' :=
  ⟨h'.length.trans h.length, h'.after.trans h.after⟩

theorem store_kept {i : Nat} (inside : i < targsize) (size : targsize ≤ t.length) (byte : UInt8)
    : ∃ t', store t i byte = some t' ∧ Kept targsize t t' := by
  refine ⟨t.set i byte, if_pos (by omega), by simp, ?_⟩
  rw [List.drop_set, if_pos inside]

def Outcome.target : Outcome → Option (List UInt8)
  | .fail target => target
  | .next d => d.target

theorem wholeBits_kept {state : Fin 4} {i : Nat} (size : targsize ≤ t.length)
    (merge : UInt8 → UInt8) {done : Decoder}
    : ∃ outcome t', wholeBits targsize ⟨some t, state, i⟩ merge done = some outcome
      ∧ outcome.target = some t' ∧ Kept targsize t t' := by
  by_cases inside : i < targsize
  · have found : t[i]? = some (t.getD i 0) := by simp [show i < t.length by omega]
    obtain ⟨t', stored, kept⟩ := store_kept inside size (merge (t.getD i 0))
    refine ⟨.next { done with target := some t' }, t', ?_, rfl, kept⟩
    simp only [wholeBits, ge_iff_le, Nat.not_le.mpr inside, if_false, found, stored,
      Option.bind_eq_bind, Option.bind_some]
    rfl
  · exact ⟨_, t, wholeBits_full (Nat.not_lt.mp inside), rfl, .refl t⟩

theorem splitBits_kept {state : Fin 4} {i : Nat} (size : targsize ≤ t.length)
    (bits nextbyte : UInt8) {done : Decoder}
    : ∃ outcome t', splitBits targsize ⟨some t, state, i⟩ bits nextbyte done = some outcome
      ∧ outcome.target = some t' ∧ Kept targsize t t' := by
  by_cases inside : i < targsize
  · have found : t[i]? = some (t.getD i 0) := by simp [show i < t.length by omega]
    obtain ⟨t', stored, kept⟩ := store_kept inside size (t.getD i 0 ||| bits)
    simp only [splitBits, ge_iff_le, Nat.not_le.mpr inside, if_false, found, stored,
      Option.bind_eq_bind, Option.bind_some]
    by_cases more : i + 1 < targsize
    · obtain ⟨t'', stored', kept'⟩ := store_kept more (kept.length ▸ size) nextbyte
      rw [if_pos more, stored', Option.bind_some]
      exact ⟨_, t'', rfl, rfl, kept.trans kept'⟩
    · rw [if_neg more]
      split
      · exact ⟨_, t', rfl, rfl, kept⟩
      · exact ⟨_, t', rfl, rfl, kept⟩
  · exact ⟨_, t, splitBits_full (Nat.not_lt.mp inside), rfl, .refl t⟩

/-- A digit is decoded inside the buffer. -/
theorem decodeDigit_kept (found : d.target = some t) (size : targsize ≤ t.length) (pos : Nat)
    : ∃ outcome t', decodeDigit targsize d pos = some outcome ∧ outcome.target = some t'
      ∧ Kept targsize t t' := by
  obtain ⟨target, state, i⟩ := d
  obtain rfl : target = some t := found
  rw [decodeDigit]
  split
  · exact wholeBits_kept size _
  · exact splitBits_kept size _ _
  · exact splitBits_kept size _ _
  · exact wholeBits_kept size _

-----------------------------------------------------------------------------------------
-- Digits that were accepted
-----------------------------------------------------------------------------------------

/-- The digits that were seen are the text of the bytes that are finished, and then those of the
byte that is begun.
-/
inductive Progress (targsize : Nat) : List UInt8 → Decoder → Prop
  | none {out rest : List UInt8} (full : out.length % 3 = 0) (inside : out.length ≤ targsize)
      : Progress targsize (encode out) ⟨some (out ++ rest), 0, out.length⟩
  | one {out rest : List UInt8} {pos : Nat} (full : out.length % 3 = 0)
      (inside : out.length < targsize) (small : pos < 64)
      : Progress targsize (encode out ++ [symbol pos])
          ⟨some (out ++ UInt8.ofNat (pos <<< 2) :: rest), 1, out.length⟩
  | two {out tail : List UInt8} {a low : UInt8} (full : out.length % 3 = 0)
      (clear : low.toNat % 16 = 0) (pending : Pending targsize (out.length + 1) low tail)
      : Progress targsize
          (encode out ++ [symbol (output0 a).toNat, symbol (output1 a low).toNat])
          ⟨some (out ++ a :: tail), 2, out.length + 1⟩
  | three {out tail : List UInt8} {a b low : UInt8} (full : out.length % 3 = 0)
      (clear : low.toNat % 64 = 0) (pending : Pending targsize (out.length + 2) low tail)
      : Progress targsize
          (encode out ++ [symbol (output0 a).toNat, symbol (output1 a b).toNat,
            symbol (output2 b low).toNat])
          ⟨some (out ++ a :: b :: tail), 3, out.length + 2⟩

theorem Progress.step {pos : Nat} (h : Progress targsize seen d) (found : d.target = some t)
    (size : targsize ≤ t.length) (small : pos < 64) {d' : Decoder}
    (step : decodeDigit targsize d pos = some (.next d'))
    : Progress targsize (seen ++ [symbol pos]) d' := by
  cases h with
  | @none out rest full inside =>
      obtain rfl := Option.some.inj found
      by_cases more : out.length < targsize
      · obtain _ | ⟨old, rest⟩ := rest
        · simp only [List.append_nil] at size
          omega
        · rw [decodeDigit_zero more, Option.some.injEq, Outcome.next.injEq] at step
          exact step ▸ .one full more small
      · rw [decodeDigit, wholeBits_full (Nat.not_lt.mp more)] at step
        cases step
  | @one out rest high full inside small' =>
      obtain rfl := Option.some.inj found
      have high_eq := toNat_high small'
      by_cases room : out.length + 1 < targsize ∨ pos % 16 = 0
      · obtain ⟨a, low, tail, a_eq, low_eq, -, pending, next⟩ := decodeDigit_one rest
          (by rw [high_eq]; omega) small inside (by simp at size; omega) room
        rw [next, Option.some.injEq, Outcome.next.injEq] at step
        have first : (output0 a).toNat = high := by
          rw [toNat_output0, a_eq, high_eq]
          omega
        have second : (output1 a low).toNat = pos := by
          rw [toNat_output1, a_eq, high_eq, low_eq]
          omega
        rw [← step, List.append_assoc, List.singleton_append, ← first, ← second]
        exact .two full (by omega) pending
      · push Not at room
        have lost : UInt8.ofNat ((pos &&& 0x0f) <<< 4) ≠ 0 := by
          intro zero
          have := toNat_next1 pos
          rw [zero, UInt8.toNat_zero] at this
          omega
        have last : out.length + 1 = targsize := by omega
        obtain ⟨target, fails⟩ := splitBits_lost (UInt8.ofNat (pos >>> 4)) rfl last lost
        rw [decodeDigit, fails] at step
        cases step
  | @two out tail a low full clear pending =>
      obtain rfl := Option.some.inj found
      have low_lt := low.toNat_lt
      rcases pending with ⟨inside, rest, rfl⟩ | ⟨atEnd, -⟩
      · by_cases room : out.length + 2 < targsize ∨ pos % 4 = 0
        · obtain ⟨b, low', tail, b_eq, low'_eq, -, pending, next⟩ := decodeDigit_two a rest clear
            small inside (by simp at size; omega) room
          rw [next, Option.some.injEq, Outcome.next.injEq] at step
          have second : (output1 a b).toNat = (output1 a low).toNat := by
            rw [toNat_output1, toNat_output1, b_eq]
            omega
          have third : (output2 b low').toNat = pos := by
            rw [toNat_output2, b_eq, low'_eq]
            omega
          rw [← step, List.append_assoc, ← second, ← third]
          exact .three full (by omega) pending
        · push Not at room
          have lost : UInt8.ofNat ((pos &&& 0x03) <<< 6) ≠ 0 := by
            intro zero
            have := toNat_next2 pos
            rw [zero, UInt8.toNat_zero] at this
            omega
          have index : out.length + 1 = (out ++ [a]).length := by simp
          have last : out.length + 1 + 1 = targsize := by omega
          obtain ⟨target, fails⟩ := splitBits_lost (UInt8.ofNat (pos >>> 2)) index last lost
          simp only [List.append_assoc, List.cons_append, List.nil_append] at fails
          rw [decodeDigit, fails] at step
          cases step
      · simp only [decodeDigit] at step
        rw [splitBits_full atEnd.ge] at step
        cases step
  | @three out tail a b low full clear pending =>
      obtain rfl := Option.some.inj found
      rcases pending with ⟨inside, rest, rfl⟩ | ⟨atEnd, -⟩
      · rw [decodeDigit_three inside, Option.some.injEq, Outcome.next.injEq] at step
        have c_eq := toNat_third clear small
        generalize low ||| UInt8.ofNat pos = c at c_eq step
        have third : (output2 b c).toNat = (output2 b low).toNat := by
          rw [toNat_output2, toNat_output2, c_eq]
          omega
        have fourth : (output3 c).toNat = pos := by
          rw [toNat_output3, c_eq]
          omega
        have text : encode (out ++ [a, b, c]) = encode out ++ group a b c := by
          rw [encode_append out _ full]
          simp [encode]
        have next : Progress targsize (encode (out ++ [a, b, c]))
            ⟨some ((out ++ [a, b, c]) ++ rest), 0, (out ++ [a, b, c]).length⟩ :=
          .none (by simpa using full) (by rw [List.length_append]; exact inside)
        rw [← step, List.append_assoc, ← third, ← fourth]
        simpa [text, group] using next
      · simp only [decodeDigit] at step
        rw [wholeBits_full atEnd.ge] at step
        cases step

-----------------------------------------------------------------------------------------
-- The end of the text
-----------------------------------------------------------------------------------------

/-- An ASCII text, without its terminator. -/
def Ascii (s : List UInt8) : Prop := ∀ ch ∈ s, ch ≠ 0 ∧ ch < 0x80

/-- A text without white space. -/
def stripped (s : List UInt8) : List UInt8 := s.filter (fun ch => !isspace ch.toNat)

theorem skipSpaces_spec (plain : Bool) (ascii : Ascii s) (junk : List UInt8)
    : ∃ ch src, skipSpaces plain (s ++ 0 :: junk) = some (ch, src)
      ∧ ((ch = 0 ∧ stripped s = [])
        ∨ (ch ≠ 0 ∧ ∃ s', src = s' ++ 0 :: junk ∧ Ascii s' ∧ stripped s = ch :: stripped s')) := by
  induction s generalizing plain with
  | nil => exact ⟨0, junk, by simp [skipSpaces], Or.inl ⟨rfl, rfl⟩⟩
  | cons ch s ih =>
      obtain ⟨nonzero, small⟩ := ascii ch (by simp)
      have ascii' : Ascii s := fun other member => ascii other (by simp [member])
      have class_eq : spaceAt plain ch = some (isspace ch.toNat) := by
        simp [spaceAt, UInt8.not_le.mpr small]
      rw [List.cons_append, skipSpaces, if_neg nonzero, class_eq, Option.bind_eq_bind,
        Option.bind_some]
      cases space : isspace ch.toNat with
      | true =>
          obtain ⟨last, src, run, cases⟩ := ih false ascii'
          refine ⟨last, src, by simpa using run, ?_⟩
          simpa [stripped, space] using cases
      | false =>
          refine ⟨ch, s ++ 0 :: junk, by simp, Or.inr ⟨nonzero, s, rfl, ascii', ?_⟩⟩
          simp [stripped, space]

/-- After a pad character there is another one, when it stands for two digits, and nothing else. -/
theorem trailer_spec (state : Fin 4) (ascii : Ascii s) (junk : List UInt8)
    : ∃ ok, trailer state (s ++ 0 :: junk) = some ok
      ∧ (ok = true → (state = 2 ∧ stripped s = [pad64]) ∨ (state = 3 ∧ stripped s = [])) := by
  obtain ⟨ch, src, run, ends⟩ := skipSpaces_spec true ascii junk
  fin_cases state
  · exact ⟨false, rfl, by simp⟩
  · exact ⟨false, rfl, by simp⟩
  · by_cases pad : ch = pad64
    · rcases ends with ⟨zero, -⟩ | ⟨-, s', rfl, ascii', text⟩
      · exact absurd (pad.symm.trans zero) (by decide)
      · obtain ⟨last, src', run', ends'⟩ := skipSpaces_spec true ascii' junk
        refine ⟨decide (last = 0), by simp [trailer, run, pad, run'], ?_⟩
        intro zero
        rcases ends' with ⟨-, empty⟩ | ⟨nonzero, -⟩
        · exact Or.inl ⟨rfl, by rw [text, empty, pad]⟩
        · exact absurd (of_decide_eq_true zero) nonzero
    · exact ⟨false, by simp [trailer, run, pad], by simp⟩
  · refine ⟨decide (ch = 0), by simp [trailer, run], ?_⟩
    intro zero
    rcases ends with ⟨-, empty⟩ | ⟨nonzero, -⟩
    · exact Or.inr ⟨rfl, empty⟩
    · exact absurd (of_decide_eq_true zero) nonzero

/-- A call that returns: nothing was written from `targsize` on, and a text that was accepted is
the canonical one of the bytes.
-/
def Returns (targsize : Nat) (t : List UInt8) (text : List UInt8)
    (result : Option (Int × Option (List UInt8))) : Prop :=
  ∃ r t', result = some (r, some t') ∧ Kept targsize t t'
    ∧ (r ≠ -1 → ∃ x, x <+: t' ∧ x.length ≤ targsize ∧ r = toInt x.length ∧ text = encode x)

theorem Returns.reject {text : List UInt8} {result : Option (Int × Option (List UInt8))}
    (h : result = some (-1, some t))
    : Returns targsize t text result :=
  ⟨-1, t, h, .refl t, by simp⟩

theorem Progress.terminated (h : Progress targsize seen d) (found : d.target = some t)
    (src : List UInt8)
    : Returns targsize t seen (b64Pton.finish targsize d false src) := by
  cases h with
  | @none out rest full inside =>
      obtain rfl := Option.some.inj found
      refine ⟨toInt out.length, _, by simp [b64Pton.finish], .refl _, fun _ => ?_⟩
      exact ⟨out, List.prefix_append out rest, inside, rfl, rfl⟩
  | one => exact .reject (by rw [← found]; rfl)
  | two => exact .reject (by rw [← found]; rfl)
  | three => exact .reject (by rw [← found]; rfl)

theorem Progress.padded (h : Progress targsize seen d) (found : d.target = some t) (ascii : Ascii s)
    (junk : List UInt8)
    : Returns targsize t (seen ++ pad64 :: stripped s)
        (b64Pton.finish targsize d true (s ++ 0 :: junk)) := by
  obtain ⟨ok, run, good⟩ := trailer_spec d.state ascii junk
  cases ok with
  | false => exact .reject (by simp [b64Pton.finish, run, found])
  | true =>
      cases h with
      | none => simp at good
      | one => simp at good
      | @two out tail a low full clear pending =>
          obtain rfl := Option.some.inj found
          have text : stripped s = [pad64] := by simpa using good
          have index : out.length + 1 = (out ++ [a]).length := by simp
          have extra : extraClear targsize ⟨some ((out ++ [a]) ++ tail), 2, out.length + 1⟩ = _ :=
            extraClear_eq index pending
          simp only [List.append_assoc, List.cons_append, List.nil_append] at extra
          by_cases zero : low = 0
          · have inside : out.length + 1 ≤ targsize := pending.elim (·.1.le) (·.1.le)
            refine ⟨toInt (out.length + 1), _, by simp [b64Pton.finish, run, extra, zero], .refl _, ?_⟩
            refine fun _ => ⟨out ++ [a], ⟨tail, by simp⟩, by simpa using inside, by simp, ?_⟩
            rw [encode_append out _ full, text, zero]
            simp [encode]
          · exact .reject (by simp [b64Pton.finish, run, extra, zero])
      | @three out tail a b low full clear pending =>
          obtain rfl := Option.some.inj found
          have text : stripped s = [] := by simpa using good
          have index : out.length + 2 = (out ++ [a, b]).length := by simp
          have extra : extraClear targsize ⟨some ((out ++ [a, b]) ++ tail), 3, out.length + 2⟩ = _ :=
            extraClear_eq index pending
          simp only [List.append_assoc, List.cons_append, List.nil_append] at extra
          by_cases zero : low = 0
          · have inside : out.length + 2 ≤ targsize := pending.elim (·.1.le) (·.1.le)
            refine ⟨toInt (out.length + 2), _, by simp [b64Pton.finish, run, extra, zero], .refl _, ?_⟩
            refine fun _ => ⟨out ++ [a, b], ⟨tail, by simp⟩, by simpa using inside, by simp, ?_⟩
            rw [encode_append out _ full, text, zero]
            simp [encode]
          · exact .reject (by simp [b64Pton.finish, run, extra, zero])

theorem Returns.of_kept {t' text : List UInt8} {result : Option (Int × Option (List UInt8))}
    (h : Returns targsize t' text result) (kept : Kept targsize t t')
    : Returns targsize t text result := by
  obtain ⟨r, t'', run, kept', accepted⟩ := h
  exact ⟨r, t'', run, kept.trans kept', accepted⟩

/-- The induction is over the text. What was seen is kept in the invariant. -/
theorem Progress.loop (h : Progress targsize seen d) (found : d.target = some t)
    (size : targsize ≤ t.length) (ascii : Ascii s) (junk : List UInt8)
    : Returns targsize t (seen ++ stripped s) (b64Pton.loop targsize (s ++ 0 :: junk) d) := by
  induction s generalizing seen d t with
  | nil => simpa [stripped, b64Pton.loop] using h.terminated found junk
  | cons ch s ih =>
      obtain ⟨nonzero, small⟩ := ascii ch (by simp)
      have ascii' : Ascii s := fun other member => ascii other (by simp [member])
      rw [List.cons_append]
      cases space : isspace ch.toNat with
      | true =>
          rw [b64Pton.loop, if_neg nonzero, if_pos space]
          simpa [stripped, space] using ih h found size ascii'
      | false =>
          have text : stripped (ch :: s) = ch :: stripped s := by simp [stripped, space]
          rw [text]
          by_cases pad : ch = pad64
          · rw [b64Pton.loop, if_neg nonzero, space, if_neg Bool.false_ne_true, if_pos pad, pad]
            exact h.padded found ascii' junk
          · cases position : base64.findIdx? (· == ch) with
            | none =>
                refine .reject ?_
                simp [b64Pton.loop, nonzero, space, pad, position, found]
            | some pos =>
                obtain ⟨inside, rfl⟩ := symbol_of_findIdx position
                obtain ⟨outcome, t', step, target, kept⟩ := decodeDigit_kept found size pos
                cases outcome with
                | fail target' =>
                    rw [b64Pton.loop_fail inside step]
                    exact ⟨-1, t', by rw [← target]; rfl, kept, by simp⟩
                | next d' =>
                    rw [b64Pton.loop_next inside step]
                    have rest := ih (h.step found size inside step) target
                      (kept.length ▸ size) ascii'
                    rw [List.append_assoc] at rest
                    exact rest.of_kept kept

-----------------------------------------------------------------------------------------
-- The codec
-----------------------------------------------------------------------------------------

/-- The length of a text is a multiple of four, so that it is not taken for an error. -/
theorem toInt_length_encode (x : List UInt8) : toInt (encode x).length ≠ -1 := by
  rw [length_encode, toInt]
  split
  · omega
  · omega

/-- Decoding what `b64_ntop` has left in its buffer gives the bytes back. -/
theorem b64Pton_encode {x target : List UInt8} (room : x.length ≤ targsize)
    (inside : targsize ≤ target.length) (junk : List UInt8)
    : ∃ target', b64Pton (encode x ++ 0 :: junk) (some target) targsize
        = some (toInt x.length, some target') ∧ x <+: target' := by
  have room' : ([] : List UInt8).length + x.length ≤ targsize := by simpa using room
  have inside' : targsize ≤ ([] : List UInt8).length + target.length := by simpa using inside
  obtain ⟨tail, -, run⟩ := loop_encode x junk room' inside'
  refine ⟨x ++ tail, ?_, List.prefix_append x tail⟩
  simpa [b64Pton] using run

/-- With room for its text, a byte string is encoded, and decoding it gives its length, as an
`int`, and the bytes. Of every ASCII text the decoder accepts only what the encoder writes for
the decoded bytes, up to white space, and it leaves the buffer alone from `targsize` on.
-/
theorem b64_codec
    : (∀ (x buffer : List UInt8) (size : Nat), size ≤ buffer.length
        → 4 * ((x.length + 2) / 3) < size
        → ∃ r text, b64Ntop x buffer size = some (r, text) ∧ r ≠ -1
          ∧ ∀ (target : List UInt8) (targsize : Nat), x.length ≤ targsize
            → targsize ≤ target.length
            → ∃ target', b64Pton text (some target) targsize
                = some (toInt x.length, some target') ∧ x <+: target')
      ∧ ∀ (s junk target : List UInt8) (targsize : Nat), Ascii s → targsize ≤ target.length
        → ∃ r target', b64Pton (s ++ 0 :: junk) (some target) targsize = some (r, some target')
          ∧ Kept targsize target target'
          ∧ (r ≠ -1 → ∃ x, x <+: target' ∧ x.length ≤ targsize ∧ r = toInt x.length
            ∧ ∀ (buffer : List UInt8) (size : Nat), size ≤ buffer.length
              → 4 * ((x.length + 2) / 3) < size
              → ∃ rest, b64Ntop x buffer size
                  = some (toInt (stripped s).length, stripped s ++ 0 :: rest)) := by
  refine ⟨?_, ?_⟩
  · intro x buffer size inside room
    rw [← length_encode] at room
    refine ⟨_, _, b64Ntop_eq inside room, toInt_length_encode x, ?_⟩
    intro target targsize room' inside'
    exact b64Pton_encode room' inside' _
  · intro s junk target targsize ascii inside
    have start : Progress targsize (encode []) ⟨some ([] ++ target), 0, ([] : List UInt8).length⟩ :=
      .none rfl (Nat.zero_le _)
    obtain ⟨r, target', run, kept, accepted⟩ := start.loop rfl inside ascii junk
    refine ⟨r, target', run, kept, fun success => ?_⟩
    obtain ⟨x, starts, length, value, text⟩ := accepted success
    refine ⟨x, starts, length, value, ?_⟩
    intro buffer size inside' room
    rw [← length_encode] at room
    refine ⟨buffer.drop ((encode x).length + 1), ?_⟩
    rw [b64Ntop_eq inside' room, ← text]
    rfl

/-- Witness: `AB` is written as `QUI=`, which is read back, also with white space in it. -/
theorem b64_codec_AB
    : (∃ r text, b64Ntop [0x41, 0x42] (List.replicate 5 0xff) 5 = some (r, text) ∧ r ≠ -1
        ∧ ∃ target', b64Pton text (some [7, 7]) 2 = some (toInt 2, some target')
          ∧ [0x41, 0x42] <+: target')
      ∧ ∃ r target', b64Pton ([0x51, 0x55, 0x20, 0x49, 0x3d] ++ 0 :: []) (some [7, 7, 7]) 2
          = some (r, some target') ∧ Kept 2 [7, 7, 7] target' ∧ r ≠ -1 := by
  refine ⟨?_, ?_⟩
  · obtain ⟨r, text, run, success, decoded⟩ := b64_codec.1 [0x41, 0x42] (List.replicate 5 0xff) 5
      (by simp) (by simp)
    exact ⟨r, text, run, success, decoded [7, 7] 2 (by simp) (by simp)⟩
  · obtain ⟨r, target', run, kept, -⟩ := b64_codec.2 [0x51, 0x55, 0x20, 0x49, 0x3d] [] [7, 7, 7] 2
      (by unfold Ascii; decide +kernel) (by simp)
    have value : b64Pton ([0x51, 0x55, 0x20, 0x49, 0x3d] ++ 0 :: []) (some [7, 7, 7]) 2
        = some (2, some [0x41, 0x42, 7]) := by decide +kernel
    refine ⟨r, target', run, kept, ?_⟩
    rw [run, Option.some.injEq, Prod.mk.injEq] at value
    rw [value.1]
    decide

/-- The length of 2^31 bytes is not an `int`, and what `b64_pton` returns for their text is
negative.
-/
theorem b64Pton_negative
    : ∃ r text, b64Ntop (List.replicate (2 ^ 31) 0) (List.replicate (2 ^ 32) 0) (2 ^ 32)
        = some (r, text)
      ∧ ∃ target', b64Pton text (some (List.replicate (2 ^ 31) 0)) (2 ^ 31)
        = some (-2147483648, some target') := by
  have room : (encode (List.replicate (2 ^ 31) 0)).length < 2 ^ 32 := by
    rw [length_encode, List.length_replicate]
    decide
  have buffer : 2 ^ 32 ≤ (List.replicate (2 ^ 32) (0 : UInt8)).length := List.length_replicate.ge
  have length : (List.replicate (2 ^ 31) (0 : UInt8)).length = 2 ^ 31 := List.length_replicate
  refine ⟨_, _, b64Ntop_eq buffer room, ?_⟩
  obtain ⟨target', run, -⟩ := b64Pton_encode length.le length.ge
    (List.drop ((encode (List.replicate (2 ^ 31) 0)).length + 1) (List.replicate (2 ^ 32) 0))
  rw [length] at run
  exact ⟨target', run⟩

end BSDLibC.Base64
