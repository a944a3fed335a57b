import BSDLibC.Vis.Run

/-! `strnunvisx` inverts the backslash encodings, except that with `VIS_CSTYLE` an extra `x` or
`E` is written as an escape sequence that means something else.
-/

namespace BSDLibC.Vis
open BSDLibC.Ctype

/-- The decoder after the backslash of an escape sequence. -/
def Cursor.escape : Cursor := ⟨0, ss .start⟩

def Cursor.ground (t : UInt8) : Cursor := ⟨t, ss .ground⟩

/-- The byte of a character code. -/
abbrev byte (c : Nat) : UInt8 := UInt8.ofNat c

/-- With `VIS_CSTYLE` the character is written as `\x` or `\E`. -/
def Misread (flags : Flags) (extra : List Nat) (c : UInt8) : Prop :=
  flags.cstyle ∧ (c.toNat = chr 'x' ∨ c.toNat = chr 'E') ∧ c.toNat ∈ extra

instance (flags : Flags) (extra : List Nat) (c : UInt8) : Decidable (Misread flags extra c) :=
  inferInstanceAs (Decidable (_ ∧ _ ∧ _))

/-- The rest of an escape sequence for a character. -/
def Reads (c : UInt8) (tail : List UInt8) : Prop :=
  decodeRun Flags.none Cursor.escape tail = some ([c], Cursor.ground c)
    ∧ 0 ∉ tail ∧ tail.length ≤ 3

instance (c : UInt8) (tail : List UInt8) : Decidable (Reads c tail) :=
  inferInstanceAs (Decidable (_ ∧ _ ∧ _))

/-- The encodings of one character that is followed by `next`. -/
inductive Encodes (misread : Prop) (c : UInt8) (next : Nat) : List UInt8 → Prop
  | raw (good : ¬ misread) (plain : c.toNat ≠ chr '\\') (nonzero : c ≠ 0)
    : Encodes misread c next [c]
  | escaped {tail : List UInt8} (good : ¬ misread) (reads : Reads c tail)
    : Encodes misread c next (byte (chr '\\') :: tail)
  | nul (good : ¬ misread) (zero : c = 0) (apart : iswoctal next = false)
    : Encodes misread c next [byte (chr '\\'), byte (chr '0')]
  | hex (bad : misread) (letter : c.toNat = chr 'x')
    : Encodes misread c next [byte (chr '\\'), byte (chr 'x')]
  | esc (bad : misread) (letter : c.toNat = chr 'E')
    : Encodes misread c next [byte (chr '\\'), byte (chr 'E')]

theorem octalEscape_reads
    : ∀ n < 256, (octalEscape n).map byte
        = byte (chr '\\') :: ((octalEscape n).map byte).tail
      ∧ Reads (byte n) ((octalEscape n).map byte).tail := by
  decide +kernel

theorem metaEscape_reads
    : ∀ n < 256, (0x80 ≤ n ∨ iscntrl n) → Reads (byte n) ((metaEscape n).map byte) := by
  decide +kernel

theorem graphEscape_reads
    : ∀ n < 256,
        (isgraph n && !iswoctal n && !cstyleSpecial.contains n && n ≠ chr 'x' && n ≠ chr 'E')
      → Reads (byte n) [byte n] := by
  decide +kernel

theorem letterEscape_reads
    : ∀ n < 256, (cstyleLetter n).all (fun letter => Reads (byte n) [byte letter]) := by
  decide +kernel

/-- A wide character that is one byte is handled as that byte. -/
theorem doSvis_bytes {n : Nat} (small : n < 256) (flags : Flags) (nextc : Nat) (iswextra : Bool)
    : doSvis.bytes n flags nextc iswextra 0 [7, 6, 5, 4, 3, 2, 1, 0]
      = doMbyte n flags nextc iswextra := by
  have high : ∀ n < 256, n &&& 0xff00000000000000 = 0 ∧ n &&& 0xffff000000000000 = 0
      ∧ n &&& 0xffffff0000000000 = 0 ∧ n &&& 0xffffffff00000000 = 0
      ∧ n &&& 0xffffffffff000000 = 0 ∧ n &&& 0xffffffffffff0000 = 0
      ∧ n &&& 0xffffffffffffff00 = 0 ∧ n &&& 0xff = n := by
    decide +kernel
  obtain ⟨h7, h6, h5, h4, h3, h2, h1, h0⟩ := high n small
  simp [doSvis.bytes, h7, h6, h5, h4, h3, h2, h1, h0]

theorem doMbytePlain_encodes {flags : Flags} {c : UInt8} {iswextra : Bool} {misread : Prop}
    (good : ¬ misread) (next : Nat) (slash : flags.noslash = false)
    (plain : iswextra = false → 0x80 ≤ c.toNat ∨ iscntrl c.toNat ∨ c.toNat = chr ' ')
    : Encodes misread c next ((doMbytePlain c.toNat flags iswextra).map byte) := by
  have code : byte c.toNat = c := UInt8.ofNat_toNat
  have small : c.toNat < 256 := c.toNat_lt
  unfold doMbytePlain
  split
  case isTrue =>
    obtain ⟨head, reads⟩ := octalEscape_reads c.toNat small
    rw [head]
    rw [code] at reads
    exact .escaped good reads
  case isFalse form =>
    simp only [Bool.or_eq_true, decide_eq_true_eq, not_or, Bool.not_eq_true] at form
    have reads := metaEscape_reads c.toNat small (by
      rcases plain form.1.1 with high | control | space
      · exact Or.inl high
      · exact Or.inr control
      · rw [space] at form
        exact absurd rfl form.1.2)
    rw [code] at reads
    simpa [slash] using Encodes.escaped good reads

theorem ISGRAPH_eq (flags : Flags) (c : Nat) : ISGRAPH flags c = isgraph c := by
  simp [ISGRAPH]

/-- The encodings that `do_svis` makes. -/
theorem doSvis_encodes {flags : Flags} {extra : List Nat} (slash : flags.noslash = false)
    (listed : chr '\\' ∈ extra) (c : UInt8) (next : Nat)
    : Encodes (Misread flags extra c) c next ((doSvis c.toNat flags next extra).map byte) := by
  have code : byte c.toNat = c := UInt8.ofNat_toNat
  have small : c.toNat < 256 := c.toNat_lt
  simp only [doSvis]
  split
  case isTrue visible =>
    simp only [List.map_cons, List.map_nil, code]
    refine .raw ?_ ?_ ?_
    · rintro ⟨-, -, member⟩
      simp [wcschr, member] at visible
    · intro backslash
      simp [wcschr, backslash, listed] at visible
    · rintro rfl
      simp [wcschr] at visible
  case isFalse hidden =>
    rw [doSvis_bytes small]
    have plain : wcschr extra c.toNat = false
        → 0x80 ≤ c.toNat ∨ iscntrl c.toNat ∨ c.toNat = chr ' ' := by
      intro ordinary
      have space : chr ' ' = 0x20 := rfl
      simp [ordinary, ISGRAPH, isgraph, iscntrl, iswwhite] at hidden ⊢
      omega
    unfold doMbyte
    split
    case isFalse plainStyle =>
      exact doMbytePlain_encodes (fun bad => plainStyle bad.1) next slash plain
    case isTrue cstyle =>
      have good (other : c.toNat ≠ chr 'x' ∧ c.toNat ≠ chr 'E') : ¬ Misread flags extra c :=
        fun bad => bad.2.1.elim other.1 other.2
      split
      case h_1 letter found =>
        have reads := letterEscape_reads c.toNat small
        rw [found, Option.all_some, decide_eq_true_eq, code] at reads
        refine .escaped (good ⟨?_, ?_⟩) reads
        · rintro same
          rw [same] at found
          exact nomatch found
        · rintro same
          rw [same] at found
          exact nomatch found
      case h_2 none =>
        split
        case isTrue zero =>
          obtain rfl : c = 0 := by
            rw [← code, zero]
            rfl
          split
          · exact .escaped (good (by decide)) (by decide)
          case isFalse apart => exact .nul (good (by decide)) rfl (Bool.not_eq_true _ ▸ apart)
        split
        case isTrue special =>
          refine doMbytePlain_encodes (good ⟨?_, ?_⟩) next slash plain
          · rintro same
            rw [same] at special
            exact absurd special (by decide)
          · rintro same
            rw [same] at special
            exact absurd special (by decide)
        split
        case isFalse graph =>
          refine doMbytePlain_encodes (good ⟨?_, ?_⟩) next slash plain
          · rintro same
            rw [same, ISGRAPH_eq] at graph
            exact graph (by decide)
          · rintro same
            rw [same, ISGRAPH_eq] at graph
            exact graph (by decide)
        case isTrue nonzero ordinary graph =>
          simp only [List.map_cons, List.map_nil, code]
          have graphic : isgraph c.toNat := by simpa [ISGRAPH] using (Bool.and_eq_true_iff.mp graph).1
          have extra_member : c.toNat ∈ extra := by
            simp [wcschr, ISGRAPH, graphic, nonzero] at hidden
            exact hidden
          by_cases x : c.toNat = chr 'x'
          · obtain rfl : c = byte (chr 'x') := by rw [← code, x]
            exact .hex ⟨cstyle, Or.inl x, extra_member⟩ x
          by_cases e : c.toNat = chr 'E'
          · obtain rfl : c = byte (chr 'E') := by rw [← code, e]
            exact .esc ⟨cstyle, Or.inr e, extra_member⟩ e
          have reads := graphEscape_reads c.toNat small (by
            simp_all [ISGRAPH])
          rw [code] at reads
          exact .escaped (good ⟨x, e⟩) reads

/-- The encodings of a string, whose last character is followed by `last`. -/
inductive EncodesAll (misread : UInt8 → Prop) (last : Nat) : List UInt8 → List UInt8 → Prop
  | nil : EncodesAll misread last [] []
  | cons {c : UInt8} {rest encoded encodedRest : List UInt8}
    (first : Encodes (misread c) c ((rest.map UInt8.toNat).headD last) encoded)
    (later : EncodesAll misread last rest encodedRest)
    : EncodesAll misread last (c :: rest) (encoded ++ encodedRest)

theorem visLoop_cons (f : Nat → Flags → Nat → List Nat → List Nat) (flags : Flags)
    (extra : List Nat) (last c : Nat) (rest : List Nat)
    : visLoop f flags extra last (c :: rest)
      = f c flags (rest.headD last) extra ++ visLoop f flags extra last rest := by
  cases rest with
  | nil => simp [visLoop]
  | cons next rest => rfl

theorem visLoop_encodes {flags : Flags} {extra : List Nat} (slash : flags.noslash = false)
    (listed : chr '\\' ∈ extra) (last : Nat) (src : List UInt8)
    : EncodesAll (Misread flags extra) last src
        ((visLoop doSvis flags extra last (src.map UInt8.toNat)).map byte) := by
  induction src with
  | nil => exact .nil
  | cons c rest ih =>
      rw [List.map_cons, visLoop_cons, List.map_append]
      exact .cons (doSvis_encodes slash listed c _) ih

variable {misread : UInt8 → Prop} {last : Nat} {src encoded : List UInt8}

theorem decodeRun_escape (t : UInt8) (tail : List UInt8)
    : decodeRun Flags.none (Cursor.ground t) (byte (chr '\\') :: tail)
      = decodeRun Flags.none Cursor.escape tail := by
  have step : feed Flags.none (Cursor.ground t) (byte (chr '\\')) = some ([], Cursor.escape) := rfl
  rw [decodeRun_cons step, after_nil]

theorem decodeRun_raw {c : UInt8} (plain : c.toNat ≠ chr '\\') (t : UInt8)
    : decodeRun Flags.none (Cursor.ground t) [c] = some ([c], Cursor.ground c) := by
  have step : feed Flags.none (Cursor.ground t) c = some ([c], Cursor.ground c) := by
    simp [feed, unvis, Cursor.ground, ss, Flags.none, plain]
  rw [decodeRun_cons step]
  rfl

/-- An encoding starts with its character or with a backslash. -/
theorem EncodesAll.head {c : UInt8} {rest : List UInt8}
    (h : EncodesAll misread last (c :: rest) encoded)
    : ∃ first more, encoded = first :: more ∧ (first = c ∨ first = byte (chr '\\')) := by
  cases h with
  | cons first later =>
      cases first with
      | raw _ _ _ => exact ⟨_, _, rfl, Or.inl rfl⟩
      | escaped _ _ => exact ⟨_, _, rfl, Or.inr rfl⟩
      | nul _ _ _ => exact ⟨_, _, rfl, Or.inr rfl⟩
      | hex _ _ => exact ⟨_, _, rfl, Or.inr rfl⟩
      | esc _ _ => exact ⟨_, _, rfl, Or.inr rfl⟩

/-- Encodings have no terminator inside and are four characters long at most. -/
theorem EncodesAll.printable (h : EncodesAll misread last src encoded)
    : 0 ∉ encoded ∧ encoded.length ≤ 4 * src.length := by
  induction h with
  | nil => simp
  | @cons c rest encoded encodedRest first later ih =>
      have own : 0 ∉ encoded ∧ encoded.length ≤ 4 := by
        cases first with
        | raw _ _ nonzero => simpa using nonzero.symm
        | escaped _ reads =>
            obtain ⟨-, printable, short⟩ := reads
            refine ⟨?_, by rw [List.length_cons]; omega⟩
            rw [List.mem_cons, not_or]
            exact ⟨by decide, printable⟩
        | nul _ _ _ => decide
        | hex _ _ => decide
        | esc _ _ => decide
      rw [List.mem_append, not_or, List.length_append, List.length_cons]
      exact ⟨⟨own.1, ih.1⟩, by omega⟩

/-- The decoder after `\0`, which may go on with more digits. -/
def Cursor.pending : Cursor := ⟨0, ss .octal2⟩

/-- What follows a short octal sequence does not look like a part of it. -/
theorem EncodesAll.after_nul {rest : List UInt8} (h : EncodesAll misread last rest encoded)
    (apart : iswoctal ((rest.map UInt8.toNat).headD last) = false) (more : rest ≠ [])
    : decodeRun Flags.none Cursor.pending encoded
      = after [0] (decodeRun Flags.none (Cursor.ground 0) encoded) := by
  cases rest with
  | nil => exact absurd rfl more
  | cons c rest =>
      obtain ⟨first, tail, rfl, start⟩ := h.head
      have other : isoctal first = false := by
        rcases start with rfl | rfl
        · have bound := first.toNat_lt
          simp only [List.map_cons, List.headD_cons, iswoctal, Nat.mod_eq_of_lt bound] at apart
          simpa [isoctal, UInt8.le_iff_toNat_le] using apart
        · decide
      exact decodeRun_push (by simp [unvis, Cursor.pending, ss, other]) tail

/-- A string without misread characters is read back. -/
theorem EncodesAll.reads (h : EncodesAll misread last src encoded) (good : ∀ c ∈ src, ¬ misread c)
    (t : UInt8)
    : ∃ out cursor, decodeRun Flags.none (Cursor.ground t) encoded = some (out, cursor)
      ∧ out ++ cursor.finish = src := by
  induction h generalizing t with
  | nil => exact ⟨[], Cursor.ground t, rfl, rfl⟩
  | @cons c rest encoded encodedRest first later ih =>
      rw [List.forall_mem_cons] at good
      have goesOn {t' : UInt8}
          (run : decodeRun Flags.none (Cursor.ground t) encoded = some ([c], Cursor.ground t'))
          : ∃ out cursor, decodeRun Flags.none (Cursor.ground t) (encoded ++ encodedRest)
              = some (out, cursor)
            ∧ out ++ cursor.finish = c :: rest := by
        obtain ⟨out, cursor, run', same⟩ := ih good.2 t'
        exact ⟨c :: out, cursor, by rw [decodeRun_append run, run']; rfl, by simp [same]⟩
      cases first with
      | raw _ plain _ => exact goesOn (decodeRun_raw plain t)
      | escaped _ reads => exact goesOn (by rw [decodeRun_escape, reads.1])
      | nul _ zero apart =>
          have run : decodeRun Flags.none (Cursor.ground t) [byte (chr '\\'), byte (chr '0')]
              = some ([], Cursor.pending) := by
            rw [decodeRun_escape]
            rfl
          rw [decodeRun_append run, after_nil]
          by_cases more : rest = []
          · subst more
            cases later
            exact ⟨[], Cursor.pending, rfl, by rw [zero]; rfl⟩
          · obtain ⟨out, cursor, run', same⟩ := ih good.2 0
            rw [later.after_nul apart more, run']
            exact ⟨0 :: out, cursor, rfl, by simp [same, zero]⟩
      | hex bad _ => exact absurd bad good.1
      | esc bad _ => exact absurd bad good.1

/-- Where the decoder can be between the encodings of two characters. -/
inductive Boundary : Cursor → Prop
  | ground (t : UInt8) : Boundary (Cursor.ground t)
  | octal2 (t : UInt8) : Boundary ⟨t, ss .octal2⟩
  | octal3 (t : UInt8) : Boundary ⟨t, ss .octal3⟩
  | hex (t : UInt8) : Boundary ⟨t, ss .hex⟩
  | hex2 (t : UInt8) : Boundary ⟨t, ss .hex2⟩

/-- How many characters the sequence read so far can still give. -/
def Cursor.due (cursor : Cursor) : Nat := if cursor.state.mode = .ground then 0 else 1

theorem Cursor.length_finish_le (cursor : Cursor) : cursor.finish.length ≤ cursor.due := by
  obtain ⟨t, mode, index⟩ := cursor
  cases mode <;> simp [Cursor.finish, Cursor.due, unvisEnd]

/-- A run emits no more than `n` characters, counting those still due on either side. -/
def AtMost (n : Nat) (cursor : Cursor) (result : Option (List UInt8 × Cursor)) : Prop :=
  ∀ out cursor', result = some (out, cursor')
    → Boundary cursor' ∧ out.length + cursor'.due ≤ cursor.due + n

/-- A character by itself. -/
theorem feed_atMost {cursor : Cursor} (h : Boundary cursor) {c : UInt8}
    (plain : c.toNat ≠ chr '\\')
    : AtMost 1 cursor (feed Flags.none cursor c) := by
  intro out cursor' step
  cases h with
  | ground t =>
      simp [feed, unvis, Cursor.ground, ss, Flags.none, plain] at step
      obtain ⟨rfl, rfl⟩ := step
      exact ⟨.ground _, by simp [Cursor.due]⟩
  | octal2 t =>
      cases digit : isoctal c with
      | true =>
          simp [feed, unvis, ss, digit] at step
          obtain ⟨rfl, rfl⟩ := step
          exact ⟨.octal3 _, by simp [Cursor.due, ss]⟩
      | false =>
          simp [feed, unvis, ss, digit, Flags.none, plain] at step
          obtain ⟨rfl, rfl⟩ := step
          exact ⟨.ground _, by simp [Cursor.due, ss]⟩
  | octal3 t =>
      cases digit : isoctal c with
      | true =>
          simp [feed, unvis, ss, digit] at step
          obtain ⟨rfl, rfl⟩ := step
          exact ⟨.ground _, by simp [Cursor.due, ss]⟩
      | false =>
          simp [feed, unvis, ss, digit, Flags.none, plain] at step
          obtain ⟨rfl, rfl⟩ := step
          exact ⟨.ground _, by simp [Cursor.due, ss]⟩
  | hex t =>
      cases digit : isxdigit c.toNat with
      | true =>
          simp [feed, unvis, ss, digit] at step
          obtain ⟨rfl, rfl⟩ := step
          exact ⟨.hex2 _, by simp [Cursor.due, ss]⟩
      | false => simp [feed, unvis, ss, digit] at step
  | hex2 t =>
      cases digit : isxdigit c.toNat with
      | true =>
          simp [feed, unvis, ss, digit] at step
          obtain ⟨rfl, rfl⟩ := step
          exact ⟨.ground _, by simp [Cursor.due, ss]⟩
      | false =>
          simp [feed, unvis, ss, digit, Flags.none, plain] at step
          obtain ⟨rfl, rfl⟩ := step
          exact ⟨.ground _, by simp [Cursor.due, ss]⟩

/-- An escape sequence gives one character more than was due, and none can start in the middle
of `\x`.
-/
theorem escape_atMost {cursor : Cursor} (h : Boundary cursor) {tail : List UInt8}
    (one : AtMost 1 (Cursor.ground 0) (decodeRun Flags.none Cursor.escape tail))
    : AtMost 1 cursor (decodeRun Flags.none cursor (byte (chr '\\') :: tail)) := by
  intro out cursor' run
  have pushed (t : UInt8) (push : decodeRun Flags.none cursor (byte (chr '\\') :: tail)
      = after [t] (decodeRun Flags.none (Cursor.ground t) (byte (chr '\\') :: tail)))
      (due : cursor.due = 1)
      : Boundary cursor' ∧ out.length + cursor'.due ≤ cursor.due + 1 := by
    rw [push, decodeRun_escape] at run
    obtain ⟨⟨out', cursor''⟩, rest, same⟩ := Option.map_eq_some_iff.mp run
    obtain ⟨rfl, rfl⟩ := Prod.mk.inj same
    obtain ⟨boundary, bound⟩ := one out' cursor'' rest
    have none : (Cursor.ground 0).due = 0 := rfl
    refine ⟨boundary, ?_⟩
    simp only [List.cons_append, List.nil_append, List.length_cons]
    omega
  cases h with
  | ground t =>
      rw [decodeRun_escape] at run
      exact one out cursor' run
  | octal2 t => exact pushed t (decodeRun_push rfl tail) rfl
  | octal3 t => exact pushed t (decodeRun_push rfl tail) rfl
  | hex t => exact nomatch run
  | hex2 t => exact pushed t (decodeRun_push rfl tail) rfl

theorem Encodes.atMost {bad : Prop} {c : UInt8} {next : Nat} (h : Encodes bad c next encoded)
    {cursor : Cursor} (boundary : Boundary cursor)
    : AtMost 1 cursor (decodeRun Flags.none cursor encoded) := by
  cases h with
  | raw _ plain _ =>
      intro out cursor' run
      simp only [decodeRun] at run
      split at run
      · cases run
      case h_2 out₁ cursor₁ step =>
        obtain ⟨rfl, rfl⟩ : out₁ = out ∧ cursor₁ = cursor' := by simpa using run
        exact feed_atMost boundary plain out₁ cursor₁ step
  | escaped _ reads =>
      refine escape_atMost boundary ?_
      rw [reads.1]
      rintro out cursor' ⟨rfl, rfl⟩
      exact ⟨.ground _, Nat.le_refl 1⟩
  | nul _ _ _ =>
      refine escape_atMost boundary ?_
      rintro out cursor' ⟨rfl, rfl⟩
      exact ⟨.octal2 _, by decide⟩
  | hex _ _ =>
      refine escape_atMost boundary ?_
      rintro out cursor' ⟨rfl, rfl⟩
      exact ⟨.hex _, by decide⟩
  | esc _ _ =>
      refine escape_atMost boundary ?_
      rintro out cursor' ⟨rfl, rfl⟩
      exact ⟨.ground _, by decide⟩

/-- No string decodes to more characters than were encoded. -/
theorem EncodesAll.atMost (h : EncodesAll misread last src encoded) {cursor : Cursor}
    (boundary : Boundary cursor)
    : AtMost src.length cursor (decodeRun Flags.none cursor encoded) := by
  induction h generalizing cursor with
  | nil =>
      rintro out cursor' ⟨rfl, rfl⟩
      exact ⟨boundary, by simp⟩
  | @cons c rest encoded encodedRest first later ih =>
      intro out cursor' run
      rcases step : decodeRun Flags.none cursor encoded with _ | ⟨out₁, cursor₁⟩
      · rw [decodeRun_append_none step] at run
        cases run
      · obtain ⟨boundary₁, bound₁⟩ := first.atMost boundary out₁ cursor₁ step
        rw [decodeRun_append step] at run
        obtain ⟨⟨out₂, cursor₂⟩, rest, same⟩ := Option.map_eq_some_iff.mp run
        obtain ⟨rfl, rfl⟩ := Prod.mk.inj same
        obtain ⟨boundary₂, bound₂⟩ := ih boundary₁ out₂ cursor₂ rest
        refine ⟨boundary₂, ?_⟩
        simp only [List.length_append, List.length_cons]
        omega

/-- What follows `\x` is lost, or makes the decoder fail. -/
theorem EncodesAll.hex_shorter {rest : List UInt8} (h : EncodesAll misread last rest encoded)
    {out : List UInt8} {cursor : Cursor}
    (run : decodeRun Flags.none ⟨0, ss .hex⟩ encoded = some (out, cursor))
    : (out ++ cursor.finish).length ≤ rest.length := by
  cases h with
  | nil =>
      obtain ⟨rfl, rfl⟩ : [] = out ∧ ⟨0, ss .hex⟩ = cursor := by simpa [decodeRun] using run
      exact Nat.le_refl 0
  | @cons c rest encoded encodedRest first later =>
      cases first with
      | raw _ plain _ =>
          cases digit : isxdigit c.toNat with
          | false => simp [decodeRun, feed, unvis, ss, digit] at run
          | true =>
              have step : decodeRun Flags.none ⟨0, ss .hex⟩ [c] = some ([], ⟨xtod c, ss .hex2⟩) := by
                simp [decodeRun, feed, unvis, ss, digit]
              rw [decodeRun_append step, after_nil] at run
              obtain ⟨-, bound⟩ := later.atMost (.hex2 _) out cursor run
              have ending := cursor.length_finish_le
              have due : Cursor.due ⟨xtod c, ss .hex2⟩ = 1 := rfl
              rw [List.length_append, List.length_cons]
              omega
      | escaped _ _ => cases run
      | nul _ _ _ => cases run
      | hex _ _ => cases run
      | esc _ _ => cases run

/-- A string with a misread character is not read back. -/
theorem EncodesAll.not_reads (h : EncodesAll misread last src encoded)
    (bad : ∃ c ∈ src, misread c) (t : UInt8) {out : List UInt8} {cursor : Cursor}
    (run : decodeRun Flags.none (Cursor.ground t) encoded = some (out, cursor))
    : out ++ cursor.finish ≠ src := by
  induction h generalizing t out with
  | nil => simp at bad
  | @cons c rest encoded encodedRest first later ih =>
      have later_bad (good : ¬ misread c) : ∃ c ∈ rest, misread c := by
        obtain ⟨c', member, wrong⟩ := bad
        rcases List.mem_cons.mp member with rfl | later
        · exact absurd wrong good
        · exact ⟨c', later, wrong⟩
      -- Up to the first misread character the output agrees, so the rest must not.
      have goesOn {t' : UInt8} (good : ¬ misread c)
          (step : decodeRun Flags.none (Cursor.ground t) encoded = some ([c], Cursor.ground t'))
          : out ++ cursor.finish ≠ c :: rest := by
        rw [decodeRun_append step] at run
        obtain ⟨⟨out', cursor'⟩, run', same⟩ := Option.map_eq_some_iff.mp run
        obtain ⟨rfl, rfl⟩ := Prod.mk.inj same
        intro agrees
        exact ih (later_bad good) t' run' (List.cons.inj agrees).2
      cases first with
      | raw good plain _ => exact goesOn good (decodeRun_raw plain t)
      | escaped good reads => exact goesOn good (by rw [decodeRun_escape, reads.1])
      | nul good zero apart =>
          have step : decodeRun Flags.none (Cursor.ground t) [byte (chr '\\'), byte (chr '0')]
              = some ([], Cursor.pending) := by
            rw [decodeRun_escape]
            rfl
          have more : rest ≠ [] := by
            rintro rfl
            simpa using later_bad good
          rw [decodeRun_append step, after_nil, later.after_nul apart more] at run
          obtain ⟨⟨out', cursor'⟩, run', same⟩ := Option.map_eq_some_iff.mp run
          obtain ⟨rfl, rfl⟩ := Prod.mk.inj same
          intro agrees
          exact ih (later_bad good) 0 run' (List.cons.inj agrees).2
      | hex _ _ =>
          have step : decodeRun Flags.none (Cursor.ground t) [byte (chr '\\'), byte (chr 'x')]
              = some ([], ⟨0, ss .hex⟩) := by
            rw [decodeRun_escape]
            rfl
          rw [decodeRun_append step, after_nil] at run
          have shorter := later.hex_shorter run
          intro agrees
          rw [agrees, List.length_cons] at shorter
          omega
      | esc _ letter =>
          have step : decodeRun Flags.none (Cursor.ground t) [byte (chr '\\'), byte (chr 'E')]
              = some ([0x1b], Cursor.ground 0x1b) := by
            rw [decodeRun_escape]
            rfl
          rw [decodeRun_append step] at run
          obtain ⟨⟨out', cursor'⟩, run', same⟩ := Option.map_eq_some_iff.mp run
          obtain ⟨rfl, rfl⟩ := Prod.mk.inj same
          intro agrees
          rw [← (List.cons.inj agrees).1] at letter
          exact absurd letter (by decide)

end BSDLibC.Vis
