import BSDLibC.Shquote.Quote
import Mathlib.Data.List.Induction
import Mathlib.Data.List.TakeWhile

/-! The shell reads what `shquote` writes as one word, the string that was quoted.
-/

namespace BSDLibC.Shquote
open BSDLibC.Bytes

/-- `PUT` of several bytes. -/
def putAll (output : Output) (xs : List UInt8) : Option Output := xs.foldlM put output

theorem putAll_cons (output : Output) (x : UInt8) (xs : List UInt8)
    : putAll output (x :: xs) = (put output x).bind (putAll · xs) := by
  rw [putAll, List.foldlM_cons]
  rfl

/-- The byte that is put if the condition holds. -/
def when (condition : Bool) (x : UInt8) : List UInt8 := if condition then [x] else []

theorem putIf_eq (condition : Bool) (output : Output) (x : UInt8)
    : putIf condition output x = putAll output (when condition x) := by
  cases condition with
  | false => rfl
  | true => simp [putIf, putAll, when]

theorem putAll_append (output : Output) (xs ys : List UInt8)
    : putAll output (xs ++ ys) = (putAll output xs).bind (putAll · ys) := by
  rw [putAll, List.foldlM_append]
  rfl

/-- Every byte counts, whether it fits or not. -/
theorem put_rv {output next : Output} {x : UInt8} (h : put output x = some next)
    : next.rv = output.rv + 1 := by
  rw [put] at h
  split at h
  · split at h <;>
      · simp only [Option.bind_eq_bind, Option.bind_eq_some_iff] at h
        obtain ⟨buffer, -, h⟩ := h
        cases h
        rfl
  · cases h
    rfl

/-- Quotes as they stand outside of quotes. -/
def escapes (quotes : List UInt8) : List UInt8 := quotes.flatMap fun _ => [backslash, quote]

theorem quotes_eq (arg : List UInt8) (output : Output)
    : shquote.quotes arg output
      = (putAll output (escapes (arg.takeWhile (· == quote)))).map
          (arg.dropWhile (· == quote), ·) := by
  induction arg generalizing output with
  | nil => rfl
  | cons c arg ih =>
      rw [shquote.quotes]
      split
      next other => simp [other, escapes, putAll]
      next same =>
        obtain rfl := not_not.mp same
        simp only [Option.bind_eq_bind, ih, List.takeWhile_cons, List.dropWhile_cons, escapes,
          beq_self_eq_true, if_true, List.flatMap_cons, List.cons_append, List.nil_append,
          putAll_cons]
        cases put output backslash with
        | none => rfl
        | some next =>
            simp only [Option.bind_some]
            cases put next quote <;> rfl

-----------------------------------------------------------------------------------------
-- The shell on the output
-----------------------------------------------------------------------------------------

/-- Escaped quotes are quotes of the word. -/
theorem shellWords_escapes (quotes word line : List UInt8) (all : ∀ c ∈ quotes, c = quote)
    : shellWords.from .word word (escapes quotes ++ line)
      = shellWords.from .word (word ++ quotes) line := by
  induction quotes generalizing word with
  | nil => simp [escapes]
  | cons c quotes ih =>
      obtain rfl : c = quote := all c (by simp)
      calc
        shellWords.from .word word (escapes (quote :: quotes) ++ line)
            = shellWords.from .word (word ++ [quote]) (escapes quotes ++ line) := rfl
        _ = shellWords.from .word (word ++ [quote] ++ quotes) line :=
            ih (word ++ [quote]) fun c mem => all c (by simp [mem])
        _ = shellWords.from .word (word ++ quote :: quotes) line := by
            rw [List.append_assoc]
            rfl

/-- What the loop of `shquote` writes, with or without output before it, and its last `lastc`. -/
def Writes (arg : List UInt8) (lastc : UInt8) (started : Bool) (out : List UInt8) (last : UInt8)
    : Prop :=
  ∀ output : Output, (output.rv != 0) = started
    → shquote.loop arg lastc output = (putAll output out).map (last, ·)

/-- What comes between a quote of the string and the next byte that is none. -/
def interlude (started : Bool) (arg : List UInt8) : List UInt8 :=
  when started quote ++ backslash :: quote :: escapes (arg.takeWhile (· == quote))
    ++ when (!(arg.dropWhile (· == quote)).isEmpty) quote

theorem started_of_put {output next : Output} {x : UInt8} (h : put output x = some next)
    : (next.rv != 0) = true := by
  rw [put_rv h]
  rfl

theorem putAll_rv {output next : Output} {xs : List UInt8} (h : putAll output xs = some next)
    : next.rv = output.rv + xs.length := by
  induction xs generalizing output with
  | nil =>
      cases h
      rfl
  | cons x xs ih =>
      rw [putAll_cons] at h
      obtain ⟨middle, first, rest⟩ := Option.bind_eq_some_iff.mp h
      rw [ih rest, put_rv first, List.length_cons]
      omega

theorem writes_nil (lastc : UInt8) (started : Bool) : Writes [] lastc started [] lastc := by
  intro output _
  rw [shquote.loop]
  rfl

theorem writes_other {arg out : List UInt8} {c last : UInt8} (lastc : UInt8) (started : Bool)
    (other : c ≠ quote) (rest : Writes arg c true out last)
    : Writes (c :: arg) lastc started (c :: out) last := by
  intro output _
  rw [shquote.loop, if_neg other, putAll_cons]
  cases h : put output c with
  | none => rfl
  | some next => exact rest next (started_of_put h)

/-- The loop as one function of the quotes in a row and what comes after them. -/
theorem loop_quote (arg : List UInt8) (lastc : UInt8) (output : Output)
    : shquote.loop (quote :: arg) lastc output
      = (putAll output (interlude (output.rv != 0) arg)).bind
          (shquote.loop (arg.dropWhile (· == quote)) quote) := by
  rw [shquote.loop, if_pos rfl, interlude, List.append_assoc, putAll_append, putIf_eq]
  cases putAll output (when (output.rv != 0) quote) with
  | none => rfl
  | some first =>
      simp only [Option.bind_eq_bind, Option.bind_some, List.cons_append, putAll_cons]
      cases put first backslash with
      | none => rfl
      | some second =>
          simp only [Option.bind_some]
          cases put second quote with
          | none => rfl
          | some third =>
              simp only [Option.bind_some]
              split
              next none =>
                rw [quotes_eq, Option.map_eq_none_iff] at none
                rw [putAll_append, none]
                rfl
              next rest fourth some =>
                rw [quotes_eq, Option.map_eq_some_iff] at some
                obtain ⟨_, escaped, same⟩ := some
                cases same
                rw [putAll_append, escaped, Option.bind_some, putIf_eq]
                cases putAll fourth (when (!(arg.dropWhile (· == quote)).isEmpty) quote) <;> rfl

theorem writes_quote {arg out : List UInt8} {last : UInt8} (lastc : UInt8) (started : Bool)
    (rest : Writes (arg.dropWhile (· == quote)) quote true out last)
    : Writes (quote :: arg) lastc started (interlude started arg ++ out) last := by
  intro output rv
  rw [loop_quote, rv, putAll_append]
  cases h : putAll output (interlude started arg) with
  | none => rfl
  | some next =>
      refine rest next ?_
      rw [putAll_rv h, bne_iff_ne, interlude]
      simp

/-- What the loop writes leads the shell from a word `before` to the string behind it, and is made
of the bytes of the string and of quotes.
-/
structure ReadFrom (mode : Mode) (arg out : List UInt8) (last : UInt8) : Prop where
  reads (before : List UInt8)
    : shellWords.from mode before (out ++ when (last != quote) quote) = some [before ++ arg]
  bytes : ∀ c ∈ out, c = quote ∨ c = backslash ∨ c ∈ arg

theorem mem_when {condition : Bool} {x c : UInt8} (mem : c ∈ when condition x) : c = x := by
  cases condition with
  | false => cases mem
  | true => exact List.mem_singleton.mp mem

theorem mem_interlude {started : Bool} {arg : List UInt8} {c : UInt8}
    (mem : c ∈ interlude started arg)
    : c = quote ∨ c = backslash := by
  simp only [interlude, escapes, List.mem_append, List.mem_cons, List.mem_flatMap,
    List.not_mem_nil, or_false] at mem
  rcases mem with (before | rfl | rfl | ⟨_, -, rfl | rfl⟩) | after
  · exact Or.inl (mem_when before)
  · exact Or.inr rfl
  · exact Or.inl rfl
  · exact Or.inr rfl
  · exact Or.inl rfl
  · exact Or.inl (mem_when after)

/-- The shell on a row of quotes, from outside of quotes. -/
theorem readFrom_quotes {mode : Mode} {arg out : List UInt8} {last : UInt8}
    (outside : mode = .blank ∨ mode = .word)
    (rest : arg.dropWhile (· == quote) = [] → out = [] ∧ last = quote)
    (more : arg.dropWhile (· == quote) ≠ []
      → ReadFrom .quoted (arg.dropWhile (· == quote)) out last)
    : ReadFrom mode (quote :: arg) (interlude false arg ++ out) last := by
  constructor
  case bytes =>
    intro c mem
    rcases List.mem_append.mp mem with between | behind
    · exact (mem_interlude between).imp_right Or.inl
    · by_cases empty : arg.dropWhile (· == quote) = []
      · rw [(rest empty).1] at behind
        cases behind
      · refine ((more empty).bytes c behind).imp_right (Or.imp_right fun inside => ?_)
        exact List.mem_cons_of_mem _ ((List.dropWhile_suffix _).subset inside)
  intro before
  have all : ∀ c ∈ arg.takeWhile (· == quote), c = quote := by
    intro c mem
    simpa using List.mem_takeWhile_imp mem
  have whole := List.takeWhile_append_dropWhile (p := (· == quote)) (l := arg)
  have first (line : List UInt8)
      : shellWords.from mode before (backslash :: quote :: line)
        = shellWords.from .word (before ++ [quote]) line := by
    rcases outside with rfl | rfl <;> rfl
  rw [interlude, when, if_neg Bool.false_ne_true, List.nil_append, List.append_assoc,
    List.append_assoc, List.cons_append, List.cons_append, first, shellWords_escapes _ _ _ all]
  by_cases empty : arg.dropWhile (· == quote) = []
  · obtain ⟨rfl, rfl⟩ := rest empty
    rw [empty, List.append_nil] at whole
    rw [empty, whole]
    simp [when, shellWords.from]
  · have opens : when (!(arg.dropWhile (· == quote)).isEmpty) quote = [quote] := by
      rw [when, if_pos (by simpa using empty)]
    rw [opens]
    exact ((more empty).reads _).trans (by simp [whole])

/-- A row of quotes, when what comes after it is read back. -/
theorem quotes_read (arg : List UInt8)
    (shorter : ∀ rest : List UInt8, rest.length ≤ arg.length → rest ≠ []
      → ∃ out last, Writes rest quote true out last ∧ ReadFrom .quoted rest out last)
    : ∃ out last, (∀ lastc started, Writes (quote :: arg) lastc started
        (interlude started arg ++ out) last)
      ∧ ∀ mode, mode = .blank ∨ mode = .word
        → ReadFrom mode (quote :: arg) (interlude false arg ++ out) last := by
  by_cases empty : arg.dropWhile (· == quote) = []
  · have writes := writes_nil quote true
    rw [← empty] at writes
    refine ⟨[], quote, fun lastc started => ?_, fun mode outside => ?_⟩
    · have := writes_quote lastc started writes
      rwa [empty] at this
    · exact readFrom_quotes outside (fun _ => ⟨rfl, rfl⟩) fun more => absurd empty more
  · obtain ⟨out, last, writes, reads⟩ :=
      shorter (arg.dropWhile (· == quote)) (List.dropWhile_suffix _).length_le empty
    exact ⟨out, last, fun lastc started => writes_quote lastc started writes, fun mode outside =>
      readFrom_quotes outside (fun none => absurd none empty) fun _ => reads⟩

/-- The loop from inside quotes. -/
theorem loop_quoted (arg : List UInt8) (lastc : UInt8) (inside : arg = [] → lastc ≠ quote)
    : ∃ out last, Writes arg lastc true out last ∧ ReadFrom .quoted arg out last := by
  induction h : arg.length using Nat.strong_induction_on generalizing arg lastc with
  | _ n ih =>
      subst h
      cases arg with
      | nil =>
          refine ⟨[], lastc, writes_nil lastc true, fun before => ?_, by simp⟩
          simp [when, inside rfl, shellWords.from]
      | cons c arg =>
          by_cases other : c = quote
          · subst other
            obtain ⟨out, last, writes, reads⟩ := quotes_read arg fun rest length some =>
              ih rest.length (Nat.lt_succ_of_le length) rest quote (fun none => absurd none some) rfl
            have closed := reads .word (Or.inr rfl)
            refine ⟨_, last, writes lastc true, closed.reads, fun c mem => ?_⟩
            rcases List.mem_append.mp mem with between | behind
            · exact (mem_interlude between).imp_right Or.inl
            · exact closed.bytes c (List.mem_append_right _ behind)
          · obtain ⟨out, last, writes, reads⟩ := ih arg.length (by simp) arg c (fun _ => other) rfl
            refine ⟨c :: out, last, writes_other lastc true other writes, fun before => ?_, ?_⟩
            · rw [List.cons_append, shellWords.from, if_neg other, reads.reads, List.append_assoc]
              rfl
            · intro b mem
              rcases List.mem_cons.mp mem with rfl | behind
              · simp
              · exact (reads.bytes b behind).imp_right (Or.imp_right (List.mem_cons_of_mem _))

/-- The opening quote, the loop, the closing quote and the NUL in one. -/
theorem shquote_eq {arg out : List UInt8} {last : UInt8} (buffer : List UInt8)
    (writes : Writes arg 0 (arg.head? != some quote) out last)
    : shquote arg buffer
      = (putAll { buffer := buffer, buf := 0, bufsize := buffer.length, rv := 0 }
          (when (arg.head? != some quote) quote ++ out ++ when (last != quote) quote ++ [0])).map
          fun output => (output.rv - 1, output.buffer) := by
  rw [shquote, putIf_eq, putAll_append, putAll_append, putAll_append]
  cases h : putAll { buffer := buffer, buf := 0, bufsize := buffer.length, rv := 0 }
      (when (arg.head? != some quote) quote) with
  | none => rfl
  | some opened =>
      have started : (opened.rv != 0) = (arg.head? != some quote) := by
        rw [putAll_rv h, when]
        cases arg.head? != some quote <;> rfl
      simp only [Option.bind_eq_bind, Option.bind_some, writes opened started]
      cases putAll opened out with
      | none => rfl
      | some looped =>
          simp only [Option.map_some, Option.bind_some, putIf_eq]
          cases putAll looped (when (last != quote) quote) with
          | none => rfl
          | some closed =>
              simp only [Option.bind_some, putAll, List.foldlM_cons, List.foldlM_nil]
              cases put closed 0 <;> rfl

/-- All that `shquote` puts before the NUL. -/
theorem shquote_writes (arg : List UInt8) (text : 0 ∉ arg)
    : ∃ out, shellWords out = some [arg] ∧ 0 ∉ out
      ∧ ∀ buffer, shquote arg buffer
        = (putAll { buffer := buffer, buf := 0, bufsize := buffer.length, rv := 0 }
            (out ++ [0])).map fun output => (output.rv - 1, output.buffer) := by
  have nonzero {out : List UInt8} {last : UInt8} (before : Bool)
      (bytes : ∀ c ∈ out, c = quote ∨ c = backslash ∨ c ∈ arg)
      : 0 ∉ when before quote ++ out ++ when (last != quote) quote := by
    simp only [List.mem_append, not_or]
    refine ⟨⟨fun mem => absurd (mem_when mem) (by decide), fun mem => ?_⟩,
      fun mem => absurd (mem_when mem) (by decide)⟩
    rcases bytes 0 mem with zero | zero | zero
    · exact absurd zero (by decide)
    · exact absurd zero (by decide)
    · exact text zero
  by_cases first : arg.head? = some quote
  · obtain ⟨arg, rfl⟩ := List.head?_eq_some_iff.mp first
    obtain ⟨out, last, writes, reads⟩ := quotes_read arg fun rest _ some =>
      loop_quoted rest quote fun none => absurd none some
    have read := reads .blank (Or.inl rfl)
    exact ⟨interlude false arg ++ out ++ when (last != quote) quote,
      read.reads [], nonzero false read.bytes, fun buffer => shquote_eq buffer (writes 0 false)⟩
  · have opened : (arg.head? != some quote) = true := by simpa using first
    obtain ⟨out, last, writes, read⟩ := loop_quoted arg 0 fun _ => by decide
    refine ⟨quote :: out ++ when (last != quote) quote, read.reads [],
      nonzero true read.bytes, fun buffer => ?_⟩
    rw [← opened] at writes
    rw [shquote_eq buffer writes, opened]
    rfl

-----------------------------------------------------------------------------------------
-- The buffer
-----------------------------------------------------------------------------------------

/-- The variables after bytes of a text, as far as they fit with a NUL behind them. -/
def filled (buffer out : List UInt8) : Output :=
  if out.length < buffer.length then
    ⟨out ++ buffer.drop out.length, out.length, buffer.length - out.length, out.length⟩
  else if buffer = [] then
    ⟨[], 0, 0, out.length⟩
  else
    ⟨out.take (buffer.length - 1) ++ [0], buffer.length - 1, 0, out.length⟩

theorem put_filled (buffer out : List UInt8) {x : UInt8} (nonzero : x ≠ 0)
    : put (filled buffer out) x = some (filled buffer (out ++ [x])) := by
  rw [filled]
  split
  next fits =>
    obtain ⟨old, rest, tail⟩ : ∃ old rest, buffer.drop out.length = old :: rest :=
      List.exists_cons_of_length_pos (by rw [List.length_drop]; omega)
    have left : buffer.length - out.length = rest.length + 1 := by
      rw [← List.length_drop, tail, List.length_cons]
    have next : buffer.drop (out.length + 1) = rest := by
      rw [← List.drop_drop, tail, List.drop_one, List.tail_cons]
    rw [tail, left, put]
    simp only [Nat.succ_ne_zero, ne_eq, not_false_eq_true, if_true, store_append rfl]
    cases rest with
    | nil =>
        have short : ¬ (out ++ [x]).length < buffer.length := by
          simp at left ⊢
          omega
        have some : buffer ≠ [] := List.ne_nil_of_length_pos (by omega)
        have last : buffer.length - 1 = out.length := by
          simp at left
          omega
        rw [filled, if_neg short, if_neg some, last]
        simp [nonzero]
    | cons more rest =>
        have long : (out ++ [x]).length < buffer.length := by
          simp at left ⊢
          omega
        have behind : buffer.length - (out.length + 1) = rest.length + 1 := by
          simp at left
          omega
        simp only [filled, long, if_true]
        simp [next, behind]
  next full =>
    have longer : ¬ (out ++ [x]).length < buffer.length := by
      simp
      omega
    split
    next empty =>
      rw [filled, if_neg longer, if_pos empty]
      simp [put]
    next some =>
      have taken : (out ++ [x]).take (buffer.length - 1) = out.take (buffer.length - 1) :=
        List.take_append_of_le_length (by omega)
      rw [filled, if_neg longer, if_neg some, taken]
      simp [put]

theorem putAll_filled (buffer out : List UInt8) (text : 0 ∉ out)
    : putAll { buffer := buffer, buf := 0, bufsize := buffer.length, rv := 0 } out
      = some (filled buffer out) := by
  induction out using List.reverseRecOn with
  | nil =>
      cases buffer <;> simp [putAll, filled]
  | append_singleton out x ih =>
      simp only [List.mem_append, List.mem_singleton, not_or] at text
      rw [putAll_append, ih text.1, Option.bind_some, putAll_cons,
        put_filled buffer out (Ne.symm text.2)]
      rfl

/-- `shquote` writes one word that the shell reads as the string. It counts all of its bytes, and a
buffer gets as many of them as fit with a NUL behind them and nothing else.
-/
theorem shquote_spec (arg : List UInt8) (text : 0 ∉ arg)
    : ∃ out, shellWords out = some [arg] ∧ 0 ∉ out
      ∧ ∀ buffer, shquote arg buffer
        = some (out.length, if buffer = [] then [] else
            out.take (buffer.length - 1) ++ 0 :: buffer.drop (out.length + 1)) := by
  obtain ⟨out, reads, nonzero, writes⟩ := shquote_writes arg text
  refine ⟨out, reads, nonzero, fun buffer => ?_⟩
  rw [writes, putAll_append, putAll_filled buffer out nonzero, Option.bind_some, putAll_cons]
  simp only [putAll, List.foldlM_nil, Option.pure_def, Option.bind_fun_some]
  rw [filled]
  split
  next fits =>
    obtain ⟨old, rest, tail⟩ : ∃ old rest, buffer.drop out.length = old :: rest :=
      List.exists_cons_of_length_pos (by rw [List.length_drop]; omega)
    have left : buffer.length - out.length ≠ 0 := by omega
    have next : buffer.drop (out.length + 1) = rest := by
      rw [← List.drop_drop, tail, List.drop_one, List.tail_cons]
    have some : buffer ≠ [] := List.ne_nil_of_length_pos (by omega)
    have whole : out.take (buffer.length - 1) = out := List.take_of_length_le (by omega)
    have room : ¬ buffer.length - out.length < 1 := by omega
    simp [put, tail, left, store_append rfl, some, whole, next, room]
  next full =>
    have none : buffer.drop (out.length + 1) = [] := List.drop_of_length_le (by omega)
    split
    next empty => simp [put]
    next some => simp [put, none]

/-- An argument with a quote inside and one at its end. -/
theorem shquote_spec_quotes
    : ∃ out, shellWords out = some [[0x69, 0x74, quote, 0x73, quote]] ∧ 0 ∉ out
      ∧ ∀ buffer, shquote [0x69, 0x74, quote, 0x73, quote] buffer
        = some (out.length, if buffer = [] then [] else
            out.take (buffer.length - 1) ++ 0 :: buffer.drop (out.length + 1)) :=
  shquote_spec _ (by decide)

end BSDLibC.Shquote
