import BSDLibC.Bytes.Buffer

/-! `shquote`, which quotes a string for the shell, and the shell's own reading of quotes. A string
is given without its NUL.
-/

namespace BSDLibC.Shquote
open BSDLibC.Bytes

/-- `'\''` -/
def quote : UInt8 := 0x27

/-- `'\\'` -/
def backslash : UInt8 := 0x5c

-----------------------------------------------------------------------------------------
-- The function
-----------------------------------------------------------------------------------------

/-- The variables that `PUT` changes, and the caller's buffer. -/
structure Output where
  buffer : List UInt8
  buf : Nat
  bufsize : Nat
  rv : Nat

/-- `PUT` -/
def put (output : Output) (x : UInt8) : Option Output :=
  let output := { output with rv := output.rv + 1 }
  if output.bufsize ≠ 0 then
    if output.bufsize < 1 ∨ (output.bufsize = 1 ∧ x ≠ 0) then do
      let buffer ← store output.buffer output.buf 0
      return { output with buffer := buffer, bufsize := 0 }
    else do
      let buffer ← store output.buffer output.buf x
      return { output with buffer := buffer, buf := output.buf + 1, bufsize := output.bufsize - 1 }
  else
    return output

/-- `if (condition) PUT(x);` -/
def putIf (condition : Bool) (output : Output) (x : UInt8) : Option Output :=
  if condition then put output x else some output

/-- The inner loop of `shquote`, over the quotes that follow a quote. -/
def shquote.quotes : List UInt8 → Output → Option (List UInt8 × Output)
  | [], output => some ([], output)
  | c :: arg, output =>
      if c ≠ quote then
        some (c :: arg, output)
      else do
        let output ← put output backslash
        let output ← put output quote
        shquote.quotes arg output

theorem shquote.quotes_length {arg rest : List UInt8} {output next : Output}
    (h : shquote.quotes arg output = some (rest, next))
    : rest.length ≤ arg.length := by
  induction arg generalizing output with
  | nil =>
      cases h
      exact Nat.le_refl _
  | cons c arg ih =>
      rw [shquote.quotes] at h
      split at h
      · cases h
        exact Nat.le_refl _
      · simp only [Option.bind_eq_bind, Option.bind_eq_some_iff] at h
        obtain ⟨_, _, _, _, h⟩ := h
        exact (ih h).trans (Nat.le_succ _)

/-- The loop of `shquote`: the variable `lastc` and the output at its end. -/
def shquote.loop (arg : List UInt8) (lastc : UInt8) (output : Output) : Option (UInt8 × Output) :=
  match arg with
  | [] => some (lastc, output)
  | c :: arg =>
      if c = quote then do
        let output ← putIf (output.rv != 0) output quote
        let output ← put output backslash
        let output ← put output quote
        match _h : shquote.quotes arg output with
        | none => none
        | some (rest, output) =>
            match putIf (!rest.isEmpty) output quote with
            | none => none
            | some output => shquote.loop rest c output
      else do
        let output ← put output c
        shquote.loop arg c output
termination_by arg.length
decreasing_by
  · exact Nat.lt_succ_of_le (shquote.quotes_length _h)
  · exact Nat.lt_succ_self _

/-- `shquote`: the result and the buffer. -/
def shquote (arg : List UInt8) (buffer : List UInt8) : Option (Nat × List UInt8) := do
  let output : Output := { buffer := buffer, buf := 0, bufsize := buffer.length, rv := 0 }
  let output ← putIf (arg.head? != some quote) output quote
  let (lastc, output) ← shquote.loop arg 0 output
  let output ← putIf (lastc != quote) output quote
  let output ← put output 0
  return (output.rv - 1, output.buffer)

-----------------------------------------------------------------------------------------
-- The shell
-----------------------------------------------------------------------------------------

/-- Where the shell stands: between words, in a word, in single quotes, or behind a backslash that
stands between words or in a word.
-/
inductive Mode
  | blank
  | word
  | quoted
  | escaped (inWord : Bool)

def newline : UInt8 := 0x0a

def blanks : List UInt8 := [0x20, 0x09]

/-- The bytes that mean something to the shell outside of quotes, other than blanks and the two
that quote.
-/
def special : List UInt8 :=
  "\n|&;<>()$`\"*?[#~=%!\x7b\x7d".toList.map fun c => UInt8.ofNat c.toNat

/-- The words of a line of literal words, where the shell stands in `mode` with `word` read so far.
There are none when a quote is left open, or when an operator or an expansion stands outside of
quotes.
-/
def shellWords.from : Mode → List UInt8 → List UInt8 → Option (List (List UInt8))
  | .blank, _, [] => some []
  | .word, word, [] => some [word]
  | .quoted, _, [] => none
  | .escaped _, _, [] => none
  | .quoted, word, c :: line =>
      if c = quote then shellWords.from .word word line
      else shellWords.from .quoted (word ++ [c]) line
  | .escaped inWord, word, c :: line =>
      if c = newline then shellWords.from (if inWord then .word else .blank) word line
      else shellWords.from .word (word ++ [c]) line
  | .blank, word, c :: line =>
      if c = quote then shellWords.from .quoted word line
      else if c = backslash then shellWords.from (.escaped false) word line
      else if c ∈ blanks then shellWords.from .blank word line
      else if c ∈ special then none
      else shellWords.from .word (word ++ [c]) line
  | .word, word, c :: line =>
      if c = quote then shellWords.from .quoted word line
      else if c = backslash then shellWords.from (.escaped true) word line
      else if c ∈ blanks then (shellWords.from .blank [] line).map (word :: ·)
      else if c ∈ special then none
      else shellWords.from .word (word ++ [c]) line

def shellWords (line : List UInt8) : Option (List (List UInt8)) := shellWords.from .blank [] line

end BSDLibC.Shquote
