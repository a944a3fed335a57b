import BSDLibC.Vis.Decode

/-! Runs of the decoder without the bookkeeping of the output buffer: what a string makes it
emit, and where it ends up. `strnunvisx` writes what such a run emits, as long as there is room.
-/

namespace BSDLibC.Vis
open BSDLibC.Ctype

/-- `t` and `state` between two characters. -/
structure Cursor where
  t : UInt8
  state : Astate
deriving DecidableEq, Repr

/-- One character: what is emitted, and the variables after it. -/
def feed (flag : Flags) (cursor : Cursor) (c : UInt8) : Option (List UInt8 × Cursor) :=
  match unvis cursor.t c cursor.state flag with
  | (t, state, .valid) => some ([t], ⟨t, state⟩)
  | (t, state, .nochar) => some ([], ⟨t, state⟩)
  | (_, _, .synbad) => none
  | (t, state, .validpush) =>
      match unvis t c state flag with
      | (t', state', .valid) => some ([t, t'], ⟨t', state'⟩)
      | (t', state', .nochar) => some ([t], ⟨t', state'⟩)
      | (_, _, _) => none

/-- The result of a run that comes after `out` was emitted. -/
def after (out : List UInt8) (result : Option (List UInt8 × Cursor)) : Option (List UInt8 × Cursor) :=
  result.map (fun (out', cursor) => (out ++ out', cursor))

@[simp] theorem after_nil (result : Option (List UInt8 × Cursor)) : after [] result = result := by
  cases result <;> rfl

@[simp] theorem after_none (out : List UInt8) : after out none = none := rfl

@[simp] theorem after_some (out out' : List UInt8) (cursor : Cursor)
    : after out (some (out', cursor)) = some (out ++ out', cursor) :=
  rfl

theorem after_after (xs ys : List UInt8) (result : Option (List UInt8 × Cursor))
    : after xs (after ys result) = after (xs ++ ys) result := by
  cases result with
  | none => rfl
  | some result => simp [after]

/-- A string of characters. -/
def decodeRun (flag : Flags) : Cursor → List UInt8 → Option (List UInt8 × Cursor)
  | cursor, [] => some ([], cursor)
  | cursor, c :: rest =>
      match feed flag cursor c with
      | none => none
      | some (out, cursor) => after out (decodeRun flag cursor rest)

/-- What the end of the input adds. -/
def Cursor.finish (cursor : Cursor) : List UInt8 :=
  if unvisEnd cursor.state = .valid then [cursor.t] else []

def Cursor.init : Cursor := ⟨0, ss .ground⟩

/-- A run over a first part goes on over the rest. -/
theorem decodeRun_append {flag : Flags} {cursor cursor' : Cursor} {xs out : List UInt8}
    (first : decodeRun flag cursor xs = some (out, cursor')) (ys : List UInt8)
    : decodeRun flag cursor (xs ++ ys) = after out (decodeRun flag cursor' ys) := by
  induction xs generalizing cursor out with
  | nil =>
      obtain ⟨rfl, rfl⟩ : [] = out ∧ cursor = cursor' := by simpa [decodeRun] using first
      simp
  | cons c rest ih =>
      simp only [List.cons_append, decodeRun] at first ⊢
      split at first
      · cases first
      case h_2 out₁ cursor₁ step =>
        obtain ⟨⟨out₂, cursor₂⟩, later, same⟩ := Option.map_eq_some_iff.mp first
        obtain ⟨rfl, rfl⟩ := Prod.mk.inj same
        simp only [ih later, after_after]

/-- A run that fails on a first part fails. -/
theorem decodeRun_append_none {flag : Flags} {cursor : Cursor} {xs : List UInt8}
    (failed : decodeRun flag cursor xs = none) (ys : List UInt8)
    : decodeRun flag cursor (xs ++ ys) = none := by
  induction xs generalizing cursor with
  | nil => cases failed
  | cons c rest ih =>
      simp only [List.cons_append, decodeRun] at failed ⊢
      split at failed
      case h_1 => rfl
      case h_2 out₁ cursor₁ step =>
        simp only [ih (Option.map_eq_none_iff.mp failed), after_none]

theorem decodeRun_cons {flag : Flags} {cursor cursor' : Cursor} {c : UInt8} {out : List UInt8}
    (step : feed flag cursor c = some (out, cursor')) (rest : List UInt8)
    : decodeRun flag cursor (c :: rest) = after out (decodeRun flag cursor' rest) := by
  simp [decodeRun, step]

/-- A character that is pushed back is handled as if the sequence before it had ended. -/
theorem decodeRun_push {flag : Flags} {cursor : Cursor} {c : UInt8}
    (push : unvis cursor.t c cursor.state flag = (cursor.t, ss .ground, .validpush))
    (rest : List UInt8)
    : decodeRun flag cursor (c :: rest)
      = after [cursor.t] (decodeRun flag ⟨cursor.t, ss .ground⟩ (c :: rest)) := by
  have once := (unvis_validpush (by rw [push])).2 cursor.t
  rcases second : unvis cursor.t c (ss .ground) flag with ⟨t, state, code⟩
  rw [second] at once
  cases code with
  | valid => simp [decodeRun, feed, push, second, after_after]
  | nochar => simp [decodeRun, feed, push, second]
  | synbad => simp [decodeRun, feed, push, second]
  | validpush => exact absurd rfl once

/-- The output buffer of `strnunvisx` takes what a run emits. -/
def Decoder.write (decoder : Decoder) (out : List UInt8) (cursor : Cursor) : Option Decoder :=
  if out.length ≤ decoder.dlen then
    some { t := cursor.t, state := cursor.state, dst := decoder.dst ++ out,
           dlen := decoder.dlen - out.length }
  else
    none

theorem again_eq_feed (flag : Flags) (decoder : Decoder) (c : UInt8)
    : strnunvisx.again flag c 2 decoder
      = (feed flag ⟨decoder.t, decoder.state⟩ c).bind fun (out, cursor) =>
          decoder.write out cursor := by
  rcases run : unvis decoder.t c decoder.state flag with ⟨t, state, code⟩
  cases code with
  | valid =>
      simp [strnunvisx.again, feed, run, Decoder.put, Decoder.write, Nat.one_le_iff_ne_zero]
  | nochar => simp [strnunvisx.again, feed, run, Decoder.write]
  | synbad => simp [strnunvisx.again, feed, run]
  | validpush =>
      have bounded := unvis_validpush (by rw [run] : (unvis decoder.t c decoder.state flag).2.2 = _)
      obtain ⟨ground, once⟩ := bounded
      rw [run] at ground
      obtain rfl : state = ss .ground := ground
      rcases second : unvis t c (ss .ground) flag with ⟨t', state', code'⟩
      have only := once t
      rw [second] at only
      cases code' with
      | valid =>
          simp only [strnunvisx.again, feed, run, second, Decoder.put, Decoder.write]
          by_cases full : decoder.dlen = 0
          · simp [full]
          · rw [if_neg full, Option.bind_some, Option.bind_some]
            simp only [second, List.length_cons, List.length_nil]
            by_cases one : decoder.dlen - 1 = 0
            · rw [if_pos one, if_neg (by omega)]
            · rw [if_neg one, if_pos (by omega)]
              simp [Nat.sub_sub]
      | nochar =>
          simp only [strnunvisx.again, feed, run, second, Decoder.put, Decoder.write]
          by_cases full : decoder.dlen = 0
          · simp [full]
          · rw [if_neg full, Option.bind_some, Option.bind_some]
            simp only [second, List.length_cons, List.length_nil]
            rw [if_pos (by omega)]
      | synbad =>
          simp only [strnunvisx.again, feed, run, second, Decoder.put]
          split <;> simp [second]
      | validpush => exact absurd rfl only

/-- The loop of `strnunvisx` writes what the run emits. -/
theorem foldlM_again (flag : Flags) (decoder : Decoder) (src : List UInt8)
    : src.foldlM (fun decoder c => strnunvisx.again flag c 2 decoder) decoder
      = (decodeRun flag ⟨decoder.t, decoder.state⟩ src).bind fun (out, cursor) =>
          decoder.write out cursor := by
  induction src generalizing decoder with
  | nil => simp [decodeRun, Decoder.write]
  | cons c rest ih =>
      rw [List.foldlM_cons, again_eq_feed, decodeRun]
      rcases step : feed flag ⟨decoder.t, decoder.state⟩ c with _ | ⟨out, cursor⟩
      · rfl
      · simp only [Option.bind_some]
        rcases later : decodeRun flag cursor rest with _ | ⟨out', cursor'⟩
        · simp only [after_none, Option.bind_none, Decoder.write]
          split
          · simp [ih, later]
          · rfl
        · simp only [after_some, Option.bind_some, Decoder.write, List.length_append]
          split
          · simp only [Option.bind_eq_bind, Option.bind_some, ih, later, Decoder.write,
              List.append_assoc]
            split
            · rw [if_pos (by omega), Nat.sub_sub]
            · rw [if_neg (by omega)]
          · rw [if_neg (by omega)]
            rfl

/-- What a whole string decodes to. -/
def decodeAll (flag : Flags) (src : List UInt8) : Option (List UInt8) :=
  (decodeRun flag Cursor.init src).map (fun (out, cursor) => out ++ cursor.finish)

/-- `strnunvisx` returns what the string decodes to if there is room for it and a terminator. -/
theorem strnunvisx_eq (dlen : Nat) (src : List UInt8) (flag : Flags)
    : strnunvisx dlen src flag
      = (decodeAll flag (cstring src)).bind fun out =>
          if out.length < dlen then some (out, toInt out.length) else none := by
  rw [strnunvisx, foldlM_again, decodeAll, Cursor.init]
  rcases decodeRun flag ⟨0, ss .ground⟩ (cstring src) with _ | ⟨out, cursor⟩
  · rfl
  · simp only [Option.bind_some, Option.map_some, Decoder.write, Cursor.finish, Decoder.put,
      List.nil_append]
    split
    · simp only [Option.bind_eq_bind, Option.bind_some]
      split
      · simp only [List.length_append, List.length_singleton]
        by_cases full : dlen - out.length = 0
        · rw [if_pos full, if_neg (by omega)]
          rfl
        · rw [if_neg full]
          simp only [Option.bind_some, List.length_append, List.length_singleton]
          by_cases room : out.length + 1 < dlen
          · rw [if_neg (by omega), if_pos room]
          · rw [if_pos (by omega), if_neg room]
      · simp only [List.append_nil]
        by_cases room : out.length < dlen
        · rw [if_neg (by omega), if_pos room]
        · rw [if_pos (by omega), if_neg room]
    · rw [if_neg]
      · rfl
      · simp only [List.length_append]
        omega

end BSDLibC.Vis
