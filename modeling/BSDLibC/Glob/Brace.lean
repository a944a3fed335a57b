import Mathlib.Algebra.Order.Ring.Nat
import Mathlib.Data.List.Basic
import Mathlib.Tactic.Common

/-! The brace expansion of `glob.c`. A pattern is the text in a buffer of `Char`, without its `EOS`. The
function `glob0`, which gets the expanded patterns, is a parameter with a state of its own.
-/

namespace BSDLibC.Glob

abbrev Pattern := List UInt16

def QUOTE : UInt16 := 92
def LBRACKET : UInt16 := 91
def RBRACKET : UInt16 := 93
def LBRACE : UInt16 := 123
def RBRACE : UInt16 := 125
def COMMA : UInt16 := 44
def M_PROTECT : UInt16 := 0x4000
def MAXPATHLEN : Nat := 1024
def GLOB_LIMIT_BRACE : Nat := 128
def GLOB_NOSPACE : Int := -1
def GLOB_ABORTED : Int := -2

/-- The flags that matter here. -/
structure Flags where
  noescape : Bool
  brace : Bool
  limit : Bool

/-- The loops of `glob` that fill `patbuf`, of which `room` elements are left. -/
def protect (noescape : Bool) : Nat → List UInt8 → Pattern
  | 0, _ => []
  | _, [] => []
  | room + 1, c :: cs =>
      if !noescape && c.toUInt16 = QUOTE then
        match cs with
        | [] => [QUOTE ||| M_PROTECT]
        | quoted :: cs => (quoted.toUInt16 ||| M_PROTECT) :: protect noescape room cs
      else
        c.toUInt16 :: protect noescape room cs

/-- The text before the first brace, and behind it. -/
def firstBrace : Pattern → Option (Pattern × Pattern)
  | [] => none
  | c :: cs => if c = LBRACE then some ([], cs) else (firstBrace cs).map (fun found => (c :: found.1, found.2))

/-- The loop of `globexp2` that finds the balanced brace, and the text behind it. Everything between []
is ignored, but not behind a bracket that is never closed.
-/
def closing (ignored : Bool) (i : Nat) : Pattern → Option Pattern
  | [] => none
  | c :: cs =>
      if ignored then closing (c ≠ RBRACKET) i cs
      else if c = LBRACKET then closing (cs.contains RBRACKET) i cs
      else if c = LBRACE then closing false (i + 1) cs
      else if c = RBRACE then
        if i = 0 then some cs else closing false (i - 1) cs
      else closing false i cs

/-- The loop of `globexp2` up to the balanced brace, with the strings that it appends. The string from
`pl` on to the current place is `current`. A bracket sets `pl`, too.
-/
def pieces (ignored : Bool) (i : Nat) (current : Pattern) : Pattern → List Pattern
  | [] => []
  | c :: cs =>
      if ignored then pieces (c ≠ RBRACKET) i (current ++ [c]) cs
      else if c = LBRACKET then pieces (cs.contains RBRACKET) i [c] cs
      else if c = LBRACE then pieces false (i + 1) (current ++ [c]) cs
      else if c = RBRACE then
        if i = 0 then [current] else pieces false (i - 1) (current ++ [c]) cs
      else if c = COMMA ∧ i = 0 then current :: pieces false i [] cs
      else pieces false i (current ++ [c]) cs

/-- The state of `glob0`, the member `l_brace` of the limits, and the calls of `glob0` so far with what
they have returned.
-/
structure Expansion (σ : Type) where
  env : σ
  lBrace : Nat
  calls : List (Pattern × Int)
deriving DecidableEq

section

variable {σ : Type} (glob0 : Pattern → σ → Int × σ)

def callGlob0 (pattern : Pattern) (s : Expansion σ) : Int × Expansion σ :=
  let (rv, env) := glob0 pattern s.env
  (rv, { s with env, calls := s.calls ++ [(pattern, rv)] })

/-- The calls that `globexp2` makes for the alternatives. What they return is overwritten. -/
def expandAll (globexp1 : Pattern → Expansion σ → Option (Int × Expansion σ)) (patterns : List Pattern)
    (s : Expansion σ)
    : Option (Expansion σ) :=
  patterns.foldlM (fun s pattern => (globexp1 pattern s).map Prod.snd) s

/-- `globexp2` for a brace between `before` and `rest`, with what it leaves in `rv`. It always returns 0.
-/
def globexp2 (globexp1 : Pattern → Expansion σ → Option (Int × Expansion σ)) (pattern before rest : Pattern)
    (s : Expansion σ)
    : Option (Int × Expansion σ) :=
  match closing false 0 rest with
  | none => some (callGlob0 glob0 pattern s)
  | some behind =>
      (expandAll globexp1 ((pieces false 0 [] rest).map (fun piece => before ++ piece ++ behind)) s).map
        (fun s => (0, s))

/-- `globexp1`, in no more than `depth` recursive calls. -/
def globexp1 (limit : Bool) : Nat → Pattern → Expansion σ → Option (Int × Expansion σ)
  | 0, _, _ => none
  | depth + 1, pattern, s =>
      if limit && GLOB_LIMIT_BRACE ≤ s.lBrace then some (GLOB_NOSPACE, { s with lBrace := s.lBrace + 1 })
      else
        let s := if limit then { s with lBrace := s.lBrace + 1 } else s
        if pattern = [LBRACE, RBRACE] then some (callGlob0 glob0 pattern s)
        else
          match firstBrace pattern with
          | none => some (callGlob0 glob0 pattern s)
          | some (before, rest) => globexp2 glob0 (globexp1 limit depth) pattern before rest s

/-- `glob`, up to the result of the expansion. -/
def glob (flags : Flags) (depth : Nat) (pattern : List UInt8) (env : σ) : Option (Int × Expansion σ) :=
  let patbuf := protect flags.noescape MAXPATHLEN pattern
  let s : Expansion σ := { env, lBrace := 0, calls := [] }
  if flags.brace then globexp1 glob0 flags.limit depth patbuf s else some (callGlob0 glob0 patbuf s)

-----------------------------------------------------------------------------------------
-- The recursion ends
-----------------------------------------------------------------------------------------

variable {pattern before rest behind piece current : Pattern} {ignored : Bool} {i depth : Nat} {limit : Bool}

theorem firstBrace_some (found : firstBrace pattern = some (before, rest)) : pattern = before ++ LBRACE :: rest := by
  induction pattern generalizing before with
  | nil => cases found
  | cons c cs ih =>
      rw [firstBrace] at found
      split at found
      next brace =>
        cases found
        rw [brace, List.nil_append]
      next =>
        obtain ⟨⟨before', rest'⟩, found', same⟩ := Option.map_eq_some_iff.mp found
        cases same
        rw [ih found', List.cons_append]

theorem length_closing (closed : closing ignored i rest = some behind) : behind.length < rest.length := by
  induction rest generalizing ignored i with
  | nil => cases closed
  | cons c cs ih =>
      rw [List.length_cons]
      rw [closing] at closed
      repeat' split at closed
      all_goals first
        | exact Nat.lt_succ_of_lt (ih closed)
        | cases closed; exact Nat.lt_succ_self _

/-- An alternative is shorter than what it is taken from. -/
theorem length_piece (closed : closing ignored i rest = some behind) (member : piece ∈ pieces ignored i current rest)
    : piece.length + behind.length < current.length + rest.length := by
  induction rest generalizing ignored i current with
  | nil => cases closed
  | cons c cs ih =>
      have grown : (current ++ [c]).length = current.length + 1 := by rw [List.length_append, List.length_singleton]
      have bound := length_closing closed
      rw [List.length_cons] at bound ⊢
      rw [closing] at closed
      rw [pieces] at member
      by_cases inside : ignored
      · rw [if_pos inside] at closed member
        have := ih closed member
        omega
      rw [if_neg inside] at closed member
      by_cases bracket : c = LBRACKET
      · rw [if_pos bracket] at closed member
        have := ih closed member
        rw [List.length_singleton] at this
        omega
      rw [if_neg bracket] at closed member
      by_cases opens : c = LBRACE
      · rw [if_pos opens] at closed member
        have := ih closed member
        omega
      rw [if_neg opens] at closed member
      by_cases closes : c = RBRACE
      · rw [if_pos closes] at closed member
        by_cases last : i = 0
        · rw [if_pos last, List.mem_singleton] at member
          rw [member]
          omega
        · rw [if_neg last] at closed member
          have := ih closed member
          omega
      rw [if_neg closes] at closed member
      split at member
      · obtain rfl | member := List.mem_cons.mp member
        · omega
        · have := ih closed member
          rw [List.length_nil] at this
          omega
      · have := ih closed member
        omega

theorem expandAll_total {recurse : Pattern → Expansion σ → Option (Int × Expansion σ)} {patterns : List Pattern}
    {s : Expansion σ} (total : ∀ p ∈ patterns, ∀ s, ∃ result, recurse p s = some result)
    : ∃ s', expandAll recurse patterns s = some s' := by
  induction patterns generalizing s with
  | nil => exact ⟨s, rfl⟩
  | cons p patterns ih =>
      obtain ⟨result, run⟩ := total p List.mem_cons_self s
      obtain ⟨s', rest⟩ := @ih result.2 fun q member => total q (List.mem_cons_of_mem _ member)
      refine ⟨s', ?_⟩
      rw [expandAll, List.foldlM_cons, run]
      exact rest

/-- No more recursive calls are needed than the pattern has characters. -/
theorem globexp1_total (enough : pattern.length < depth) (s : Expansion σ)
    : ∃ result, globexp1 glob0 limit depth pattern s = some result := by
  induction depth generalizing pattern s with
  | zero => omega
  | succ depth ih =>
      rw [globexp1]
      split
      · exact ⟨_, rfl⟩
      simp only
      split
      · exact ⟨_, rfl⟩
      split
      · exact ⟨_, rfl⟩
      next before rest found =>
        rw [globexp2]
        split
        · exact ⟨_, rfl⟩
        next behind closed =>
          have length := congrArg List.length (firstBrace_some found)
          rw [List.length_append, List.length_cons] at length
          have total : ∀ p ∈ (pieces false 0 [] rest).map (fun piece => before ++ piece ++ behind),
              ∀ s, ∃ result, globexp1 glob0 limit depth p s = some result := by
            intro p member s
            obtain ⟨piece, taken, rfl⟩ := List.mem_map.mp member
            have short := length_piece closed taken
            rw [List.length_nil] at short
            refine ih ?_ s
            rw [List.length_append, List.length_append]
            omega
          obtain ⟨s', run⟩ := expandAll_total total
          exact ⟨(0, s'), congrArg (Option.map fun s => (0, s)) run⟩

end

-----------------------------------------------------------------------------------------
-- Which errors of `glob0` come out of `glob`
-----------------------------------------------------------------------------------------

/-- An error that has to end the expansion. -/
def Fails (rv : Int) : Prop := rv = GLOB_NOSPACE ∨ rv = GLOB_ABORTED

instance (rv : Int) : Decidable (Fails rv) := inferInstanceAs (Decidable (_ ∨ _))

/-- A call that fails makes the result an error, and is the last one. -/
def StopsAtError (rv : Int) (calls : List (Pattern × Int)) : Prop :=
  ∀ earlier call later, calls = earlier ++ call :: later → Fails call.2 → rv ≠ 0 ∧ later = []

/-- The first brace of the pattern is balanced, and the pattern is not a single {}. -/
def Expandable (pattern : Pattern) : Prop :=
  pattern ≠ [LBRACE, RBRACE]
    ∧ ∃ before rest behind, firstBrace pattern = some (before, rest) ∧ closing false 0 rest = some behind

variable {σ : Type} {glob0 : Pattern → σ → Int × σ} {pattern : Pattern} {limit : Bool} {depth : Nat} {rv : Int}
  {s s' : Expansion σ}

/-- A single call returns what `glob0` returns. -/
theorem stopsAtError_call (run : some (callGlob0 glob0 pattern s) = some (rv, s')) (fresh : s.calls = [])
    : StopsAtError rv s'.calls := by
  obtain ⟨rfl, rfl⟩ := Prod.mk.inj (Option.some.inj run)
  intro earlier call later split fails
  simp only [fresh, List.nil_append] at split
  cases earlier with
  | nil =>
      obtain ⟨rfl, rfl⟩ := List.cons.inj split
      refine ⟨?_, rfl⟩
      obtain fails | fails := fails <;> simp only at fails <;> rw [fails] <;> decide
  | cons first earlier =>
      obtain ⟨-, rest⟩ := List.cons.inj split
      cases earlier <;> cases rest

/-- The top call of `globexp1` is not limited. -/
theorem globexp1_top (fresh : s.lBrace = 0) (run : globexp1 glob0 limit depth pattern s = some (rv, s'))
    : Expandable pattern ∧ rv = 0
      ∨ ¬ Expandable pattern ∧ ∃ s₁ : Expansion σ, s₁.calls = s.calls ∧ some (callGlob0 glob0 pattern s₁) = some (rv, s') := by
  cases depth with
  | zero => cases run
  | succ depth =>
      rw [globexp1, fresh] at run
      simp only [show ¬ GLOB_LIMIT_BRACE ≤ 0 by decide, decide_false, Bool.and_false, Bool.false_eq_true,
        if_false] at run
      generalize counted : (if limit = true then { s with lBrace := 0 + 1 } else s) = s₁ at run
      have calls : s₁.calls = s.calls := by
        rw [← counted]
        split <;> rfl
      split at run
      next single => exact Or.inr ⟨fun expandable => expandable.1 single, s₁, calls, run⟩
      next notSingle =>
        split at run
        next noBrace =>
          refine Or.inr ⟨fun expandable => ?_, s₁, calls, run⟩
          obtain ⟨-, before, rest, behind, found, -⟩ := expandable
          rw [noBrace] at found
          cases found
        next before rest found =>
          rw [globexp2] at run
          split at run
          next unbalanced =>
            refine Or.inr ⟨fun expandable => ?_, s₁, calls, run⟩
            obtain ⟨-, before', rest', behind, found', closed⟩ := expandable
            rw [found] at found'
            cases found'
            rw [unbalanced] at closed
            cases closed
          next behind closed =>
            obtain ⟨last, -, result⟩ := Option.map_eq_some_iff.mp run
            exact Or.inl ⟨⟨notSingle, before, rest, behind, found, closed⟩, (Prod.mk.inj result).1.symm⟩

/-- An error of `glob0` is reported, and is the last thing that happens, unless the pattern is expanded.
-/
theorem glob_stopsAtError_iff (glob0 : Pattern → σ → Int × σ) (flags : Flags) (pattern : List UInt8) (env : σ)
    : ∃ rv s, glob glob0 flags ((protect flags.noescape MAXPATHLEN pattern).length + 1) pattern env = some (rv, s)
      ∧ (StopsAtError rv s.calls
        ↔ ¬ (flags.brace = true ∧ Expandable (protect flags.noescape MAXPATHLEN pattern))
          ∨ ∀ call ∈ s.calls, ¬ Fails call.2) := by
  rw [glob]
  generalize protect flags.noescape MAXPATHLEN pattern = patbuf
  split
  next brace =>
    obtain ⟨⟨rv, s⟩, run⟩ := @globexp1_total σ glob0 patbuf _ flags.limit (Nat.lt_succ_self patbuf.length)
      { env, lBrace := 0, calls := [] }
    refine ⟨rv, s, run, ?_⟩
    obtain ⟨expandable, swallowed⟩ | ⟨single, s₁, calls, once⟩ := globexp1_top rfl run
    · constructor
      · intro stops
        refine Or.inr fun call member fails => ?_
        obtain ⟨earlier, later, split⟩ := List.append_of_mem member
        exact (stops earlier call later split fails).1 swallowed
      · rintro (plain | never)
        · exact absurd ⟨brace, expandable⟩ plain
        · intro earlier call later split fails
          refine absurd fails (never call ?_)
          rw [split]
          exact List.mem_append_right _ List.mem_cons_self
    · exact iff_of_true (stopsAtError_call once calls) (Or.inl fun both => single both.2)
  next plain =>
    exact ⟨_, _, rfl, iff_of_true (stopsAtError_call rfl rfl) (Or.inl fun both => plain both.1)⟩

/-- Counterexample: the pattern {a,b}, where there is no memory for the first alternative. -/
theorem glob_swallows_error
    : ∃ s, glob (fun pattern (_ : Unit) => (if pattern = [97] then GLOB_NOSPACE else 0, ())) ⟨false, true, false⟩ 6
          [123, 97, 44, 98, 125] ()
        = some (0, s)
      ∧ s.calls = [([97], GLOB_NOSPACE), ([98], 0)]
      ∧ ¬ StopsAtError 0 s.calls := by
  refine ⟨⟨(), 0, [([97], GLOB_NOSPACE), ([98], 0)]⟩, by decide, rfl, fun stops => ?_⟩
  exact (stops [] ([97], GLOB_NOSPACE) [([98], 0)] rfl (Or.inl rfl)).1 rfl

end BSDLibC.Glob
