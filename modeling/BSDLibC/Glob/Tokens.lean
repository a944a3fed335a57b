import BSDLibC.Glob.Brace

/-! A pattern as a list of tokens, in which a bracket expression is one token, and the expansion of braces
that csh does. Alternatives are lists of tokens and are taken whole.
-/

namespace BSDLibC.Glob

inductive Token
  | bracket (content : Pattern)
  | unclosed
  | opens
  | closes
  | comma
  | char (c : UInt16)
deriving DecidableEq

def Token.text : Token → Pattern
  | .bracket content => LBRACKET :: (content ++ [RBRACKET])
  | .unclosed => [LBRACKET]
  | .opens => [LBRACE]
  | .closes => [RBRACE]
  | .comma => [COMMA]
  | .char c => [c]

def text (ts : List Token) : Pattern := ts.flatMap Token.text

def Token.ofChar (c : UInt16) : Token :=
  if c = LBRACE then .opens else if c = RBRACE then .closes else if c = COMMA then .comma else .char c

/-- The tokens of a pattern, where `inside` is the part of a bracket expression that has been read. -/
def lex (inside : Option Pattern) : Pattern → List Token
  | [] => []
  | c :: cs =>
      match inside with
      | some content =>
          if c = RBRACKET then .bracket content :: lex none cs else lex (some (content ++ [c])) cs
      | none =>
          if c = LBRACKET then
            if cs.contains RBRACKET then lex (some []) cs else .unclosed :: lex none cs
          else
            .ofChar c :: lex none cs

/-- Where a group ends: its alternatives, and the tokens behind it. -/
def cut (i : Nat) (current : List Token) : List Token → Option (List (List Token) × List Token)
  | [] => none
  | t :: ts =>
      if t = .opens then cut (i + 1) (current ++ [t]) ts
      else if t = .closes then if i = 0 then some ([current], ts) else cut (i - 1) (current ++ [t]) ts
      else if t = .comma ∧ i = 0 then (cut 0 [] ts).map (fun found => (current :: found.1, found.2))
      else cut i (current ++ [t]) ts

/-- The tokens before and behind the first brace. -/
def firstOpen : List Token → Option (List Token × List Token)
  | [] => none
  | t :: ts => if t = .opens then some ([], ts) else (firstOpen ts).map (fun found => (t :: found.1, found.2))

/-- The patterns that csh makes of one: the expansions for each alternative of the first group, in order.
A single {} stays as it is. No group is nested deeper than `depth`.
-/
def cshExpand : Nat → List Token → List Pattern
  | 0, _ => []
  | depth + 1, ts =>
      if ts = [.opens, .closes] then [text ts]
      else
        match firstOpen ts with
        | none => [text ts]
        | some (before, rest) =>
            match cut 0 [] rest with
            | none => [text ts]
            | some (alternatives, behind) => alternatives.flatMap (fun a => cshExpand depth (before ++ a ++ behind))

/-- The number of patterns that are looked at. -/
def cshSteps : Nat → List Token → Nat
  | 0, _ => 0
  | depth + 1, ts =>
      if ts = [.opens, .closes] then 1
      else
        match firstOpen ts with
        | none => 1
        | some (before, rest) =>
            match cut 0 [] rest with
            | none => 1
            | some (alternatives, behind) => 1 + (alternatives.map (fun a => cshSteps depth (before ++ a ++ behind))).sum

/-- All braces have their partner, with `i` open ones so far. -/
def balanced (i : Nat) : List Token → Bool
  | [] => i = 0
  | t :: ts =>
      if t = .opens then balanced (i + 1) ts
      else if t = .closes then i ≠ 0 && balanced (i - 1) ts
      else balanced i ts

/-- A bracket. -/
def Token.isBracket : Token → Bool
  | .bracket _ => true
  | .unclosed => true
  | _ => false

/-- Inside of groups, brackets are only at the start of an alternative, and of no group in a group. Here
`i` is the number of open groups, and `start` says that an alternative starts.
-/
def bracketsPlaced (i : Nat) (start : Bool) : List Token → Bool
  | [] => true
  | t :: ts =>
      if t.isBracket then (i = 0 || i = 1 && start) && bracketsPlaced i false ts
      else if t = .opens then bracketsPlaced (i + 1) true ts
      else if t = .closes then bracketsPlaced (i - 1) false ts
      else bracketsPlaced i (t = .comma) ts

/-- No bracket expression contains an opening brace. -/
def NoBraceInBracket (ts : List Token) : Prop := ∀ content, .bracket content ∈ ts → LBRACE ∉ content

-----------------------------------------------------------------------------------------
-- Tokens and their text
-----------------------------------------------------------------------------------------

variable {ts ts' xs ys current behind : List Token} {t : Token} {alternatives : List (List Token)} {i j : Nat}
  {start : Bool} {pattern content : Pattern}

@[simp] theorem text_nil : text [] = [] := rfl

@[simp] theorem text_cons (t : Token) (ts : List Token) : text (t :: ts) = t.text ++ text ts := rfl

@[simp] theorem text_append (xs ys : List Token) : text (xs ++ ys) = text xs ++ text ys := List.flatMap_append

theorem text_ofChar (c : UInt16) : (Token.ofChar c).text = [c] := by
  rw [Token.ofChar]
  split
  next same => rw [same, Token.text]
  split
  next same => rw [same, Token.text]
  split
  next same => rw [same, Token.text]
  rfl

theorem text_lex (pattern : Pattern)
    : text (lex none pattern) = pattern
      ∧ ∀ content, RBRACKET ∈ pattern → text (lex (some content) pattern) = LBRACKET :: (content ++ pattern) := by
  induction pattern with
  | nil => exact ⟨rfl, fun content closed => by cases closed⟩
  | cons c cs ih =>
      refine ⟨?_, fun content closed => ?_⟩
      · rw [lex]
        split
        next bracket =>
          split
          next closed =>
            rw [ih.2 [] (List.contains_iff_mem.mp closed), bracket]
            rfl
          next => rw [text_cons, ih.1, bracket, Token.text, List.singleton_append]
        next => rw [text_cons, text_ofChar, ih.1, List.singleton_append]
      · rw [lex]
        split
        next last => simp [Token.text, ih.1, last]
        next notLast =>
          rw [ih.2 _ ((List.mem_cons.mp closed).resolve_left fun same => notLast same.symm)]
          simp

/-- What a list of tokens has to be for `lex` to give it back. -/
inductive Valid : List Token → Prop
  | nil : Valid []
  | bracket {content : Pattern} {ts : List Token} (closed : RBRACKET ∉ content) (rest : Valid ts)
      : Valid (.bracket content :: ts)
  | unclosed {ts : List Token} (open_ : RBRACKET ∉ text ts) (rest : Valid ts) : Valid (.unclosed :: ts)
  | ofChar {c : UInt16} {ts : List Token} (plain : c ≠ LBRACKET) (rest : Valid ts) : Valid (.ofChar c :: ts)

theorem valid_lex (pattern : Pattern)
    : Valid (lex none pattern)
      ∧ ∀ content, RBRACKET ∉ content → Valid (lex (some content) pattern) := by
  induction pattern with
  | nil => exact ⟨.nil, fun _ _ => .nil⟩
  | cons c cs ih =>
      refine ⟨?_, fun content closed => ?_⟩
      · rw [lex]
        split
        next bracket =>
          split
          next => exact ih.2 [] (by simp)
          next notClosed =>
            refine .unclosed ?_ ih.1
            rw [(text_lex cs).1]
            exact fun closed => notClosed (List.contains_iff_mem.mpr closed)
        next plain => exact .ofChar plain ih.1
      · rw [lex]
        split
        next => exact .bracket closed ih.1
        next notLast =>
          refine ih.2 _ fun member => ?_
          obtain member | member := List.mem_append.mp member
          · exact closed member
          · exact notLast (List.mem_singleton.mp member).symm

theorem mem_text_of_sublist {c : UInt16} (sub : ts'.Sublist ts) (member : c ∈ text ts') : c ∈ text ts := by
  rw [text, List.mem_flatMap] at member ⊢
  obtain ⟨t, inside, here⟩ := member
  exact ⟨t, sub.subset inside, here⟩

/-- Tokens may be left out. -/
theorem Valid.sublist (valid : Valid ts) (sub : ts'.Sublist ts) : Valid ts' := by
  induction valid generalizing ts' with
  | nil =>
      cases sub
      exact .nil
  | bracket closed rest ih =>
      cases sub with
      | cons _ sub => exact ih sub
      | cons_cons _ sub => exact .bracket closed (ih sub)
  | unclosed open_ rest ih =>
      cases sub with
      | cons _ sub => exact ih sub
      | cons_cons _ sub => exact .unclosed (fun member => open_ (mem_text_of_sublist sub member)) (ih sub)
  | ofChar plain rest ih =>
      cases sub with
      | cons _ sub => exact ih sub
      | cons_cons _ sub => exact .ofChar plain (ih sub)

end BSDLibC.Glob
