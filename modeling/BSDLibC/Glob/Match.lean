import BSDLibC.Glob.Brace
import Mathlib.Data.List.DropRight

/-! The compilation of patterns in `glob0` and the matcher of file names. Pointers into a string are the
rest of it, where the string of a name has its `EOS` and the pattern ends with the element at `patend`.
-/

namespace BSDLibC.Glob

def EOS : UInt16 := 0
def SEP : UInt16 := 47
def NOT : UInt16 := 33
def QUESTION : UInt16 := 63
def STAR : UInt16 := 42
def RANGE : UInt16 := 45
def M_QUOTE : UInt16 := 0x8000
def M_ASCII : UInt16 := 0x00ff

def CHAR (c : UInt16) : UInt16 := c &&& M_ASCII
def META (c : UInt16) : UInt16 := c ||| M_QUOTE

def M_ALL : UInt16 := META STAR
def M_END : UInt16 := META RBRACKET
def M_NOT : UInt16 := META NOT
def M_ONE : UInt16 := META QUESTION
def M_RNG : UInt16 := META RANGE
def M_SET : UInt16 := META LBRACKET

-----------------------------------------------------------------------------------------
-- Compiled patterns
-----------------------------------------------------------------------------------------

/-- The loop over a bracket expression from a character on: the text behind it, and the buffer, last
element first. Behind the `EOS` there is nothing to read.
-/
def compileSet : UInt16 → Pattern → List UInt16 → Option (Pattern × List UInt16)
  | _, [], _ => none
  | c, d :: q, buf =>
      if d = RANGE ∧ q.headD EOS ≠ RBRACKET then
        match q with
        | hi :: next :: q =>
            if next = RBRACKET then some (q, CHAR hi :: M_RNG :: CHAR c :: buf)
            else compileSet next q (CHAR hi :: M_RNG :: CHAR c :: buf)
        | _ => none
      else if d = RBRACKET then
        some (q, CHAR c :: buf)
      else
        compileSet d q (CHAR c :: buf)

/-- Whether a star is added to the buffer: adjacent ones are collapsed to one, or to three. -/
def addsStar (globstar : Bool) (buf : List UInt16) : Bool :=
  buf.head? ≠ some M_ALL || (globstar && (buf[1]? ≠ some M_ALL || buf[2]? ≠ some M_ALL))

/-- The loop of `glob0` that compiles a pattern. The first argument bounds its rounds. -/
def compile (globstar : Bool) : Nat → Pattern → List UInt16 → Option (List UInt16)
  | 0, _, _ => none
  | _ + 1, [], buf => some buf.reverse
  | rounds + 1, c :: q, buf =>
      if c = LBRACKET then
        let negated := q.head? = some NOT
        match if negated then q.tail else q with
        | [] => compile globstar rounds q (LBRACKET :: buf)
        | first :: rest =>
            if RBRACKET ∉ rest then
              compile globstar rounds q (LBRACKET :: buf)
            else do
              let (q, buf) ← compileSet first rest (if negated then M_NOT :: M_SET :: buf else M_SET :: buf)
              compile globstar rounds q (M_END :: buf)
      else if c = QUESTION then
        compile globstar rounds q (M_ONE :: buf)
      else if c = STAR then
        compile globstar rounds q (if addsStar globstar buf then M_ALL :: buf else buf)
      else
        compile globstar rounds q (CHAR c :: buf)

/-- A piece of a compiled pattern between slashes, and the element behind it. -/
structure Segment (globstar : Bool) (pattern : Pattern) (seg : List UInt16) (stop : UInt16) : Prop where
  compiled : ∃ codes before after, compile globstar (pattern.length + 1) pattern [] = some codes
    ∧ codes ++ [EOS] = before ++ (seg ++ stop :: after)
    ∧ (before = [] ∨ before.getLast? = some SEP)
  plain : SEP ∉ seg ∧ EOS ∉ seg
  stop : stop = SEP ∨ stop = EOS

-----------------------------------------------------------------------------------------
-- The matcher
-----------------------------------------------------------------------------------------

/-- The loop over a set of characters: whether it has the character, and the pattern behind it. -/
def setLoop (k : UInt16) (ok : Bool) : List UInt16 → Option (Bool × List UInt16)
  | [] => none
  | c :: pat =>
      if c = M_END then
        some (ok, pat)
      else
        match pat with
        | [] => none
        | d :: pat =>
            if d = M_RNG then
              match pat with
              | [] => none
              | hi :: pat => setLoop k (ok || (c ≤ k && k ≤ hi)) pat
            else
              setLoop k (ok || c = k) (d :: pat)

/-- The variables of `match`. -/
structure Cursor where
  pat : List UInt16
  patNext : List UInt16
  name : List UInt16
  nameNext : List UInt16
  nameEnd : Option (List UInt16)

/-- The stars that follow one are passed over. -/
def lastStar : List UInt16 → List UInt16
  | c :: d :: pat => if d = M_ALL then lastStar (d :: pat) else c :: d :: pat
  | pat => pat

section

variable (nameStart : List UInt16)

/-- What follows a `break`: back to the last star, or the end. -/
def backtrack (cur : Cursor) : Cursor ⊕ Bool :=
  if cur.nameNext.length ≠ nameStart.length
      ∧ (cur.nameEnd = none ∨ ∃ end_ ∈ cur.nameEnd, end_.length ≤ cur.nameNext.length) then
    .inl { cur with pat := cur.patNext, name := cur.nameNext }
  else
    .inr false

/-- A round of the loop of `match`. There is none when an element behind the pattern or the name is
read.
-/
def round (cur : Cursor) : Option (Cursor ⊕ Bool) := do
  let k ← cur.name.head?
  if ¬ (1 < cur.pat.length ∨ k ≠ EOS) then
    return .inr true
  else
    let c ← cur.pat.head?
    let cur := if k = EOS then { cur with nameEnd := some cur.name } else cur
    if c = M_ALL then
      let star := lastStar cur.pat
      return .inl { cur with patNext := star, nameNext := cur.name.tail, pat := star.tail }
    else if c = M_ONE then
      if k = EOS then
        return backtrack nameStart cur
      else
        return .inl { cur with pat := cur.pat.tail, name := cur.name.tail }
    else if c = M_SET then
      if k = EOS then
        return backtrack nameStart cur
      else
        let first ← cur.pat.tail.head?
        let negated := first = M_NOT
        let (ok, pat) ← setLoop k false (if negated then cur.pat.tail.tail else cur.pat.tail)
        if ok = decide negated then
          return backtrack nameStart { cur with pat := pat, name := cur.name.tail }
        else
          return .inl { cur with pat := pat, name := cur.name.tail }
    else if k ≠ c then
      return backtrack nameStart cur
    else
      return .inl { cur with pat := cur.pat.tail, name := cur.name.tail }

/-- The loop of `match`, as far as a number of rounds goes: what it returns, or nothing when it reads
what it may not.
-/
def rounds : Nat → Cursor → Option (Option Bool)
  | 0, _ => none
  | fuel + 1, cur =>
      match round nameStart cur with
      | none => some none
      | some (.inr result) => some (some result)
      | some (.inl cur) => rounds fuel cur

end

/-- `match` on a name, and a segment with the element at `patend`. -/
def matchName (fuel : Nat) (name seg : List UInt16) (stop : UInt16) : Option (Option Bool) :=
  let start := name ++ [EOS]
  rounds start fuel ⟨seg ++ [stop], seg ++ [stop], start, start, none⟩

-----------------------------------------------------------------------------------------
-- The language of a segment
-----------------------------------------------------------------------------------------

/-- The ranges of a set, a single character being one, and the elements behind its end. -/
def setRanges : List UInt16 → Option (List (UInt16 × UInt16) × List UInt16)
  | [] => none
  | c :: seg =>
      if c = M_END then
        some ([], seg)
      else
        match seg with
        | [] => none
        | d :: seg =>
            if d = M_RNG then
              match seg with
              | [] => none
              | hi :: seg => (setRanges seg).map fun set => ((c, hi) :: set.1, set.2)
            else
              (setRanges (d :: seg)).map fun set => ((c, c) :: set.1, set.2)

/-- A set behind its mark: whether it is negated, its ranges, and what is behind it. -/
def closedSet (seg : List UInt16) : Option (Bool × List (UInt16 × UInt16) × List UInt16) :=
  let negated := decide (seg.head? = some M_NOT)
  (setRanges (if negated then seg.tail else seg)).map fun set => (negated, set.1, set.2)

def inRanges (ranges : List (UInt16 × UInt16)) (k : UInt16) : Bool :=
  ranges.any fun range => range.1 ≤ k && k ≤ range.2

/-- What is left of a segment when its first element takes a character. -/
def takeOne (k : UInt16) : List UInt16 → Option (List UInt16)
  | [] => none
  | c :: seg =>
      if c = M_ALL then
        none
      else if c = M_ONE then
        some seg
      else if c = M_SET then
        (closedSet seg).bind fun set => if inRanges set.2.1 k = set.1 then none else some set.2.2
      else if k = c then
        some seg
      else
        none

/-- A goal for what is left of a segment and of a name can be come to. -/
inductive Leads (goal : List UInt16 → List UInt16 → Prop) : List UInt16 → List UInt16 → Prop
  | goal {seg name : List UInt16} (here : goal seg name) : Leads goal seg name
  | take {seg rest name : List UInt16} {k : UInt16} (taken : takeOne k seg = some rest)
      (later : Leads goal rest name)
      : Leads goal seg (k :: name)
  | pass {seg name : List UInt16} (later : Leads goal seg name) : Leads goal (M_ALL :: seg) name
  | star {seg name : List UInt16} {k : UInt16} (later : Leads goal (M_ALL :: seg) name)
      : Leads goal (M_ALL :: seg) (k :: name)

/-- Nothing is left. -/
def Done (seg name : List UInt16) : Prop := seg = [] ∧ name = []

/-- The segment is cut in a set, and the name has a character for it. -/
def Cut (seg name : List UInt16) : Prop :=
  (∃ rest, seg = M_SET :: rest ∧ closedSet rest = none) ∧ name ≠ []

/-- The names in the language of a segment. -/
def Accepts (seg name : List UInt16) : Prop := Leads Done seg name

/-- What is promised: the matcher ends, reads nothing behind the segment and the name, and tells whether
the name is in the language.
-/
def Exact (name seg : List UInt16) (stop : UInt16) : Prop :=
  ∃ result, (∃ enough, ∀ fuel, enough ≤ fuel → matchName fuel name seg stop = some (some result))
    ∧ (result = true ↔ Accepts seg name)

-----------------------------------------------------------------------------------------
-- Elements
-----------------------------------------------------------------------------------------

variable {stop : UInt16}

theorem single_range (c k : UInt16)
    : inRanges [(c, c)] k = decide (c = k) := by
  rw [Bool.eq_iff_iff]
  simp only [inRanges, List.any_cons, List.any_nil, Bool.or_false, Bool.and_eq_true, decide_eq_true_eq,
    UInt16.le_iff_toNat_le, ← UInt16.toNat_inj]
  omega

theorem inRanges_cons (range : UInt16 × UInt16) (ranges : List (UInt16 × UInt16)) (k : UInt16)
    : inRanges (range :: ranges) k = (inRanges [range] k || inRanges ranges k) := by
  simp [inRanges]

/-- The loop over a set finds its end in the segment. -/
theorem setLoop_spec (k : UInt16) (stops : stop ≠ M_END ∧ stop ≠ M_RNG) (ok : Bool)
    (seg : List UInt16)
    : setLoop k ok (seg ++ [stop])
      = (setRanges seg).map fun set => (ok || inRanges set.1 k, set.2 ++ [stop]) := by
  induction seg using setRanges.induct generalizing ok with
  | case1 =>
      simp only [List.nil_append, setLoop, if_neg stops.1, setRanges, Option.map_none]
  | case2 seg =>
      rw [List.cons_append, setLoop.eq_def, setRanges.eq_def]
      simp only [if_true, Option.map_some, inRanges, List.any_nil, Bool.or_false]
  | case3 c other =>
      simp only [List.cons_append, List.nil_append, setLoop, setRanges, if_neg other, if_neg stops.1,
        if_neg stops.2, Option.map_none]
  | case4 c other =>
      simp only [List.cons_append, List.nil_append, setLoop, setRanges, if_neg other, if_true,
        Option.map_none]
  | case5 c other hi seg ih =>
      simp only [List.cons_append, setLoop, setRanges, if_neg other, if_true, ih]
      cases setRanges seg with
      | none => rfl
      | some set => simp [inRanges, Bool.or_assoc]
  | case6 c other d seg plain ih =>
      rw [List.cons_append] at ih
      rw [setRanges.eq_def, List.cons_append, List.cons_append, setLoop.eq_def]
      simp only [if_neg other, if_neg plain, ih]
      cases setRanges (d :: seg) with
      | none => rfl
      | some set =>
          rw [Option.map_some, Option.map_some, Option.map_some, inRanges_cons, single_range, Bool.or_assoc]

theorem setRanges_suffix {seg rest : List UInt16} {ranges : List (UInt16 × UInt16)}
    (found : setRanges seg = some (ranges, rest))
    : rest <:+ seg := by
  induction seg using setRanges.induct generalizing ranges with
  | case1 => simp [setRanges] at found
  | case2 seg =>
      rw [setRanges.eq_def] at found
      simp only [if_true, Option.some.injEq, Prod.mk.injEq] at found
      exact found.2 ▸ List.suffix_cons M_END seg
  | case3 c other => simp [setRanges, if_neg other] at found
  | case4 c other => simp [setRanges, if_neg other] at found
  | case5 c other hi seg ih =>
      simp only [setRanges, if_neg other, if_true, Option.map_eq_some_iff] at found
      obtain ⟨⟨later, behind⟩, found, same⟩ := found
      obtain ⟨-, rfl⟩ := Prod.mk.inj same
      exact (ih found).trans ⟨[c, M_RNG, hi], rfl⟩
  | case6 c other d seg plain ih =>
      rw [setRanges.eq_def] at found
      simp only [if_neg other, if_neg plain, Option.map_eq_some_iff] at found
      obtain ⟨⟨later, behind⟩, found, same⟩ := found
      obtain ⟨-, rfl⟩ := Prod.mk.inj same
      exact (ih found).trans (List.suffix_cons c _)

theorem closedSet_suffix {seg rest : List UInt16} {negated : Bool} {ranges : List (UInt16 × UInt16)}
    (found : closedSet seg = some (negated, ranges, rest))
    : rest <:+ seg := by
  simp only [closedSet, Option.map_eq_some_iff] at found
  obtain ⟨⟨later, behind⟩, found, same⟩ := found
  simp only [Prod.mk.injEq] at same
  obtain ⟨-, -, rfl⟩ := same
  have inside := setRanges_suffix found
  split at inside
  · exact inside.trans (List.tail_suffix seg)
  · exact inside

/-- A character is taken by an element that is no star, and the rest is shorter. -/
theorem takeOne_suffix {k : UInt16} {seg rest : List UInt16} (taken : takeOne k seg = some rest)
    : ∃ c before, seg = c :: before ∧ c ≠ M_ALL ∧ rest <:+ before := by
  cases seg with
  | nil => simp [takeOne] at taken
  | cons c before =>
      refine ⟨c, before, rfl, ?_⟩
      simp only [takeOne] at taken
      split at taken
      · cases taken
      · refine ⟨by assumption, ?_⟩
        split at taken
        · exact (Option.some.inj taken).symm ▸ List.suffix_refl _
        · split at taken
          · obtain ⟨⟨negated, ranges, behind⟩, found, kept⟩ := Option.bind_eq_some_iff.mp taken
            split at kept
            · cases kept
            · exact Option.some.inj kept ▸ closedSet_suffix found
          · split at taken
            · exact (Option.some.inj taken).symm ▸ List.suffix_refl _
            · cases taken

/-- What is left does not depend on the character. -/
theorem takeOne_rest {k l : UInt16} {seg rest other : List UInt16} (taken : takeOne k seg = some rest)
    (also : takeOne l seg = some other)
    : other = rest := by
  cases seg with
  | nil => simp [takeOne] at taken
  | cons c before =>
      simp only [takeOne] at taken also
      by_cases isStar : c = M_ALL
      · simp [isStar] at taken
      · by_cases isOne : c = M_ONE
        · rw [if_neg isStar, if_pos isOne] at taken also
          exact Option.some.inj (also.symm.trans taken)
        · by_cases isSet : c = M_SET
          · rw [if_neg isStar, if_neg isOne, if_pos isSet] at taken also
            obtain ⟨set, found, kept⟩ := Option.bind_eq_some_iff.mp taken
            obtain ⟨same, found', kept'⟩ := Option.bind_eq_some_iff.mp also
            obtain rfl := Option.some.inj (found'.symm.trans found)
            exact (Option.some.inj (Option.ite_none_left_eq_some.mp kept').2).symm.trans
              (Option.some.inj (Option.ite_none_left_eq_some.mp kept).2)
          · rw [if_neg isStar, if_neg isOne, if_neg isSet] at taken also
            exact (Option.some.inj (Option.ite_none_right_eq_some.mp also).2).symm.trans
              (Option.some.inj (Option.ite_none_right_eq_some.mp taken).2)

-----------------------------------------------------------------------------------------
-- Ways to a goal
-----------------------------------------------------------------------------------------

/-- What is left when the elements of a segment take a text. -/
def eats : List UInt16 → List UInt16 → Option (List UInt16)
  | seg, [] => some seg
  | seg, k :: text => (takeOne k seg).bind fun rest => eats rest text

theorem eats_snoc (k : UInt16) (seg text : List UInt16)
    : eats seg (text ++ [k]) = (eats seg text).bind (takeOne k) := by
  induction text generalizing seg with
  | nil => simp [eats]
  | cons l text ih => simp only [List.cons_append, eats, ih, Option.bind_assoc]

theorem eats_suffix {seg rest text : List UInt16} (eaten : eats seg text = some rest)
    : rest <:+ seg := by
  induction text generalizing seg with
  | nil => exact (Option.some.inj eaten) ▸ List.suffix_refl _
  | cons k text ih =>
      obtain ⟨behind, taken, later⟩ := Option.bind_eq_some_iff.mp eaten
      obtain ⟨c, before, rfl, -, within⟩ := takeOne_suffix taken
      exact ((ih later).trans within).trans (List.suffix_cons c before)

/-- Goals at which no element can go on. -/
structure Final (goal : List UInt16 → List UInt16 → Prop) : Prop where
  star : ∀ seg name, ¬ goal (M_ALL :: seg) name
  taken : ∀ k seg rest name, takeOne k seg = some rest → ¬ goal seg name

theorem final_done : Final Done where
  star _ _ reached := List.cons_ne_nil _ _ reached.1
  taken k seg rest name taken reached := by
    obtain ⟨c, before, rfl, -⟩ := takeOne_suffix taken
    exact List.cons_ne_nil _ _ reached.1

theorem final_cut : Final Cut where
  star seg name reached := by
    obtain ⟨⟨rest, same, -⟩, -⟩ := reached
    exact absurd (List.cons.inj same).1 (by decide)
  taken k seg rest name taken reached := by
    obtain ⟨⟨before, rfl, cut⟩, -⟩ := reached
    have isStar : M_SET ≠ M_ALL := by decide
    have isOne : M_SET ≠ M_ONE := by decide
    simp [takeOne, isStar, isOne, cut] at taken

section

variable {goal : List UInt16 → List UInt16 → Prop} {seg rest name text : List UInt16} {k : UInt16}

theorem leads_take (final : Final goal) (taken : takeOne k seg = some rest)
    : Leads goal seg (k :: name) ↔ Leads goal rest name := by
  constructor
  · rintro (here | ⟨also, later⟩ | later | later)
    · exact absurd here (final.taken k seg rest _ taken)
    · exact takeOne_rest taken also ▸ later
    all_goals
      obtain ⟨c, before, same, plain, -⟩ := takeOne_suffix taken
      exact absurd (List.cons.inj same).1.symm plain
  · exact Leads.take taken

theorem leads_star (final : Final goal)
    : Leads goal (M_ALL :: seg) name
      ↔ Leads goal seg name ∨ ∃ k rest, name = k :: rest ∧ Leads goal (M_ALL :: seg) rest := by
  constructor
  · rintro (here | ⟨taken, -⟩ | later | later)
    · exact absurd here (final.star _ _)
    · simp [takeOne] at taken
    · exact .inl later
    · exact .inr ⟨_, _, rfl, later⟩
  · rintro (later | ⟨k, rest, rfl, later⟩)
    · exact .pass later
    · exact .star later

/-- A star takes any text before. -/
theorem leads_more (text : List UInt16) (later : Leads goal (M_ALL :: seg) name)
    : Leads goal (M_ALL :: seg) (text ++ name) := by
  induction text with
  | nil => exact later
  | cons k text ih => exact .star ih

/-- A star takes a text, and what is behind the star goes on. -/
theorem leads_behind (final : Final goal) (later : Leads goal (M_ALL :: seg) name)
    : ∃ text rest, name = text ++ rest ∧ Leads goal seg rest := by
  induction name with
  | nil =>
      obtain here | ⟨k, rest, impossible, -⟩ := (leads_star final).mp later
      · exact ⟨[], [], rfl, here⟩
      · cases impossible
  | cons k name ih =>
      obtain here | ⟨l, rest, same, deeper⟩ := (leads_star final).mp later
      · exact ⟨[], k :: name, rfl, here⟩
      · obtain ⟨rfl, rfl⟩ := List.cons.inj same
        obtain ⟨text, rest, rfl, here⟩ := ih deeper
        exact ⟨k :: text, rest, rfl, here⟩

/-- Where elements took a text, any way to the goal takes as many characters. -/
theorem leads_eats (final : Final goal) (eaten : eats seg text = some rest)
    (later : Leads goal seg name)
    : ∃ taken left, name = taken ++ left ∧ taken.length = text.length ∧ Leads goal rest left := by
  induction text generalizing seg name with
  | nil => exact ⟨[], name, rfl, rfl, Option.some.inj eaten ▸ later⟩
  | cons k text ih =>
      obtain ⟨behind, taken, eaten⟩ := Option.bind_eq_some_iff.mp eaten
      cases name with
      | nil =>
          obtain ⟨c, before, rfl, plain, -⟩ := takeOne_suffix taken
          rcases later with here | _ | later | _
          · exact absurd here (final.taken k _ _ _ taken)
          · exact absurd rfl plain
      | cons l name =>
          obtain ⟨other, also, deeper⟩
              : ∃ other, takeOne l seg = some other ∧ Leads goal other name := by
            rcases later with here | ⟨also, deeper⟩ | later | later
            · exact absurd here (final.taken k _ _ _ taken)
            · exact ⟨_, also, deeper⟩
            all_goals
              obtain ⟨c, before, same, plain, -⟩ := takeOne_suffix taken
              exact absurd (List.cons.inj same).1.symm plain
          obtain ⟨eating, left, rfl, long, reached⟩ := ih eaten (takeOne_rest taken also ▸ deeper)
          exact ⟨l :: eating, left, rfl, congrArg (· + 1) long, reached⟩

/-- **The last star is enough**: what an earlier star could do by taking more, the star that was come to
behind it can do.
-/
theorem leads_last {k : UInt16} {before : List UInt16} (final : Final goal)
    (eaten : eats seg text = some (M_ALL :: rest)) (split : k :: before = text ++ name)
    (earlier : Leads goal (M_ALL :: seg) before)
    : Leads goal (M_ALL :: rest) name := by
  obtain ⟨skipped, from_, rfl, later⟩ := leads_behind final earlier
  obtain ⟨taken, left, rfl, long, reached⟩ := leads_eats final eaten later
  have lengths := congrArg List.length split
  simp only [List.length_cons, List.length_append] at lengths
  have ends : left <:+ text ++ name := split ▸ ⟨k :: (skipped ++ taken), by simp⟩
  have inside : left <:+ name :=
    List.suffix_of_suffix_length_le ends (List.suffix_append text name) (by omega)
  obtain ⟨more, rfl⟩ := inside
  exact leads_more more reached

/-- Stars that follow one add nothing. -/
theorem leads_stars (final : Final goal)
    : Leads goal (M_ALL :: M_ALL :: seg) name ↔ Leads goal (M_ALL :: seg) name := by
  constructor
  · intro ways
    obtain ⟨text, rest, rfl, later⟩ := leads_behind final ways
    exact leads_more text later
  · exact Leads.pass

/-- What is behind the stars that come first. -/
def behindStars (seg : List UInt16) : List UInt16 := seg.dropWhile (· = M_ALL)

theorem leads_behindStars (final : Final goal)
    : Leads goal (M_ALL :: seg) name ↔ Leads goal (M_ALL :: behindStars seg) name := by
  induction seg with
  | nil => rfl
  | cons c seg ih =>
      by_cases isStar : c = M_ALL
      · subst isStar
        simp only [behindStars, List.dropWhile_cons, decide_true, if_true]
        exact (leads_stars final).trans ih
      · simp [behindStars, isStar]

theorem lastStar_spec (plain : stop ≠ M_ALL)
    : lastStar (M_ALL :: (seg ++ [stop])) = M_ALL :: (behindStars seg ++ [stop]) := by
  induction seg with
  | nil => simp [lastStar, behindStars, plain]
  | cons c seg ih =>
      by_cases isStar : c = M_ALL
      · subst isStar
        simpa only [List.cons_append, lastStar, if_true, behindStars, List.dropWhile_cons, decide_true] using ih
      · simp [lastStar, behindStars, isStar]

end

-----------------------------------------------------------------------------------------
-- Rounds
-----------------------------------------------------------------------------------------

section

/-- The variables of `match` with something left of the segment and of the name, after the last star
with what was left of the name there. It is known whether the end of the name was seen.
-/
def cursorAt (seg name : List UInt16) (stop : UInt16) (pat left : List UInt16)
    (star : Option (List UInt16 × List UInt16)) (seen : Bool)
    : Cursor where
  pat := pat ++ [stop]
  patNext := (star.elim seg fun star => M_ALL :: star.1) ++ [stop]
  name := left ++ [EOS]
  nameNext := star.elim (name ++ [EOS]) fun star => (star.2 ++ [EOS]).tail
  nameEnd := if seen then some [EOS] else none

variable {seg name pat rest left : List UInt16} {star : Option (List UInt16 × List UInt16)} {seen : Bool}
  {k : UInt16}

/-- What is behind a segment is no mark. -/
structure Unmarked (stop : UInt16) : Prop where
  all : stop ≠ M_ALL
  one : stop ≠ M_ONE
  set : stop ≠ M_SET
  not : stop ≠ M_NOT
  end_ : stop ≠ M_END
  rng : stop ≠ M_RNG

theorem plain_stop (ends : stop = SEP ∨ stop = EOS) : Unmarked stop := by
  rcases ends with rfl | rfl
  all_goals constructor <;> decide

theorem round_done
    : round (name ++ [EOS]) (cursorAt seg name stop [] [] star seen) = some (.inr true) := by
  simp [round, cursorAt]

theorem round_star (plain : Unmarked stop) (live : EOS ∉ left)
    : round (name ++ [EOS]) (cursorAt seg name stop (M_ALL :: pat) left star seen)
      = some (.inl (cursorAt seg name stop (behindStars pat) left (some (behindStars pat, left))
          (seen || left = []))) := by
  cases left with
  | nil => simp [round, cursorAt, lastStar_spec plain.all]
  | cons k left =>
      have going : k ≠ EOS := fun same => live (same ▸ List.mem_cons_self)
      simp [round, cursorAt, lastStar_spec plain.all, going]

/-- The set behind its mark is read as the segment has it, or the loop goes on behind the segment. -/
theorem setLoop_closed (plain : Unmarked stop)
    : setLoop k false (if (pat ++ [stop]).head? = some M_NOT then (pat ++ [stop]).tail else pat ++ [stop])
      = (closedSet pat).map fun set => (inRanges set.2.1 k, set.2.2 ++ [stop]) := by
  have marked : ((pat ++ [stop]).head? = some M_NOT) ↔ pat.head? = some M_NOT := by
    cases pat with
    | nil => simp [plain.not]
    | cons c pat => rfl
  simp only [marked, closedSet]
  by_cases negated : pat.head? = some M_NOT
  · obtain ⟨c, behind, rfl⟩ : ∃ c behind, pat = c :: behind :=
      List.exists_cons_of_ne_nil fun empty => by simp [empty] at negated
    simp only [negated, if_true, decide_true, List.cons_append, List.tail_cons,
      setLoop_spec k ⟨plain.end_, plain.rng⟩, Option.map_map]
    simp [Function.comp_def]
  · simp only [negated, if_false, decide_false, Bool.false_eq_true, setLoop_spec k ⟨plain.end_, plain.rng⟩,
      Option.map_map]
    simp [Function.comp_def]

/-- A set, with a character of the name to look for. -/
theorem round_set (plain : Unmarked stop) (going : k ≠ EOS)
    : round (name ++ [EOS]) (cursorAt seg name stop (M_SET :: pat) (k :: left) star seen)
      = (closedSet pat).map fun set =>
          let after := cursorAt seg name stop set.2.2 left star seen
          if inRanges set.2.1 k = set.1 then backtrack (name ++ [EOS]) after else .inl after := by
  have isAll : M_SET ≠ M_ALL := by decide
  have isOne : M_SET ≠ M_ONE := by decide
  obtain ⟨first, behind, text⟩ : ∃ first behind, pat ++ [stop] = first :: behind :=
    List.exists_cons_of_ne_nil (List.append_ne_nil_of_right_ne_nil pat (List.cons_ne_nil stop []))
  have found : setLoop k false
        (if (pat ++ [stop]).head? = some M_NOT then (pat ++ [stop]).tail else pat ++ [stop])
      = (closedSet pat).map fun set => (inRanges set.2.1 k, set.2.2 ++ [stop]) :=
    setLoop_closed plain
  simp only [text, List.head?_cons, List.tail_cons, Option.some.injEq] at found
  have negated : pat.head? = some M_NOT ↔ first = M_NOT := by
    cases pat with
    | nil => simpa [← (List.cons.inj text).1] using plain.not
    | cons c pat => simp [(List.cons.inj text).1]
  cases closed : closedSet pat with
  | none =>
      rw [closed] at found
      simp [round, cursorAt, isAll, isOne, going, text, found]
  | some set =>
      have sign : set.1 = decide (first = M_NOT) := by
        simp only [closedSet, Option.map_eq_some_iff, negated] at closed
        obtain ⟨-, -, rfl⟩ := closed
        rfl
      rw [closed] at found
      simp only [round, cursorAt, isAll, isOne, going, text, found, sign, List.cons_append, List.head?_cons,
        List.tail_cons, Option.bind_eq_bind, Option.bind_some, Option.map_some, if_false, if_true, or_true,
        ne_eq, not_true_eq_false, not_false_eq_true]
      split
      · rfl
      · rfl

/-- An element that takes the character is passed with it. -/
theorem round_take (plain : Unmarked stop) (going : k ≠ EOS) (taken : takeOne k pat = some rest)
    : round (name ++ [EOS]) (cursorAt seg name stop pat (k :: left) star seen)
      = some (.inl (cursorAt seg name stop rest left star seen)) := by
  cases pat with
  | nil => simp [takeOne] at taken
  | cons c pat =>
      by_cases isAll : c = M_ALL
      · simp [takeOne, isAll] at taken
      by_cases isOne : c = M_ONE
      · subst isOne
        obtain rfl : pat = rest := by simpa [takeOne, isAll] using taken
        simp [round, cursorAt, isAll, going]
      by_cases isSet : c = M_SET
      · subst isSet
        simp only [takeOne, if_neg isAll, if_neg isOne, if_true] at taken
        obtain ⟨set, closed, kept⟩ := Option.bind_eq_some_iff.mp taken
        obtain ⟨has, same⟩ := Option.ite_none_left_eq_some.mp kept
        obtain rfl := Option.some.inj same
        rw [round_set plain going, closed, Option.map_some]
        simp only [if_neg has]
      · simp only [takeOne, if_neg isAll, if_neg isOne, if_neg isSet] at taken
        obtain ⟨rfl, same⟩ := Option.ite_none_right_eq_some.mp taken
        obtain rfl := Option.some.inj same
        simp [round, cursorAt, isAll, isOne, isSet, going]

/-- Where the next element takes nothing, the matcher goes back. -/
theorem round_stuck (plain : Unmarked stop) (live : EOS ∉ pat) (open_ : EOS ∉ left ∧ stop ∉ left)
    (noStar : pat.head? ≠ some M_ALL) (more : pat ≠ [] ∨ left ≠ [])
    (stuck : ∀ k behind, left = k :: behind → takeOne k pat = none) (uncut : ¬ Cut pat left)
    : round (name ++ [EOS]) (cursorAt seg name stop pat left star seen)
      = some (backtrack (name ++ [EOS]) (cursorAt seg name stop pat left star (seen || left = []))) := by
  cases left with
  | nil =>
      cases pat with
      | nil => simp at more
      | cons c pat =>
          have isAll : c ≠ M_ALL := fun same => noStar (congrArg some same)
          have noEnd : EOS ≠ c := fun same => live (same ▸ List.mem_cons_self)
          by_cases isOne : c = M_ONE
          · subst isOne
            simp [round, cursorAt, isAll]
          by_cases isSet : c = M_SET
          · subst isSet
            simp [round, cursorAt, isAll, isOne]
          · simp [round, cursorAt, isAll, isOne, isSet, noEnd]
  | cons k left =>
      have going : k ≠ EOS := fun same => open_.1 (same ▸ List.mem_cons_self)
      cases pat with
      | nil =>
          have other : k ≠ stop := fun same => open_.2 (same ▸ List.mem_cons_self)
          simp [round, cursorAt, plain.all, plain.one, plain.set, going, other]
      | cons c pat =>
          have isAll : c ≠ M_ALL := fun same => noStar (congrArg some same)
          have nothing := stuck k left rfl
          by_cases isOne : c = M_ONE
          · subst isOne
            simp [takeOne, isAll] at nothing
          by_cases isSet : c = M_SET
          · subst isSet
            rw [round_set plain going]
            cases closed : closedSet pat with
            | none => exact absurd ⟨⟨pat, rfl, closed⟩, List.cons_ne_nil k left⟩ uncut
            | some set =>
                simp only [takeOne, if_neg isAll, if_neg isOne, if_true, closed, Option.bind_some] at nothing
                have missed : inRanges set.2.1 k = set.1 := by
                  by_contra has
                  simp [has] at nothing
                simp only [Option.map_some, if_pos missed, Option.some.injEq]
                simp [cursorAt, backtrack]
          · have other : k ≠ c := fun same => by simp [takeOne, isAll, isOne, isSet, same] at nothing
            simp [round, cursorAt, isAll, isOne, isSet, going, other]

/-- A set that is cut is read on behind the segment. -/
theorem round_cut (plain : Unmarked stop) (live : EOS ∉ left) (cut : Cut pat left)
    : round (name ++ [EOS]) (cursorAt seg name stop pat left star seen) = none := by
  obtain ⟨⟨pat, rfl, closed⟩, more⟩ := cut
  obtain ⟨k, left, rfl⟩ := List.exists_cons_of_ne_nil more
  rw [round_set plain (fun same => live (same ▸ List.mem_cons_self)), closed, Option.map_none]

/-- Without a star before, or with a star that has taken all, the matcher ends. -/
theorem backtrack_none (before : star.elim True fun star => star.2 = [] ∧ seen = true)
    : backtrack (name ++ [EOS]) (cursorAt seg name stop pat left star seen) = .inr false := by
  cases star with
  | none => simp [backtrack, cursorAt]
  | some star => simp [backtrack, cursorAt, before.1, before.2]

/-- Back at a star, it takes one character more. -/
theorem backtrack_star {before behind : List UInt16} (within : before.length < name.length)
    : backtrack (name ++ [EOS]) (cursorAt seg name stop pat left (some (behind, k :: before)) seen)
      = .inl (cursorAt seg name stop (M_ALL :: behind) before (some (behind, k :: before)) seen) := by
  have moved : before.length ≠ name.length := by omega
  cases seen with
  | false => simp [backtrack, cursorAt, moved]
  | true => simp [backtrack, cursorAt, moved]

end

-----------------------------------------------------------------------------------------
-- Runs
-----------------------------------------------------------------------------------------

section

variable {goal : List UInt16 → List UInt16 → Prop} {seg name pat rest left : List UInt16}
  {star : Option (List UInt16 × List UInt16)} {seen : Bool} {k : UInt16}

/-- The loop ends with a result, however many rounds more it may have. -/
def Ends (nameStart : List UInt16) (cur : Cursor) (result : Option Bool) : Prop :=
  ∃ enough, ∀ fuel, enough ≤ fuel → rounds nameStart fuel cur = some result

theorem Ends.step {nameStart : List UInt16} {cur next : Cursor} {result : Option Bool}
    (goes : round nameStart cur = some (.inl next)) (later : Ends nameStart next result)
    : Ends nameStart cur result := by
  obtain ⟨enough, later⟩ := later
  refine ⟨enough + 1, fun fuel more => ?_⟩
  obtain ⟨fuel, rfl⟩ : ∃ less, fuel = less + 1 := ⟨fuel - 1, by omega⟩
  simp only [rounds, goes]
  exact later fuel (by omega)

theorem Ends.returns {nameStart : List UInt16} {cur : Cursor} {answer : Bool}
    (stops : round nameStart cur = some (.inr answer))
    : Ends nameStart cur (some answer) := by
  refine ⟨1, fun fuel more => ?_⟩
  obtain ⟨fuel, rfl⟩ : ∃ less, fuel = less + 1 := ⟨fuel - 1, by omega⟩
  simp only [rounds, stops]

theorem Ends.out {nameStart : List UInt16} {cur : Cursor} (reads : round nameStart cur = none)
    : Ends nameStart cur none := by
  refine ⟨1, fun fuel more => ?_⟩
  obtain ⟨fuel, rfl⟩ : ∃ less, fuel = less + 1 := ⟨fuel - 1, by omega⟩
  simp only [rounds, reads]

theorem Ends.unique {nameStart : List UInt16} {cur : Cursor} {one other : Option Bool}
    (ends : Ends nameStart cur one) (also : Ends nameStart cur other)
    : one = other := by
  obtain ⟨enough, ends⟩ := ends
  obtain ⟨enough', also⟩ := also
  exact Option.some.inj ((ends _ (le_max_left enough enough')).symm.trans (also _ (le_max_right _ _)))

/-- What the matcher still has to find out: whether there is a way to the goal from where it is, or from
the last star when that takes more.
-/
def Question (goal : List UInt16 → List UInt16 → Prop) (pat left : List UInt16)
    (star : Option (List UInt16 × List UInt16))
    : Prop :=
  Leads goal pat left
    ∨ ∃ behind k before, star = some (behind, k :: before) ∧ Leads goal (M_ALL :: behind) before

/-- A result tells whether there is a way to the end, if there is none to a set that is cut. -/
def Answers (pat left : List UInt16) (star : Option (List UInt16 × List UInt16)) : Option Bool → Prop
  | none => Question Cut pat left star
  | some true => Question Done pat left star ∧ ¬ Question Cut pat left star
  | some false => ¬ Question Done pat left star ∧ ¬ Question Cut pat left star

theorem Answers.congr {pat' left' : List UInt16} {star' : Option (List UInt16 × List UInt16)}
    (done : Question Done pat left star ↔ Question Done pat' left' star')
    (cut : Question Cut pat left star ↔ Question Cut pat' left' star')
    {result : Option Bool} (answers : Answers pat' left' star' result)
    : Answers pat left star result := by
  rcases result with _ | _ | _
  · exact cut.mpr answers
  · exact ⟨done.not.mpr answers.1, cut.not.mpr answers.2⟩
  · exact ⟨done.mpr answers.1, cut.not.mpr answers.2⟩

/-- What is kept about the last star: the elements behind it took the text up to where the matcher is. -/
structure Kept (seg name pat left behind before : List UInt16) (seen : Bool) : Prop where
  eaten : ∃ text, eats behind text = some pat ∧ before = text ++ left
  last : behindStars behind = behind
  rear : behind <:+ seg
  front : before <:+ name
  seen : before = [] → seen = true

/-- The invariant of the loop. -/
structure Held (seg name pat left : List UInt16) (star : Option (List UInt16 × List UInt16)) (seen : Bool)
    : Prop where
  segment : pat <:+ seg
  text : left <:+ name
  kept : ∀ behind before, star = some (behind, before) → Kept seg name pat left behind before seen

theorem behindStars_suffix (seg : List UInt16)
    : behindStars seg <:+ seg :=
  List.dropWhile_suffix _

theorem behindStars_again (seg : List UInt16)
    : behindStars (behindStars seg) = behindStars seg :=
  List.dropWhile_idempotent _ _

theorem Held.take (held : Held seg name pat (k :: left) star seen) (taken : takeOne k pat = some rest)
    : Held seg name rest left star seen where
  segment := by
    obtain ⟨c, before, rfl, -, within⟩ := takeOne_suffix taken
    exact (within.trans (List.suffix_cons c before)).trans held.segment
  text := (List.suffix_cons k left).trans held.text
  kept behind before same := by
    have kept := held.kept behind before same
    obtain ⟨text, eaten, split⟩ := kept.eaten
    refine ⟨⟨text ++ [k], ?_, by simpa using split⟩, kept.last, kept.rear, kept.front, kept.seen⟩
    rw [eats_snoc, eaten, Option.bind_some, taken]

theorem Held.next (held : Held seg name (M_ALL :: pat) left star seen)
    : Held seg name (behindStars pat) left (some (behindStars pat, left)) (seen || left = []) := by
  have inside : behindStars pat <:+ seg :=
    ((behindStars_suffix pat).trans (List.suffix_cons M_ALL pat)).trans held.segment
  refine ⟨inside, held.text, fun behind before same => ?_⟩
  obtain ⟨rfl, rfl⟩ := Prod.mk.inj (Option.some.inj same)
  exact ⟨⟨[], rfl, rfl⟩, behindStars_again pat, inside, held.text, fun empty => by simp [empty]⟩

theorem Held.back {behind before : List UInt16}
    (held : Held seg name pat left (some (behind, k :: before)) seen) (seen' : Bool)
    : Held seg name behind before (some (behind, before)) (seen' || before = []) := by
  have kept := held.kept behind (k :: before) rfl
  have inside : before <:+ name := (List.suffix_cons k before).trans kept.front
  refine ⟨kept.rear, inside, fun behind' before' same => ?_⟩
  obtain ⟨rfl, rfl⟩ := Prod.mk.inj (Option.some.inj same)
  exact ⟨⟨[], rfl, rfl⟩, kept.last, kept.rear, inside, fun empty => by simp [empty]⟩

theorem question_take (final : Final goal) (taken : takeOne k pat = some rest)
    : Question goal pat (k :: left) star ↔ Question goal rest left star :=
  or_congr (leads_take final taken) Iff.rfl

theorem question_stuck {behind before : List UInt16} (nowhere : ¬ Leads goal pat left)
    : Question goal pat left (some (behind, k :: before)) ↔ Leads goal (M_ALL :: behind) before := by
  simp [Question, nowhere]

/-- Right behind a star, the question is that of the star. -/
theorem question_behind (final : Final goal)
    : Question goal pat left (some (pat, left)) ↔ Leads goal (M_ALL :: pat) left := by
  rw [leads_star final]
  simp [Question]

theorem question_star (final : Final goal) (held : Held seg name (M_ALL :: pat) left star seen)
    : Question goal (M_ALL :: pat) left star
      ↔ Question goal (behindStars pat) left (some (behindStars pat, left)) := by
  rw [question_behind final, ← leads_behindStars final]
  constructor
  · rintro (here | ⟨behind, k, before, rfl, earlier⟩)
    · exact here
    · obtain ⟨text, eaten, split⟩ := (held.kept _ _ rfl).eaten
      exact leads_last final eaten split earlier
  · exact Or.inl

theorem leads_stuck (noStar : pat.head? ≠ some M_ALL) (here : ¬ goal pat left)
    (stuck : ∀ k behind, left = k :: behind → takeOne k pat = none)
    : ¬ Leads goal pat left := by
  rintro (reached | ⟨taken, -⟩ | later | later)
  · exact here reached
  · simp [stuck _ _ rfl] at taken
  · exact noStar rfl
  · exact noStar rfl

/-- At the end of the segment and of the name, no set that is cut can be come to any more. -/
theorem done_uncut (held : Held seg name [] [] star seen)
    : ¬ Question Cut [] [] star := by
  rintro (here | ⟨behind, k, before, rfl, earlier⟩)
  · rcases here with here | _ | _ | _
    exact here.2 rfl
  · obtain ⟨text, eaten, split⟩ := (held.kept _ _ rfl).eaten
    obtain ⟨skipped, from_, rfl, later⟩ := leads_behind final_cut earlier
    obtain ⟨taken, left, rfl, -, reached⟩ := leads_eats final_cut eaten later
    rcases reached with here | ⟨taken, -⟩ | _ | _
    · obtain ⟨⟨rest, same, -⟩, -⟩ := here
      exact List.cons_ne_nil _ _ same.symm
    · simp [takeOne] at taken

/-- What the loop comes to from its variables on. -/
def Answered (seg name : List UInt16) (stop : UInt16) (pat left : List UInt16)
    (star : Option (List UInt16 × List UInt16)) (seen : Bool)
    : Prop :=
  ∃ result, Ends (name ++ [EOS]) (cursorAt seg name stop pat left star seen) result
    ∧ Answers pat left star result

/-- Where nothing goes on, the answer is that of the last star when it takes one character more. -/
theorem answered_stuck (plain : Unmarked stop) (live : EOS ∉ seg) (clear : EOS ∉ name ∧ stop ∉ name)
    (held : Held seg name pat left star seen) (noStar : pat.head? ≠ some M_ALL)
    (more : pat ≠ [] ∨ left ≠ []) (stuck : ∀ k behind, left = k :: behind → takeOne k pat = none)
    (uncut : ¬ Cut pat left)
    (again : ∀ behind k before, star = some (behind, k :: before)
      → ∀ seen, Answered seg name stop behind before (some (behind, before)) (seen || before = []))
    : Answered seg name stop pat left star seen := by
  have back : round (name ++ [EOS]) (cursorAt seg name stop pat left star seen)
      = some (backtrack (name ++ [EOS]) (cursorAt seg name stop pat left star (seen || left = []))) :=
    round_stuck plain (fun inside => live (held.segment.subset inside))
      ⟨fun inside => clear.1 (held.text.subset inside), fun inside => clear.2 (held.text.subset inside)⟩
      noStar more stuck uncut
  have noDone : ¬ Leads Done pat left :=
    leads_stuck noStar (fun done => more.elim (· done.1) (· done.2)) stuck
  have noCut : ¬ Leads Cut pat left := leads_stuck noStar uncut stuck
  by_cases starred : ∃ behind k before, star = some (behind, k :: before)
  · obtain ⟨behind, k, before, rfl⟩ := starred
    have kept := held.kept behind (k :: before) rfl
    obtain ⟨result, ends, answers⟩ := again behind k before rfl (seen || left = [])
    refine ⟨result, ?_, answers.congr ?_ ?_⟩
    · rw [backtrack_star kept.front.length_le] at back
      refine Ends.step back (Ends.step (round_star plain ?_) ?_)
      · exact fun inside => clear.1 (kept.front.subset (List.mem_cons_of_mem k inside))
      · rw [kept.last]
        exact ends
    · exact (question_stuck noDone).trans (question_behind final_done).symm
    · exact (question_stuck noCut).trans (question_behind final_cut).symm
  · have nothing : ∀ goal, ¬ Leads goal pat left → ¬ Question goal pat left star := by
      rintro goal nowhere (here | ⟨behind, k, before, same, -⟩)
      · exact nowhere here
      · exact starred ⟨behind, k, before, same⟩
    refine ⟨some false, Ends.returns (back.trans (congrArg some (backtrack_none ?_))), nothing Done noDone,
      nothing Cut noCut⟩
    rcases star with _ | ⟨behind, _ | ⟨k, before⟩⟩
    · trivial
    · exact ⟨rfl, by simp [(held.kept behind [] rfl).seen rfl]⟩
    · exact absurd ⟨behind, k, before, rfl⟩ starred

/-- The loop ends with the answer. Either a star further on is come to, or the last star takes more, or
less is left of the name.
-/
theorem answered (plain : Unmarked stop) (live : EOS ∉ seg) (clear : EOS ∉ name ∧ stop ∉ name)
    (pat left : List UInt16) (star : Option (List UInt16 × List UInt16)) (seen : Bool)
    (held : Held seg name pat left star seen)
    : Answered seg name stop pat left star seen := by
  by_cases cut : Cut pat left
  · exact ⟨none, Ends.out (round_cut plain (fun inside => clear.1 (held.text.subset inside)) cut),
      .inl (.goal cut)⟩
  by_cases starred : pat.head? = some M_ALL
  · obtain ⟨pat, rfl⟩ := List.head?_eq_some_iff.mp starred
    have ahead : (behindStars pat).length < star.elim (seg.length + 1) (·.1.length) := by
      have shorter := (behindStars_suffix pat).length_le
      cases star with
      | none =>
          have inside := held.segment.length_le
          simp only [List.length_cons, Option.elim_none] at inside ⊢
          omega
      | some star =>
          obtain ⟨text, eaten, -⟩ := (held.kept star.1 star.2 rfl).eaten
          have inside := (eats_suffix eaten).length_le
          simp only [List.length_cons, Option.elim_some] at inside ⊢
          omega
    obtain ⟨result, ends, answers⟩ := answered plain live clear _ _ _ _ held.next
    exact ⟨result,
      Ends.step (round_star plain (fun inside => clear.1 (held.text.subset inside))) ends,
      answers.congr (question_star final_done held) (question_star final_cut held)⟩
  by_cases stuck : ∀ k behind, left = k :: behind → takeOne k pat = none
  · by_cases more : pat ≠ [] ∨ left ≠ []
    · refine answered_stuck plain live clear held starred more stuck cut fun behind k before same seen' => ?_
      exact answered plain live clear _ _ _ _ ((same ▸ held).back seen')
    · obtain ⟨rfl, rfl⟩ : pat = [] ∧ left = [] := by simpa [not_or] using more
      exact ⟨some true, Ends.returns round_done, .inl (.goal ⟨rfl, rfl⟩), done_uncut held⟩
  · push Not at stuck
    obtain ⟨k, behind, split, goes⟩ := stuck
    obtain ⟨rest, taken⟩ := Option.ne_none_iff_exists'.mp goes
    have less : behind.length < left.length := by simp [split]
    obtain ⟨result, ends, answers⟩ := answered plain live clear _ _ _ _ ((split ▸ held).take taken)
    subst split
    have going : k ≠ EOS := fun same => clear.1 (held.text.subset (same ▸ List.mem_cons_self))
    exact ⟨result, Ends.step (round_take plain going taken) ends,
      answers.congr (question_take final_done taken) (question_take final_cut taken)⟩
  termination_by (star.elim (seg.length + 1) (·.1.length), star.elim 0 (·.2.length), left.length)
  decreasing_by
    · exact Prod.Lex.left _ _ ahead
    · rw [same]
      exact Prod.Lex.right _ (Prod.Lex.left _ _ (Nat.lt_succ_self _))
    · exact Prod.Lex.right _ (Prod.Lex.right _ less)

/-- What the matcher comes to on a segment and a name. -/
theorem matchName_answers (plain : Unmarked stop) (live : EOS ∉ seg) (clear : EOS ∉ name ∧ stop ∉ name)
    : ∃ result, (∃ enough, ∀ fuel, enough ≤ fuel → matchName fuel name seg stop = some result)
      ∧ Answers seg name none result :=
  answered plain live clear seg name none false
    ⟨List.suffix_refl seg, List.suffix_refl name, fun _ _ impossible => by cases impossible⟩

theorem question_none
    : Question goal pat left none ↔ Leads goal pat left := by
  simp [Question]

/-- Only a set that is cut leads to one. -/
theorem leads_cut (ways : Leads Cut seg name)
    : ∃ rest, M_SET :: rest <:+ seg ∧ closedSet rest = none := by
  induction ways with
  | goal here =>
      obtain ⟨⟨rest, rfl, cut⟩, -⟩ := here
      exact ⟨rest, List.suffix_refl _, cut⟩
  | take taken later ih =>
      obtain ⟨rest, within, cut⟩ := ih
      obtain ⟨c, before, rfl, -, inside⟩ := takeOne_suffix taken
      exact ⟨rest, (within.trans inside).trans (List.suffix_cons c before), cut⟩
  | pass later ih =>
      obtain ⟨rest, within, cut⟩ := ih
      exact ⟨rest, within.trans (List.suffix_cons _ _), cut⟩
  | star later ih => exact ih

end

/-- **The matcher is exact** where no set that a slash cuts is come to with a character left for it. -/
theorem match_exact_iff (globstar : Bool) (pattern : Pattern) (seg name : List UInt16) (stop : UInt16)
    (segment : Segment globstar pattern seg stop) (file : SEP ∉ name ∧ EOS ∉ name)
    : Exact name seg stop ↔ ¬ Leads Cut seg name := by
  have clear : EOS ∉ name ∧ stop ∉ name := by
    rcases segment.stop with rfl | rfl
    · exact ⟨file.2, file.1⟩
    · exact ⟨file.2, file.2⟩
  obtain ⟨result, ends, answers⟩ := matchName_answers (plain_stop segment.stop) segment.plain.2 clear
  constructor
  · rintro ⟨answer, returns, -⟩ cut
    obtain rfl : some answer = result := Ends.unique returns ends
    cases answer with
    | false => exact answers.2 (question_none.mpr cut)
    | true => exact answers.2 (question_none.mpr cut)
  · intro uncut
    rcases result with _ | _ | _
    · exact absurd (question_none.mp answers) uncut
    · exact ⟨false, ends, nofun, fun accepted => absurd (question_none.mpr accepted) answers.1⟩
    · exact ⟨true, ends, fun _ => question_none.mp answers.1, fun _ => rfl⟩

theorem match_exact_star : Exact [97, 98] [97, M_ALL] EOS := by
  refine (match_exact_iff false [97, STAR] _ _ _ ⟨?compiled, by decide, .inr rfl⟩ (by decide)).mpr ?uncut
  case compiled => exact ⟨[97, M_ALL], [], [], by decide, rfl, .inl rfl⟩
  case uncut =>
    intro ways
    obtain ⟨rest, within, -⟩ := leads_cut ways
    exact absurd (within.subset List.mem_cons_self) (by decide)

/-- The brackets of `[a/b]` are open in the segment before the slash. -/
theorem match_bracket_slash
    : Segment false [LBRACKET, 97, SEP, 98, RBRACKET] [M_SET, 97] SEP ∧ ¬ Exact [97] [M_SET, 97] SEP := by
  refine ⟨⟨?compiled, by decide, .inl rfl⟩, ?differs⟩
  case compiled => exact ⟨[M_SET, 97, SEP, 98, M_END], [], [98, M_END, EOS], by decide, rfl, .inl rfl⟩
  case differs =>
    rintro ⟨answer, returns, -⟩
    have reads : Ends ([97] ++ [EOS]) (cursorAt [M_SET, 97] [97] SEP [M_SET, 97] [97] none false) none :=
      Ends.out (round_cut (plain_stop (.inl rfl)) (by decide) ⟨⟨[97], rfl, by decide⟩, by simp⟩)
    cases Ends.unique returns reads

end BSDLibC.Glob
