import BSDLibC.Glob.Tokens

/-! `globexp1` passes the expansion of csh to `glob0` when no bracket is in its way. -/

namespace BSDLibC.Glob

variable {ts xs ys before rest current behind a : List Token} {t : Token} {alternatives : List (List Token)}
  {i j depth : Nat} {start limit : Bool} {pattern content left : Pattern}

-----------------------------------------------------------------------------------------
-- Depths
-----------------------------------------------------------------------------------------

/-- The number of open groups behind some tokens, if no bracket is in a group. -/
def scan (i : Nat) : List Token → Option Nat
  | [] => some i
  | t :: ts =>
      if t.isBracket then if i = 0 then scan i ts else none
      else if t = .opens then scan (i + 1) ts
      else if t = .closes then if i = 0 then none else scan (i - 1) ts
      else scan i ts

theorem scan_append (i : Nat) (xs ys : List Token) : scan i (xs ++ ys) = (scan i xs).bind (fun j => scan j ys) := by
  induction xs generalizing i with
  | nil => rfl
  | cons t xs ih =>
      rw [List.cons_append, scan, scan]
      repeat' split
      all_goals first
        | exact ih _
        | rfl

theorem Token.not_bracket (same : t = .opens ∨ t = .closes ∨ t = .comma) : t.isBracket = false := by
  obtain rfl | rfl | rfl := same <;> rfl

theorem balanced_scan (scanned : scan i xs = some j) : balanced i (xs ++ ys) = balanced j ys := by
  induction xs generalizing i with
  | nil =>
      cases scanned
      rfl
  | cons t xs ih =>
      rw [scan] at scanned
      rw [List.cons_append, balanced]
      by_cases bracket : t.isBracket
      · have notOpens : t ≠ .opens := by rintro rfl; cases bracket
        have notCloses : t ≠ .closes := by rintro rfl; cases bracket
        rw [if_pos bracket] at scanned
        rw [if_neg notOpens, if_neg notCloses]
        split at scanned
        · exact ih scanned
        · cases scanned
      · rw [if_neg bracket] at scanned
        by_cases opens : t = .opens
        · rw [if_pos opens] at scanned ⊢
          exact ih scanned
        · rw [if_neg opens] at scanned ⊢
          by_cases closes : t = .closes
          · rw [if_pos closes] at scanned ⊢
            split at scanned
            · cases scanned
            next positive =>
              rw [ih scanned]
              simp [positive]
          · rw [if_neg closes] at scanned ⊢
            exact ih scanned

/-- Outside of groups it does not matter whether an alternative starts. -/
theorem bracketsPlaced_zero (start start' : Bool) (ts : List Token) : bracketsPlaced 0 start ts = bracketsPlaced 0 start' ts := by
  cases ts with
  | nil => rfl
  | cons t ts => simp [bracketsPlaced]

theorem bracketsPlaced_scan (start : Bool) (scanned : scan i xs = some j)
    : ∃ start', bracketsPlaced i start (xs ++ ys) = bracketsPlaced j start' ys := by
  induction xs generalizing i start with
  | nil =>
      cases scanned
      exact ⟨start, rfl⟩
  | cons t xs ih =>
      rw [scan] at scanned
      rw [List.cons_append, bracketsPlaced]
      split at scanned
      next bracket =>
        rw [if_pos bracket]
        split at scanned
        next zero =>
          rw [decide_eq_true zero, Bool.true_or, Bool.true_and]
          exact ih false scanned
        next => cases scanned
      next notBracket =>
        rw [if_neg notBracket]
        split at scanned
        next opens =>
          rw [if_pos opens]
          exact ih true scanned
        next notOpens =>
          rw [if_neg notOpens]
          split at scanned
          next closes =>
            rw [if_pos closes]
            split at scanned
            next => cases scanned
            next => exact ih false scanned
          next notCloses =>
            rw [if_neg notCloses]
            exact ih _ scanned

-----------------------------------------------------------------------------------------
-- The loops of `globexp2` on tokens
-----------------------------------------------------------------------------------------

theorem ofChar_cases (c : UInt16)
    : c = LBRACE ∧ Token.ofChar c = .opens
      ∨ c = RBRACE ∧ Token.ofChar c = .closes
      ∨ c = COMMA ∧ Token.ofChar c = .comma
      ∨ (c ≠ LBRACE ∧ c ≠ RBRACE ∧ c ≠ COMMA) ∧ Token.ofChar c = .char c := by
  rw [Token.ofChar]
  by_cases opens : c = LBRACE
  · exact Or.inl ⟨opens, if_pos opens⟩
  by_cases closes : c = RBRACE
  · exact Or.inr (Or.inl ⟨closes, by rw [if_neg opens, if_pos closes]⟩)
  by_cases comma : c = COMMA
  · exact Or.inr (Or.inr (Or.inl ⟨comma, by rw [if_neg opens, if_neg closes, if_pos comma]⟩))
  · exact Or.inr (Or.inr (Or.inr ⟨⟨opens, closes, comma⟩, by rw [if_neg opens, if_neg closes, if_neg comma]⟩))

theorem closing_ignored (open_ : RBRACKET ∉ content)
    : closing true i (content ++ RBRACKET :: left) = closing false i left := by
  induction content with
  | nil => simp [closing]
  | cons c cs ih =>
      rw [List.mem_cons, not_or] at open_
      rw [List.cons_append, closing, if_pos rfl, decide_eq_true (Ne.symm open_.1)]
      exact ih open_.2

theorem pieces_ignored {current : Pattern} (open_ : RBRACKET ∉ content)
    : pieces true i current (content ++ RBRACKET :: left) = pieces false i (current ++ content ++ [RBRACKET]) left := by
  induction content generalizing current with
  | nil => simp [pieces]
  | cons c cs ih =>
      rw [List.mem_cons, not_or] at open_
      rw [List.cons_append, pieces, if_pos rfl, decide_eq_true (Ne.symm open_.1), ih open_.2]
      simp

theorem closing_bracket (open_ : RBRACKET ∉ content)
    : closing false i ((Token.bracket content).text ++ left) = closing false i left := by
  rw [Token.text, List.cons_append, List.append_assoc, List.singleton_append, closing, if_neg Bool.false_ne_true, if_pos rfl,
    List.contains_iff_mem.mpr (by simp), closing_ignored open_]

theorem pieces_bracket {current : Pattern} (open_ : RBRACKET ∉ content)
    : pieces false i current ((Token.bracket content).text ++ left) = pieces false i (Token.bracket content).text left := by
  rw [Token.text, List.cons_append, List.append_assoc, List.singleton_append, pieces, if_neg Bool.false_ne_true, if_pos rfl,
    List.contains_iff_mem.mpr (by simp), pieces_ignored open_]
  rfl

/-- Where brackets are placed well, the loops do on the text what `cut` does on the tokens. The group in
`cut` is the innermost one of `i + 1`, and at the start of an alternative nothing has been read of it.
-/
theorem cut_text (valid : Valid ts) (placed : bracketsPlaced (i + 1) start ts) (fresh : i = 0 → start = true → current = [])
    (found : cut i current ts = some (alternatives, behind))
    : closing false i (text ts) = some (text behind)
      ∧ pieces false i (text current) (text ts) = alternatives.map text := by
  induction valid generalizing i start current alternatives behind with
  | nil => cases found
  | @bracket content ts closed rest ih =>
      have isBracket : (Token.bracket content).isBracket = true := rfl
      rw [bracketsPlaced, if_pos isBracket, Bool.and_eq_true, Bool.or_eq_true, Bool.and_eq_true, decide_eq_true_iff,
        decide_eq_true_iff] at placed
      obtain ⟨here | ⟨here, starts⟩, placed⟩ := placed
      · omega
      obtain rfl : i = 0 := by omega
      obtain rfl := fresh rfl starts
      rw [cut, if_neg (by simp), if_neg (by simp), if_neg (by simp)] at found
      rw [text_cons, closing_bracket closed, pieces_bracket closed]
      have below := ih placed (fun _ absurd => by cases absurd) found
      rwa [text_append, text_nil, text_cons, text_nil, List.nil_append, List.append_nil] at below
  | @unclosed ts open_ rest ih =>
      have isBracket : Token.unclosed.isBracket = true := rfl
      rw [bracketsPlaced, if_pos isBracket, Bool.and_eq_true, Bool.or_eq_true, Bool.and_eq_true, decide_eq_true_iff,
        decide_eq_true_iff] at placed
      obtain ⟨here | ⟨here, starts⟩, placed⟩ := placed
      · omega
      obtain rfl : i = 0 := by omega
      obtain rfl := fresh rfl starts
      rw [cut, if_neg (by simp), if_neg (by simp), if_neg (by simp)] at found
      have never : (text ts).contains RBRACKET = false := by
        rw [← Bool.not_eq_true, List.contains_iff_mem]
        exact open_
      rw [text_cons, Token.text, List.singleton_append, closing, if_neg Bool.false_ne_true, if_pos rfl, pieces,
        if_neg Bool.false_ne_true, if_pos rfl, never]
      exact ih placed (fun _ absurd => by cases absurd) found
  | @ofChar c ts plain rest ih =>
      rw [text_cons, text_ofChar, List.singleton_append, closing, if_neg Bool.false_ne_true, if_neg plain, pieces,
        if_neg Bool.false_ne_true, if_neg plain]
      obtain ⟨rfl, token⟩ | ⟨rfl, token⟩ | ⟨rfl, token⟩ | ⟨⟨notOpens, notCloses, notComma⟩, token⟩ := ofChar_cases c
      · rw [token] at placed found
        rw [bracketsPlaced, if_neg (by simp [Token.isBracket]), if_pos rfl] at placed
        rw [cut, if_pos rfl] at found
        rw [if_pos rfl, if_pos rfl]
        have below := ih placed (fun absurd => by omega) found
        rwa [text_append, text_cons, text_nil] at below
      · rw [token] at placed found
        rw [bracketsPlaced, if_neg (by simp [Token.isBracket]), if_neg (by simp), if_pos rfl] at placed
        rw [cut, if_neg (by simp), if_pos rfl] at found
        have ne : RBRACE ≠ LBRACE := by decide
        have same : RBRACE = RBRACE := rfl
        rw [if_neg ne, if_pos same, if_neg ne, if_pos same]
        by_cases last : i = 0
        · rw [if_pos last] at found ⊢
          rw [if_pos last]
          cases found
          exact ⟨rfl, rfl⟩
        · rw [if_neg last] at found ⊢
          rw [if_neg last]
          rw [Nat.add_sub_cancel, show i = i - 1 + 1 by omega] at placed
          have below := ih placed (fun _ absurd => by cases absurd) found
          rwa [text_append, text_cons, text_nil] at below
      · rw [token] at placed found
        rw [bracketsPlaced, if_neg (by simp [Token.isBracket]), if_neg (by simp), if_neg (by simp)] at placed
        rw [cut, if_neg (by simp), if_neg (by simp)] at found
        have notOpens : COMMA ≠ LBRACE := by decide
        have notCloses : COMMA ≠ RBRACE := by decide
        rw [if_neg notOpens, if_neg notCloses, if_neg notOpens, if_neg notCloses]
        by_cases outer : i = 0
        · rw [if_pos ⟨rfl, outer⟩] at found ⊢
          obtain ⟨⟨as, behind'⟩, found', same⟩ := Option.map_eq_some_iff.mp found
          cases same
          subst outer
          obtain ⟨closed, cuts⟩ := ih placed (fun _ _ => rfl) found'
          exact ⟨closed, congrArg (text current :: ·) cuts⟩
        · rw [if_neg fun both => outer both.2] at found ⊢
          have below := ih placed (fun zero => (outer zero).elim) found
          rwa [text_append, text_cons, text_nil] at below
      · rw [token] at placed found
        rw [bracketsPlaced, if_neg (by simp [Token.isBracket]), if_neg (by simp), if_neg (by simp)] at placed
        rw [cut, if_neg (by simp), if_neg (by simp), if_neg (by simp)] at found
        rw [if_neg notOpens, if_neg notCloses, if_neg notOpens, if_neg notCloses, if_neg fun both => notComma both.1]
        have below := ih placed (fun _ absurd => by simp at absurd) found
        rwa [text_append, text_cons, text_nil] at below

/-- A group has an alternative. -/
theorem cut_ne_nil (i : Nat) (current ts behind : List Token) : cut i current ts ≠ some ([], behind) := by
  induction ts generalizing i current with
  | nil => simp [cut]
  | cons t ts ih =>
      rw [cut]
      split
      · exact ih _ _
      split
      · split
        · simp
        · exact ih _ _
      split
      · rw [Ne, Option.map_eq_some_iff]
        rintro ⟨found, -, same⟩
        cases same
      · exact ih _ _

/-- What the group leaves: the alternatives hold no brackets inside of further groups, and the tokens
behind the group are as they were.
-/
theorem cut_parts (placed : bracketsPlaced (i + 1) start ts) (fresh : i = 0 → start = true → current = [])
    (scanned : scan 0 current = some i) (found : cut i current ts = some (alternatives, behind))
    : (∀ a ∈ alternatives, scan 0 a = some 0 ∧ (a ++ behind).Sublist (current ++ ts))
      ∧ bracketsPlaced 0 false behind = true
      ∧ (balanced (i + 1) ts = true → balanced 0 behind = true) := by
  induction ts generalizing i start current alternatives behind with
  | nil => cases found
  | cons t ts ih =>
      have extend {k : Nat} (step : scan i [t] = some k) : scan 0 (current ++ [t]) = some k := by
        rw [scan_append, scanned]
        exact step
      have regroup : current ++ [t] ++ ts = current ++ t :: ts := by rw [List.append_assoc, List.singleton_append]
      rw [bracketsPlaced] at placed
      rw [cut] at found
      rw [balanced]
      by_cases bracket : t.isBracket
      · have notOpens : t ≠ .opens := by rintro rfl; cases bracket
        have notCloses : t ≠ .closes := by rintro rfl; cases bracket
        have notComma : t ≠ .comma := by rintro rfl; cases bracket
        rw [if_pos bracket, Bool.and_eq_true, Bool.or_eq_true, Bool.and_eq_true, decide_eq_true_iff,
          decide_eq_true_iff] at placed
        obtain ⟨here | ⟨here, starts⟩, placed⟩ := placed
        · omega
        obtain rfl : i = 0 := by omega
        rw [if_neg notOpens, if_neg notCloses, if_neg fun both => notComma both.1] at found
        rw [if_neg notOpens, if_neg notCloses]
        have scanned' : scan 0 (current ++ [t]) = some 0 := extend (by rw [scan, if_pos bracket, if_pos rfl, scan])
        obtain ⟨parts, rest⟩ := ih placed (fun _ absurd => by cases absurd) scanned' found
        rw [regroup] at parts
        exact ⟨parts, rest⟩
      rw [if_neg bracket] at placed
      by_cases opens : t = .opens
      · rw [if_pos opens] at placed found ⊢
        have scanned' : scan 0 (current ++ [t]) = some (i + 1) :=
          extend (by rw [scan, if_neg bracket, if_pos opens, scan])
        obtain ⟨parts, rest⟩ := ih placed (fun absurd => by omega) scanned' found
        rw [regroup] at parts
        exact ⟨parts, rest⟩
      rw [if_neg opens] at placed found ⊢
      by_cases closes : t = .closes
      · rw [if_pos closes] at placed found ⊢
        rw [Nat.add_sub_cancel] at placed ⊢
        by_cases last : i = 0
        · rw [if_pos last] at found
          cases found
          subst last
          refine ⟨fun a member => ?_, ?_, fun all => ?_⟩
          · rw [List.mem_singleton.mp member]
            exact ⟨scanned, List.Sublist.append_left (List.sublist_cons_self _ _) _⟩
          · exact placed
          · simpa using all
        · rw [if_neg last] at found
          rw [show i = i - 1 + 1 by omega] at placed
          have scanned' : scan 0 (current ++ [t]) = some (i - 1) :=
            extend (by rw [scan, if_neg bracket, if_neg opens, if_pos closes, if_neg last, scan])
          obtain ⟨parts, rest, all⟩ := ih placed (fun _ absurd => by cases absurd) scanned' found
          rw [regroup] at parts
          rw [show i - 1 + 1 = i by omega] at all
          refine ⟨parts, rest, fun outer => all ?_⟩
          rw [Bool.and_eq_true] at outer
          exact outer.2
      rw [if_neg closes] at placed found ⊢
      have step : scan i [t] = some i := by rw [scan, if_neg bracket, if_neg opens, if_neg closes, scan]
      by_cases comma : t = .comma ∧ i = 0
      · rw [if_pos comma] at found
        obtain ⟨⟨as, behind'⟩, found', same⟩ := Option.map_eq_some_iff.mp found
        cases same
        obtain ⟨rfl, rfl⟩ := comma
        obtain ⟨parts, rest⟩ := ih placed (fun _ _ => rfl) rfl found'
        refine ⟨fun a member => ?_, rest⟩
        obtain rfl | member := List.mem_cons.mp member
        · refine ⟨scanned, ?_⟩
          have behindSub : behind'.Sublist ts := by
            obtain ⟨first, firstMem⟩ : ∃ a, a ∈ as := by
              cases as with
              | nil => exact absurd found' (cut_ne_nil _ _ _ _)
              | cons a as => exact ⟨a, List.mem_cons_self⟩
            exact (List.sublist_append_right _ _).trans (parts first firstMem).2
          exact List.Sublist.append_left (behindSub.trans (List.sublist_cons_self _ _)) _
        · obtain ⟨plain, sub⟩ := parts a member
          rw [List.nil_append] at sub
          exact ⟨plain, sub.trans ((List.sublist_cons_self _ _).trans (List.sublist_append_right _ _))⟩
      · rw [if_neg comma] at found
        have scanned' : scan 0 (current ++ [t]) = some i := extend step
        have noStart : i = 0 → decide (t = .comma) = true → current ++ [t] = [] :=
          fun zero starts => absurd ⟨of_decide_eq_true starts, zero⟩ comma
        obtain ⟨parts, rest⟩ := ih placed noStart scanned' found
        rw [regroup] at parts
        exact ⟨parts, rest⟩

theorem cut_total (outer : balanced (i + 1) ts = true) (current : List Token) : ∃ found, cut i current ts = some found := by
  induction ts generalizing i current with
  | nil => simp [balanced] at outer
  | cons t ts ih =>
      rw [balanced] at outer
      rw [cut]
      by_cases opens : t = .opens
      · rw [if_pos opens] at outer ⊢
        exact ih outer _
      rw [if_neg opens] at outer ⊢
      by_cases closes : t = .closes
      · rw [if_pos closes, Bool.and_eq_true, Nat.add_sub_cancel] at outer
        rw [if_pos closes]
        by_cases last : i = 0
        · exact ⟨_, if_pos last⟩
        · rw [if_neg last]
          exact ih (by rw [show i - 1 + 1 = i by omega]; exact outer.2) _
      rw [if_neg closes] at outer ⊢
      by_cases comma : t = .comma ∧ i = 0
      · obtain ⟨rfl, rfl⟩ := comma
        obtain ⟨found, cuts⟩ := ih outer []
        rw [if_pos ⟨rfl, rfl⟩, cuts]
        exact ⟨_, rfl⟩
      · rw [if_neg comma]
        exact ih outer _

-----------------------------------------------------------------------------------------
-- The first brace
-----------------------------------------------------------------------------------------

theorem firstOpen_none (none_ : firstOpen ts = none) : Token.opens ∉ ts := by
  induction ts with
  | nil => simp
  | cons t ts ih =>
      rw [firstOpen] at none_
      split at none_
      next => cases none_
      next notOpens =>
        rw [List.mem_cons, not_or]
        exact ⟨fun same => notOpens same.symm, ih (Option.map_eq_none_iff.mp none_)⟩

theorem firstOpen_some (found : firstOpen ts = some (before, rest)) : ts = before ++ .opens :: rest ∧ .opens ∉ before := by
  induction ts generalizing before with
  | nil => cases found
  | cons t ts ih =>
      rw [firstOpen] at found
      split at found
      next opens =>
        cases found
        exact ⟨by rw [opens, List.nil_append], List.not_mem_nil⟩
      next notOpens =>
        obtain ⟨⟨before', rest'⟩, found', same⟩ := Option.map_eq_some_iff.mp found
        cases same
        obtain ⟨rfl, leftmost⟩ := ih found'
        refine ⟨rfl, ?_⟩
        rw [List.mem_cons, not_or]
        exact ⟨fun same => notOpens same.symm, leftmost⟩

theorem brace_not_mem_text (valid : Valid ts) (brackets : NoBraceInBracket ts) (noGroup : Token.opens ∉ ts) : LBRACE ∉ text ts := by
  induction valid with
  | nil => simp
  | bracket closed rest ih =>
      have inside := brackets _ List.mem_cons_self
      have below := ih (fun content member => brackets content (List.mem_cons_of_mem _ member))
        (fun member => noGroup (List.mem_cons_of_mem _ member))
      simp only [text_cons, Token.text, List.cons_append, List.append_assoc, List.nil_append, List.mem_cons,
        List.mem_append, not_or]
      exact ⟨by decide, inside, by decide, below⟩
  | unclosed open_ rest ih =>
      have below := ih (fun content member => brackets content (List.mem_cons_of_mem _ member))
        (fun member => noGroup (List.mem_cons_of_mem _ member))
      rw [text_cons, Token.text, List.singleton_append, List.mem_cons, not_or]
      exact ⟨by decide, below⟩
  | @ofChar c ts plain rest ih =>
      have below := ih (fun content member => brackets content (List.mem_cons_of_mem _ member))
        (fun member => noGroup (List.mem_cons_of_mem _ member))
      rw [text_cons, text_ofChar, List.singleton_append, List.mem_cons, not_or]
      refine ⟨fun same => noGroup ?_, below⟩
      rw [← same, Token.ofChar, if_pos rfl]
      exact List.mem_cons_self

theorem firstBrace_none (noBrace : LBRACE ∉ pattern) : firstBrace pattern = none := by
  induction pattern with
  | nil => rfl
  | cons c cs ih =>
      rw [List.mem_cons, not_or] at noBrace
      rw [firstBrace, if_neg (Ne.symm noBrace.1), ih noBrace.2]
      rfl

theorem firstBrace_append (noBrace : LBRACE ∉ pattern) : firstBrace (pattern ++ LBRACE :: left) = some (pattern, left) := by
  induction pattern with
  | nil => rw [List.nil_append, firstBrace, if_pos rfl]
  | cons c cs ih =>
      rw [List.mem_cons, not_or] at noBrace
      rw [List.cons_append, firstBrace, if_neg (Ne.symm noBrace.1), ih noBrace.2]
      rfl

theorem scan_before (noGroup : Token.opens ∉ xs) (all : balanced 0 (xs ++ ys) = true) : scan 0 xs = some 0 := by
  induction xs with
  | nil => rfl
  | cons t xs ih =>
      rw [List.mem_cons, not_or] at noGroup
      rw [List.cons_append, balanced, if_neg (Ne.symm noGroup.1)] at all
      rw [scan]
      split at all
      next => simp at all
      next notCloses =>
        rw [if_neg (Ne.symm noGroup.1), if_neg notCloses, if_pos rfl, ih noGroup.2 all, ite_self]

theorem tokens_of_single (valid : Valid ts) (single : text ts = [LBRACE, RBRACE]) : ts = [.opens, .closes] := by
  have first {ts : List Token} (valid : Valid ts) {c : UInt16} {cs : Pattern} (starts : text ts = c :: cs) (plain : c ≠ LBRACKET)
      : ∃ ts', ts = .ofChar c :: ts' ∧ Valid ts' ∧ text ts' = cs := by
    cases valid with
    | nil => cases starts
    | bracket closed rest =>
        rw [text_cons, Token.text, List.cons_append] at starts
        exact absurd (List.cons.inj starts).1.symm plain
    | unclosed open_ rest =>
        rw [text_cons, Token.text, List.singleton_append] at starts
        exact absurd (List.cons.inj starts).1.symm plain
    | ofChar _ rest =>
        rw [text_cons, text_ofChar, List.singleton_append] at starts
        obtain ⟨rfl, same⟩ := List.cons.inj starts
        exact ⟨_, rfl, rest, same⟩
  obtain ⟨ts₁, rfl, valid₁, single₁⟩ := first valid single (by decide)
  obtain ⟨ts₂, rfl, valid₂, single₂⟩ := first valid₁ single₁ (by decide)
  cases valid₂ with
  | nil => rfl
  | bracket | unclosed => simp [Token.text] at single₂
  | ofChar => simp only [text_cons, text_ofChar, List.cons_append, List.nil_append, reduceCtorEq] at single₂

-----------------------------------------------------------------------------------------
-- The whole expansion
-----------------------------------------------------------------------------------------

/-- A pattern whose braces are balanced, and whose brackets are not in the way of an expansion. -/
structure Plain (ts : List Token) : Prop where
  valid : Valid ts
  all : balanced 0 ts = true
  brackets : NoBraceInBracket ts
  placed : bracketsPlaced 0 false ts = true

/-- What holds behind the first brace. -/
theorem Plain.inside (plain : Plain (before ++ .opens :: rest)) (leftmost : .opens ∉ before)
    : balanced 1 rest = true ∧ bracketsPlaced 1 true rest = true := by
  have front := scan_before leftmost plain.all
  have all := plain.all
  have placed := plain.placed
  obtain ⟨start, same⟩ := @bracketsPlaced_scan before (.opens :: rest) 0 0 false front
  rw [balanced_scan front, balanced, if_pos rfl] at all
  rw [same, bracketsPlaced, if_neg (by simp [Token.isBracket]), if_pos rfl] at placed
  exact ⟨all, placed⟩

/-- Each alternative of the first group makes such a pattern again. -/
theorem Plain.alternative (plain : Plain (before ++ .opens :: rest)) (leftmost : .opens ∉ before)
    (found : cut 0 [] rest = some (alternatives, behind)) (member : a ∈ alternatives)
    : Plain (before ++ a ++ behind) := by
  have front := scan_before leftmost plain.all
  obtain ⟨all, placed⟩ := plain.inside leftmost
  obtain ⟨parts, placed', all'⟩ := cut_parts placed (fun _ _ => rfl) rfl found
  obtain ⟨scanned, sub⟩ := parts a member
  rw [List.nil_append] at sub
  have scanned' : scan 0 (before ++ a) = some 0 := by
    rw [scan_append, front]
    exact scanned
  have whole : (before ++ a ++ behind).Sublist (before ++ .opens :: rest) := by
    rw [List.append_assoc]
    exact List.Sublist.append_left (sub.trans (List.sublist_cons_self _ _)) _
  refine ⟨plain.valid.sublist whole, ?_, fun content inside => plain.brackets content (whole.subset inside), ?_⟩
  · rw [balanced_scan scanned']
    exact all' all
  · obtain ⟨start, same⟩ := @bracketsPlaced_scan (before ++ a) behind 0 0 false scanned'
    rw [same, bracketsPlaced_zero start false]
    exact placed'

variable {σ : Type} {glob0 : Pattern → σ → Int × σ}

/-- What a call adds to the calls of `glob0` and to `l_brace`. -/
def Adds (limit : Bool) (s s' : Expansion σ) (patterns : List Pattern) (steps : Nat) : Prop :=
  s'.calls.map Prod.fst = s.calls.map Prod.fst ++ patterns
    ∧ s'.lBrace = if limit then s.lBrace + steps else s.lBrace

theorem Adds.trans {s s₁ s' : Expansion σ} {ps qs : List Pattern} {n m : Nat} (first : Adds limit s s₁ ps n)
    (second : Adds limit s₁ s' qs m)
    : Adds limit s s' (ps ++ qs) (n + m) := by
  refine ⟨by rw [second.1, first.1, List.append_assoc], ?_⟩
  rw [second.2, first.2]
  cases limit
  · rfl
  · exact Nat.add_assoc _ _ _

/-- The limit is not reached by that many steps. -/
def Within (limit : Bool) (s : Expansion σ) (steps : Nat) : Prop := limit = false ∨ s.lBrace + steps ≤ GLOB_LIMIT_BRACE

theorem expandAll_adds {recurse : Pattern → Expansion σ → Option (Int × Expansion σ)} (patterns : List Token → List Pattern)
    (steps : List Token → Nat) (as : List (List Token))
    (each : ∀ a ∈ as, ∀ s, Within limit s (steps a)
      → ∃ rv s', recurse (text (before ++ a ++ behind)) s = some (rv, s') ∧ Adds limit s s' (patterns a) (steps a))
    (s : Expansion σ) (within : Within limit s (as.map steps).sum)
    : ∃ s', expandAll recurse (as.map (fun a => text (before ++ a ++ behind))) s = some s'
      ∧ Adds limit s s' (as.flatMap patterns) (as.map steps).sum := by
  induction as generalizing s with
  | nil =>
      refine ⟨s, rfl, by simp, ?_⟩
      cases limit <;> rfl
  | cons a as ih =>
      rw [List.map_cons, List.sum_cons] at within
      obtain ⟨rv, s₁, run, adds⟩ := each a List.mem_cons_self s (within.imp_right fun bound => by omega)
      have within₁ : Within limit s₁ (as.map steps).sum := by
        refine within.imp_right fun bound => ?_
        rw [adds.2]
        split <;> omega
      obtain ⟨s', run', adds'⟩ := ih (fun a member => each a (List.mem_cons_of_mem _ member)) s₁ within₁
      refine ⟨s', ?_, ?_⟩
      · rw [expandAll, List.map_cons, List.foldlM_cons, run]
        exact run'
      · rw [List.flatMap_cons, List.map_cons, List.sum_cons]
        exact adds.trans adds'

theorem callGlob0_adds {s s₁ : Expansion σ} (calls : s₁.calls = s.calls)
    (counted : s₁.lBrace = if limit then s.lBrace + 1 else s.lBrace)
    : ∃ rv s', some (callGlob0 glob0 (text ts) s₁) = some (rv, s') ∧ Adds limit s s' [text ts] 1 := by
  refine ⟨_, _, rfl, ?_, counted⟩
  simp only [List.map_append, calls, List.map_cons, List.map_nil]

/-- `globexp1` passes the patterns of csh to `glob0`, and no others. -/
theorem globexp1_adds (plain : Plain ts) (enough : (text ts).length < depth) (s : Expansion σ)
    (within : Within limit s (cshSteps depth ts))
    : ∃ rv s', globexp1 glob0 limit depth (text ts) s = some (rv, s')
      ∧ Adds limit s s' (cshExpand depth ts) (cshSteps depth ts) := by
  induction depth generalizing ts s with
  | zero => omega
  | succ depth ih =>
      have positive : 1 ≤ cshSteps (depth + 1) ts := by
        rw [cshSteps]
        repeat' split
        all_goals omega
      have free : ¬ (limit && decide (GLOB_LIMIT_BRACE ≤ s.lBrace)) = true := by
        rw [Bool.and_eq_true, decide_eq_true_iff]
        rintro ⟨limited, full⟩
        obtain unlimited | bound := within
        · rw [unlimited] at limited
          cases limited
        · omega
      rw [globexp1, if_neg free]
      generalize counted : (if limit = true then { s with lBrace := s.lBrace + 1 } else s) = s₁
      have calls : s₁.calls = s.calls := by
        rw [← counted]
        split <;> rfl
      have lBrace : s₁.lBrace = if limit then s.lBrace + 1 else s.lBrace := by
        rw [← counted]
        split <;> rfl
      by_cases single : ts = [.opens, .closes]
      · rw [cshExpand, cshSteps, if_pos single, if_pos single]
        simp only [show text ts = [LBRACE, RBRACE] by rw [single]; rfl, if_true]
        have once := @callGlob0_adds ts limit σ glob0 s s₁ calls lBrace
        rwa [show text ts = [LBRACE, RBRACE] by rw [single]; rfl] at once
      have notSingle : text ts ≠ [LBRACE, RBRACE] := fun same => single (tokens_of_single plain.valid same)
      rw [cshSteps, if_neg single] at within
      rw [cshExpand, cshSteps, if_neg single, if_neg single]
      simp only [if_neg notSingle]
      cases group : firstOpen ts with
      | none =>
          rw [firstBrace_none (brace_not_mem_text plain.valid plain.brackets (firstOpen_none group))]
          exact callGlob0_adds calls lBrace
      | some found =>
          obtain ⟨before, rest⟩ := found
          obtain ⟨rfl, leftmost⟩ := firstOpen_some group
          obtain ⟨all, placed⟩ := plain.inside leftmost
          obtain ⟨⟨alternatives, behind⟩, cuts⟩ := cut_total all []
          have beforeSub : before.Sublist (before ++ .opens :: rest) := List.sublist_append_left _ _
          have restSub : rest.Sublist (before ++ .opens :: rest) :=
            (List.sublist_cons_self _ _).trans (List.sublist_append_right _ _)
          have noBrace : LBRACE ∉ text before :=
            brace_not_mem_text (plain.valid.sublist beforeSub)
              (fun content member => plain.brackets content (beforeSub.subset member)) leftmost
          have brace : firstBrace (text (before ++ .opens :: rest)) = some (text before, text rest) := by
            rw [text_append, text_cons]
            exact firstBrace_append noBrace
          obtain ⟨closed, pieced⟩ := cut_text (plain.valid.sublist restSub) placed (fun _ _ => rfl) cuts
          have patterns : (pieces false 0 [] (text rest)).map (fun piece => text before ++ piece ++ text behind)
              = alternatives.map (fun a => text (before ++ a ++ behind)) := by
            rw [text_nil] at pieced
            rw [pieced, List.map_map]
            refine List.map_congr_left fun a _ => ?_
            rw [text_append, text_append]
            rfl
          rw [brace]
          simp only [group, cuts, globexp2, closed, patterns] at within ⊢
          have within₁ : Within limit s₁ (alternatives.map (fun a => cshSteps depth (before ++ a ++ behind))).sum := by
            refine within.imp_right fun bound => ?_
            rw [lBrace]
            split <;> omega
          have shorter (a : List Token) (member : a ∈ alternatives) : (text (before ++ a ++ behind)).length < depth := by
            have length := congrArg List.length (firstBrace_some brace)
            have piece : text a ∈ pieces false 0 [] (text rest) := by
              rw [text_nil] at pieced
              rw [pieced]
              exact List.mem_map_of_mem member
            have short := length_piece closed piece
            rw [List.length_append, List.length_cons] at length
            rw [List.length_nil] at short
            rw [text_append, text_append, List.length_append, List.length_append]
            omega
          obtain ⟨s', run, adds⟩ := @expandAll_adds before behind limit σ (globexp1 glob0 limit depth)
            (fun a => cshExpand depth (before ++ a ++ behind)) (fun a => cshSteps depth (before ++ a ++ behind)) alternatives
            (fun a member s within => ih (plain.alternative leftmost cuts member) (shorter a member) s within) s₁ within₁
          refine ⟨0, s', by rw [run]; rfl, ?_, ?_⟩
          · rw [adds.1, calls]
          · rw [adds.2, lBrace]
            cases limit
            · rfl
            · exact Nat.add_assoc _ _ _

/-- The patterns that reach `glob0` are those of csh, if no bracket expression contains an opening brace
and all brackets of a group are at the start of one of its own alternatives.
-/
theorem globexp1_expands (glob0 : Pattern → σ → Int × σ) (limit : Bool) (pattern : Pattern) (s : Expansion σ)
    (all : balanced 0 (lex none pattern) = true) (brackets : NoBraceInBracket (lex none pattern))
    (placed : bracketsPlaced 0 false (lex none pattern) = true)
    (within : Within limit s (cshSteps (pattern.length + 1) (lex none pattern)))
    : ∃ rv s', globexp1 glob0 limit (pattern.length + 1) pattern s = some (rv, s')
      ∧ s'.calls.map Prod.fst = s.calls.map Prod.fst ++ cshExpand (pattern.length + 1) (lex none pattern) := by
  have same := (text_lex pattern).1
  obtain ⟨rv, s', run, adds⟩ := @globexp1_adds (lex none pattern) (pattern.length + 1) limit σ glob0
    ⟨(valid_lex pattern).1, all, brackets, placed⟩ (by rw [same]; exact Nat.lt_succ_self _) s within
  rw [same] at run
  exact ⟨rv, s', run, adds.1⟩

/-- Witness: the pattern x{[y]a,{b,c}}d, with a `glob0` that always succeeds. -/
theorem globexp1_expands_nested
    : ∃ rv s', globexp1 (fun _ (u : Unit) => (0, u)) false 15 [120, 123, 91, 121, 93, 97, 44, 123, 98, 44, 99, 125, 125, 100]
          { env := (), lBrace := 0, calls := [] }
        = some (rv, s')
      ∧ s'.calls.map Prod.fst
        = [] ++ cshExpand 15 (lex none [120, 123, 91, 121, 93, 97, 44, 123, 98, 44, 99, 125, 125, 100]) :=
  globexp1_expands (fun _ (u : Unit) => (0, u)) false [120, 123, 91, 121, 93, 97, 44, 123, 98, 44, 99, 125, 125, 100]
    { env := (), lBrace := 0, calls := [] } (by decide)
    (by
      intro content member
      simp [lex, Token.ofChar, LBRACKET, RBRACKET, LBRACE, RBRACE, COMMA] at member
      subst member
      decide)
    (by decide) (Or.inl rfl)

/-- Counterexample: the pattern {a[x]b,c}. The first alternative loses its first character. -/
theorem globexp1_loses_prefix
    : globexp1 (fun _ (u : Unit) => (0, u)) false 10 [123, 97, 91, 120, 93, 98, 44, 99, 125]
          { env := (), lBrace := 0, calls := [] }
        = some (0, { env := (), lBrace := 0, calls := [([91, 120, 93, 98], 0), ([99], 0)] })
      ∧ balanced 0 (lex none [123, 97, 91, 120, 93, 98, 44, 99, 125]) = true
      ∧ cshExpand 10 (lex none [123, 97, 91, 120, 93, 98, 44, 99, 125]) = [[97, 91, 120, 93, 98], [99]] := by
  decide

end BSDLibC.Glob
