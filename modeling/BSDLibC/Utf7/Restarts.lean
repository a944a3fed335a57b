import BSDLibC.Utf7.RoundTrip

/-! What becomes of a text whose bytes are cut into pieces. A call that runs out of bytes keeps how
many it took but not the bytes themselves, so that the next one replays what an earlier character
has left behind.
-/

namespace BSDLibC.Utf7

/-- A character that the encoder writes as one byte. -/
def OneByte (c : Nat) : Prop := isSafe c = true ∧ c ≠ base64In

instance (c : Nat) : Decidable (OneByte c) := inferInstanceAs (Decidable (_ ∧ _))

theorem oneByte_null : OneByte 0 := by decide +kernel

theorem OneByte.lt {c : Nat} (one : OneByte c) : c < 128 := by
  have small := safe_small one.1
  rw [Nat.shiftRight_eq_div_pow] at small
  omega

theorem OneByte.low {c : Nat} (one : OneByte c) : isHigh c = false := by
  have := one.lt
  simp only [isHigh, Bool.and_eq_false_iff, decide_eq_false_iff_not]
  omega

/-- The decoder stands behind a character of one byte, which is still in its buffer. -/
structure State.Behind (state : State) (last : Nat) : Prop where
  shift : state.toShift = .init
  surrogate : state.surrogate = false
  chlen : state.chlen = 0
  ch : ∃ others, state.ch = last :: others

theorem State.behind_init : State.init.Behind 0 := ⟨rfl, rfl, rfl, _, rfl⟩

section

variable {state : State} {last c : Nat} (behind : state.Behind last)

include behind

/-- A character of one byte that comes next is read at once. -/
theorem mbrtowc_oneByte (one : OneByte c) (s : List Nat)
    : ∃ next, mbrtowc state (c :: s) = .char c next s ∧ next.Behind c := by
  obtain ⟨others, ch⟩ := behind.ch
  have step := step_direct one.1 one.2
  have unit : mbtoutf16 state (c :: s)
      = .unit c { state with toShift := .init, ch := c :: others, chlen := 0 } s := by
    rw [mbtoutf16_eq_loop state behind.chlen, mbtoutf16.loop, if_neg (by rw [behind.chlen]; omega)]
    simp only [behind.shift, step, ch, behind.chlen, List.set_cons_zero]
  rw [mbrtowc_low unit behind.surrogate one.low, mbrtowc.done]
  split
  next zero => exact ⟨.init, by rw [zero], by rw [zero]; exact State.behind_init⟩
  next zero => exact ⟨_, rfl, rfl, rfl, rfl, others, rfl⟩

/-- Characters of one byte are read one after the other. -/
theorem decodePiece_oneByte (cs s : List Nat) (one : ∀ c ∈ cs, OneByte c) (calls : Nat)
    : ∃ next : State, next.Behind ((last :: cs).getLast (by simp))
      ∧ decodePiece (cs.length + calls) state (cs ++ s)
        = (decodePiece calls next s).map fun (wcs, state) => (cs ++ wcs, state) := by
  induction cs generalizing state last with
  | nil => exact ⟨state, behind, by simp⟩
  | cons c cs ih =>
      obtain ⟨middle, call, behind'⟩ := mbrtowc_oneByte behind (one c (by simp)) (cs ++ s)
      obtain ⟨next, final, pieces⟩ := ih behind' fun c mem => one c (by simp [mem])
      refine ⟨next, by simpa using final, ?_⟩
      rw [List.length_cons, Nat.add_right_comm, List.cons_append, decodePiece, call]
      simp only [pieces]
      cases decodePiece calls next s <;> simp

/-- A piece that ends behind the mark of base64 leaves the decoder with one byte to replay. -/
theorem decodePiece_cut (calls : Nat)
    : decodePiece (calls + 1) state [base64In] = some ([], { state with chlen := 1 }) := by
  have step : Shift.step .init base64In = .more ⟨true, 0, 0⟩ := rfl
  have cut : mbtoutf16 state [base64In] = .restart { state with chlen := 1 } := by
    rw [mbtoutf16_eq_loop state behind.chlen, mbtoutf16.loop, if_neg (by rw [behind.chlen]; omega)]
    simp only [behind.shift, step, mbtoutf16.loop, behind.chlen]
  rw [decodePiece]
  simp [mbrtowc, behind.surrogate, cut]

/-- What it replays is the character before. -/
theorem decodePiece_stale (one : OneByte last) (calls b : Nat) (s : List Nat)
    : ∀ wcs next, decodePiece (calls + 1) { state with chlen := 1 } (b :: s) = some (wcs, next)
      → ∃ rest, wcs = last :: rest := by
  intro wcs next result
  obtain ⟨others, ch⟩ := behind.ch
  have step := step_direct one.1 one.2
  have unit : mbtoutf16 { state with chlen := 1 } (b :: s)
      = .unit last { state with toShift := .init, chlen := 0 } (b :: s) := by
    rw [mbtoutf16, ch, List.take_succ_cons, List.take_zero, mbtoutf16.replay]
    simp only [behind.shift, step, if_true]
  have call : ∃ after, mbrtowc { state with chlen := 1 } (b :: s) = .char last after (b :: s) := by
    rw [mbrtowc_low unit behind.surrogate one.low, mbrtowc.done]
    split
    next zero => exact ⟨_, by rw [zero]⟩
    next zero => exact ⟨_, rfl⟩
  obtain ⟨after, call⟩ := call
  rw [decodePiece, call] at result
  simp only [Option.bind_eq_bind, Option.bind_eq_some_iff] at result
  obtain ⟨⟨rest, final⟩, -, same⟩ := result
  cases same
  exact ⟨rest, rfl⟩

end

theorem write_oneByte (cs u16s : List Nat) (one : ∀ c ∈ cs, OneByte c)
    : write .init (cs ++ u16s) = cs ++ write .init u16s := by
  induction cs with
  | nil => rfl
  | cons c cs ih =>
      have ⟨safe, plus⟩ := one c (by simp)
      have bytes : emit .init c = ([c], .init) := by
        simp [emit, safe, Shift.leave, Shift.init, tailOf, plus]
      rw [List.cons_append, write, bytes, ih fun c mem => one c (by simp [mem])]
      rfl

theorem unitsOf_oneByte (cs : List Nat) (one : ∀ c ∈ cs, OneByte c) : unitsOf cs = cs := by
  induction cs with
  | nil => rfl
  | cons c cs ih =>
      have small := (one c (by simp)).lt
      have rest := ih fun c mem => one c (by simp [mem])
      rw [unitsOf] at rest ⊢
      rw [List.flatMap_cons, rest, units_basic (by omega)]
      rfl

theorem unitsOf_append (cs others : List Nat)
    : unitsOf (cs ++ others) = unitsOf cs ++ unitsOf others := List.flatMap_append

/-- Every other character begins with the mark of base64, and does not end there. -/
theorem write_marked {x : Nat} (scalar : Scalar x) (long : ¬ OneByte x) (cs : List Nat)
    : ∃ b s, write .init (unitsOf (x :: cs)) = base64In :: b :: s := by
  obtain ⟨u16, others, coded, first⟩ : ∃ u16 others, units x = some (u16 :: others)
      ∧ (u16 = base64In ∨ isSafe u16 = false) := by
    rcases Nat.lt_or_ge 0xffff x with above | small
    · refine ⟨_, _, units_pair above scalar.1, Or.inr ?_⟩
      by_contra safe
      have := safe_small (Bool.eq_true_of_not_eq_false safe)
      rw [Nat.shiftRight_eq_div_pow] at this
      omega
    · refine ⟨_, _, units_basic small, ?_⟩
      by_cases safe : isSafe x = true
      · exact Or.inl (by_contra fun plus => long ⟨safe, plus⟩)
      · exact Or.inr (Bool.eq_false_of_not_eq_true safe)
  have units : unitsOf (x :: cs) = u16 :: (others ++ unitsOf cs) := by
    simp [unitsOf, coded]
  rw [units, write]
  rcases first with rfl | rare
  · have bytes : (emit .init base64In).1 = [base64In, base64Out] := by decide +kernel
    rw [bytes]
    exact ⟨_, _, rfl⟩
  · simp only [emit, rare, Bool.false_eq_true, if_false, Shift.init]
    exact ⟨_, _, rfl⟩

/-- A text of characters of one byte survives every cut. -/
theorem decode_oneByte (pieces : List (List Nat)) (state : State) {last : Nat}
    (behind : state.Behind last) (one : ∀ c ∈ pieces.flatten, OneByte c)
    : decode pieces state = some pieces.flatten := by
  induction pieces generalizing state last with
  | nil => rfl
  | cons piece pieces ih =>
      obtain ⟨next, behind', result⟩ := decodePiece_oneByte behind piece []
        (fun c mem => one c (by simp [mem])) 1
      rw [List.append_nil, decodePiece] at result
      rw [decode, result]
      simp only [Option.map_some, Option.bind_eq_bind, Option.bind_some]
      rw [ih next behind' fun c mem => one c (by
        rw [List.flatten_cons]
        exact List.mem_append_right _ mem)]
      simp

/-- A text with any other character does not survive a cut behind the mark of base64. -/
theorem decode_cut_ne {pre post : List Nat} {x : Nat} (one : ∀ c ∈ pre, OneByte c)
    (long : ¬ OneByte x) (b : Nat) (s : List Nat)
    : decode [pre ++ [base64In], b :: s] .init ≠ some (pre ++ x :: post) := by
  intro result
  obtain ⟨next, behind, piece⟩ := decodePiece_oneByte State.behind_init pre [base64In] one 2
  rw [decodePiece_cut behind, Option.map_some] at piece
  simp only [List.append_nil] at piece
  rw [decode, List.length_append, List.length_singleton, piece] at result
  simp only [Option.bind_eq_bind, Option.bind_some, decode, Option.bind_eq_some_iff] at result
  obtain ⟨wcs, ⟨⟨stale, final⟩, replayed, same⟩, whole⟩ := result
  have last : OneByte ((0 :: pre).getLast (by simp)) := by
    have mem := List.getLast_mem (List.cons_ne_nil 0 pre)
    rcases List.mem_cons.mp mem with zero | inside
    · rw [zero]
      exact oneByte_null
    · exact one _ inside
  obtain ⟨rest, rfl⟩ := decodePiece_stale behind last _ b s _ _ replayed
  cases same
  have tails : _ :: rest ++ [] = x :: post := List.append_cancel_left (Option.some.inj whole)
  exact long ((List.cons.inj tails).1 ▸ last)

theorem exists_first_long {cs : List Nat} (long : ¬ ∀ c ∈ cs, OneByte c)
    : ∃ pre x post, cs = pre ++ x :: post ∧ (∀ c ∈ pre, OneByte c) ∧ ¬ OneByte x := by
  induction cs with
  | nil => exact absurd (by simp) long
  | cons c cs ih =>
      by_cases one : OneByte c
      · obtain ⟨pre, x, post, rfl, before, found⟩ :=
          ih fun all => long (List.forall_mem_cons.mpr ⟨one, all⟩)
        exact ⟨c :: pre, x, post, rfl, List.forall_mem_cons.mpr ⟨one, before⟩, found⟩
      · exact ⟨[], c, cs, rfl, by simp, one⟩

/-- A text read back from bytes in one piece is the text written, and it is so from bytes cut in any
way exactly if the encoder writes each of its characters as one byte.
-/
theorem decode_pieces_iff {n : Nat} (room : 8 ≤ n) (cs : List Nat) (scalar : ∀ c ∈ cs, Scalar c)
    : ∃ bytes, encode n .init cs = some bytes ∧ decode [bytes] .init = some cs
      ∧ ((∀ pieces : List (List Nat), pieces.flatten = bytes → decode pieces .init = some cs)
        ↔ ∀ c ∈ cs, OneByte c) := by
  refine ⟨_, encode_eq room Shift.held_init cs scalar, decode_write cs scalar, ?_, ?_⟩
  · intro survives
    by_contra long
    obtain ⟨pre, x, post, rfl, one, long⟩ := exists_first_long long
    obtain ⟨b, s, marked⟩ := write_marked (scalar x (by simp)) long post
    refine decode_cut_ne one long b s (survives [pre ++ [base64In], b :: s] ?_)
    rw [unitsOf_append, unitsOf_oneByte pre one, write_oneByte _ _ one, marked]
    simp
  · intro one pieces cut
    have bytes := write_oneByte cs [] one
    rw [List.append_nil] at bytes
    rw [unitsOf_oneByte cs one, bytes] at cut
    have whole : pieces.flatten = cs := by simpa [write, finish, Shift.init] using cut
    rw [decode_oneByte pieces .init State.behind_init (by rwa [whole]), whole]

/-- A text of plain characters that ends in a NUL. -/
theorem decode_pieces_plain
    : ∃ bytes, encode 8 .init [0x41, 0x2d, 0] = some bytes
      ∧ decode [bytes] .init = some [0x41, 0x2d, 0]
      ∧ ((∀ pieces : List (List Nat), pieces.flatten = bytes
          → decode pieces .init = some [0x41, 0x2d, 0])
        ↔ ∀ c ∈ [0x41, 0x2d, 0], OneByte c) :=
  decode_pieces_iff (Nat.le_refl 8) [0x41, 0x2d, 0] (by decide)

theorem decode_two {first second wcs wcs' : List Nat} {state state' state'' : State}
    (head : decodePiece (first.length + 1) state first = some (wcs, state'))
    (tail : decodePiece (second.length + 1) state' second = some (wcs', state''))
    : decode [first, second] state = some (wcs ++ wcs') := by
  simp [decode, head, tail]

/-- The bytes of one accented letter, cut behind the first, are read as a NUL and plain letters. -/
theorem cut_letter_lost
    : Scalar 0xe9 ∧ encode 8 .init [0xe9] = some (codes "+AOk-")
      ∧ (codes "+AOk-") = [codes "+", codes "AOk-"].flatten
      ∧ decode [codes "+", codes "AOk-"] .init = some (0 :: codes "AOk-")
      ∧ decode [codes "+", codes "AOk-"] .init ≠ some [0xe9] := by
  have bytes : codes "+AOk-" = [43, 65, 79, 107, 45] := by rw [codes, String.toList_ofList]; rfl
  have first : codes "+" = [base64In] := by rw [codes, String.toList_ofList]; rfl
  have second : codes "AOk-" = [65, 79, 107, 45] := by rw [codes, String.toList_ofList]; rfl
  have written : encode 8 .init [0xe9] = some [43, 65, 79, 107, 45] := by
    have digits : digit 0 = 65 ∧ digit 14 = 79 ∧ digit 36 = 107 := by
      simp only [digit, base64_eq]
      decide
    simp [encode, wcrtomb, wcrtomb.loop, units, utf16tomb, utf16tomb.coded, isSafe, putStateReset,
      Shift.init, Shift.flush, Utf7.digits, cacheSize, base64In, base64Out, digits]
  have one : ∀ c ∈ [65, 79, 107, 45], OneByte c := by
    have members : ∀ c ∈ [65, 79, 107, 45], c < 128 ∧ c ∈ direct ∧ c ≠ base64In := by
      rw [direct_eq]
      decide
    intro c member
    obtain ⟨small, direct, other⟩ := members c member
    exact ⟨safe_of_mem_direct small direct, other⟩
  -- The byte that is read again is the 0 that the buffer holds at the start.
  have null : mbrtowc { State.init with chlen := 1 } [65, 79, 107, 45]
      = .char 0 .init [65, 79, 107, 45] := by rfl
  obtain ⟨next, -, letters⟩ := decodePiece_oneByte State.behind_init [65, 79, 107, 45] [] one 0
  have piece : decodePiece 5 { State.init with chlen := 1 } [65, 79, 107, 45]
      = some ([0, 65, 79, 107, 45], next) := by
    have rest : decodePiece 4 .init [65, 79, 107, 45] = some ([65, 79, 107, 45], next) := letters
    rw [decodePiece, null]
    simp only [rest]
    rfl
  have read : decode [[base64In], [65, 79, 107, 45]] .init = some [0, 65, 79, 107, 45] :=
    decode_two (decodePiece_cut State.behind_init _) piece
  rw [bytes, first, second]
  exact ⟨by decide, written, rfl, read, by rw [read]; decide⟩

end BSDLibC.Utf7
