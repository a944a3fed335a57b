import BSDLibC.Utf7.Codec

/-! What the decoder reads from bytes that arrive in one piece: first the units, by the steps of its
loop, then the characters.
-/

namespace BSDLibC.Utf7

/-- The units that the decoder reads from bytes, to the last byte. The number bounds the bytes that
the unit in progress may still take.
-/
inductive Reads : Nat → Shift → List Nat → List Nat → Prop
  | stop {room : Nat} {shift : Shift} : Reads room shift [] []
  | more {room c : Nat} {shift next : Shift} {s u16s : List Nat} (step : shift.step c = .more next)
      (rest : Reads room next s u16s)
      : Reads (room + 1) shift (c :: s) u16s
  | unit {room c u16 : Nat} {shift next : Shift} {s u16s : List Nat}
      (step : shift.step c = .done u16 next) (null : u16 = 0 → next = .init)
      (rest : Reads 4 next s u16s)
      : Reads (room + 1) shift (c :: s) (u16 :: u16s)

/-- The decoder stands between two characters. -/
structure State.Ready (state : State) : Prop where
  chlen : state.chlen = 0
  surrogate : state.surrogate = false

theorem State.ready_init : State.init.Ready := ⟨rfl, rfl⟩

section

variable {room : Nat} {shift : Shift} {s u16s : List Nat}

/-- Bytes without a unit are all taken. -/
theorem Reads.loop_nil (reads : Reads room shift s u16s) (nothing : u16s = []) (sv state : State)
    (stands : state.toShift = shift) (taken : state.chlen + room = 4)
    : ∃ next, mbtoutf16.loop sv s state = .restart next := by
  induction reads generalizing state with
  | stop => exact ⟨_, rfl⟩
  | unit => cases nothing
  | @more room c shift next s u16s step rest ih =>
      subst stands
      obtain ⟨last, h⟩ := ih nothing
        { state with ch := state.ch.set state.chlen c, chlen := state.chlen + 1, toShift := next }
        rfl (by simp only; omega)
      refine ⟨last, ?_⟩
      rw [mbtoutf16.loop, if_neg (by omega)]
      simp only [step]
      exact h

/-- The loop ends behind the first unit. -/
theorem Reads.loop_cons {u16 : Nat} {others : List Nat} (reads : Reads room shift s u16s)
    (first : u16s = u16 :: others) (sv state : State) (stands : state.toShift = shift)
    (taken : state.chlen + room = 4)
    : ∃ next rest, mbtoutf16.loop sv s state = .unit u16 next rest
      ∧ next.chlen = 0 ∧ next.surrogate = state.surrogate
      ∧ (u16 = 0 → next.toShift = .init) ∧ Reads 4 next.toShift rest others
      ∧ rest.length < s.length := by
  induction reads generalizing state with
  | stop => cases first
  | @unit room c unit shift next s u16s step null rest ih =>
      subst stands
      obtain ⟨rfl, rfl⟩ := List.cons.inj first
      refine ⟨{ state with
        ch := state.ch.set state.chlen c, chlen := 0, toShift := next }, s, ?_, rfl, rfl, null,
        rest, by simp⟩
      rw [mbtoutf16.loop, if_neg (by omega)]
      simp only [step]
  | @more room c shift next s u16s step rest ih =>
      subst stands
      obtain ⟨last, bytes, h, chlen, surrogate, null, reads, less⟩ := ih first
        { state with ch := state.ch.set state.chlen c, chlen := state.chlen + 1, toShift := next }
        rfl (by simp only; omega)
      refine ⟨last, bytes, ?_, chlen, surrogate, null, reads, less.trans (by simp)⟩
      rw [mbtoutf16.loop, if_neg (by omega)]
      simp only [step]
      exact h

/-- Without bytes from an earlier call there is nothing to replay. -/
theorem mbtoutf16_eq_loop (state : State) (fresh : state.chlen = 0) (s : List Nat)
    : mbtoutf16 state s = mbtoutf16.loop state s state := by
  rw [mbtoutf16, fresh, List.take_zero, mbtoutf16.replay]

/-- A unit outside the first units of pairs is a character. -/
theorem mbrtowc_low {state after : State} {s rest : List Nat} {u16 : Nat}
    (unit : mbtoutf16 state s = .unit u16 after rest) (whole : state.surrogate = false)
    (low : isHigh u16 = false)
    : mbrtowc state s = mbrtowc.done u16 after rest := by
  simp only [mbrtowc, whole, unit, low, Bool.false_eq_true, if_false]

end

/-- A code point that is not a surrogate. -/
def Scalar (c : Nat) : Prop := c ≤ 0x10ffff ∧ ¬ (0xd800 ≤ c ∧ c ≤ 0xdfff)

instance (c : Nat) : Decidable (Scalar c) := inferInstanceAs (Decidable (_ ∧ _))

theorem units_basic {c : Nat} (small : c ≤ 0xffff) : units c = some [c] := if_pos small

theorem units_pair {c : Nat} (above : 0xffff < c) (most : c ≤ 0x10ffff)
    : units c
      = some [(c - 0x10000) / 2 ^ 10 + 0xd800, (c - 0x10000) % 2 ^ 10 + 0xdc00] := by
  rw [units, if_neg (by omega), if_pos most]

/-- The two units of a supplementary character give it back. -/
theorem pair_value {c : Nat} (above : 0xffff < c) (most : c ≤ 0x10ffff)
    : (((c - 0x10000) / 2 ^ 10 + 0xd800 - 0xd800) * 2 ^ 10
        ||| ((c - 0x10000) % 2 ^ 10 + 0xdc00 + 2 ^ 16 - 0xdc00) % 2 ^ 16) + 0x10000 = c := by
  have low : ((c - 0x10000) % 2 ^ 10 + 0xdc00 + 2 ^ 16 - 0xdc00) % 2 ^ 16
      = (c - 0x10000) % 2 ^ 10 := by omega
  rw [low, Nat.add_sub_cancel, Nat.mul_comm, ← Nat.two_pow_add_eq_or_of_lt
    (Nat.mod_lt _ (by decide)), Nat.div_add_mod]
  omega

section

variable {c : Nat} {u16s others s : List Nat} {state : State}

/-- A call reads the units of one character. -/
theorem mbrtowc_char (scalar : Scalar c) (coded : units c = some u16s)
    (reads : Reads 4 state.toShift s (u16s ++ others)) (ready : state.Ready)
    : ∃ next rest, mbrtowc state s = .char c next rest ∧ next.Ready
      ∧ Reads 4 next.toShift rest others ∧ rest.length < s.length := by
  have ⟨most, surrogate⟩ := scalar
  rcases Nat.lt_or_ge 0xffff c with above | small
  case inr =>
    rw [units_basic small] at coded
    obtain rfl := Option.some.inj coded
    obtain ⟨next, rest, loop, chlen, kept, null, more, less⟩ :=
      reads.loop_cons rfl state state rfl (by rw [ready.chlen])
    have low : isHigh c = false := by
      simp only [isHigh, Bool.and_eq_false_iff, decide_eq_false_iff_not]
      omega
    rw [← mbtoutf16_eq_loop state ready.chlen] at loop
    rw [mbrtowc_low loop ready.surrogate low, mbrtowc.done]
    split
    next zero =>
      rw [null zero] at more
      exact ⟨.init, rest, by rw [zero], State.ready_init, more, less⟩
    next zero => exact ⟨{ next with surrogate := false }, rest, rfl, ⟨chlen, rfl⟩, more, less⟩
  case inl =>
    rw [units_pair above most] at coded
    obtain rfl := Option.some.inj coded
    obtain ⟨middle, tail, loop, chlen, -, -, more, shorter⟩ :=
      reads.loop_cons rfl state state rfl (by rw [ready.chlen])
    obtain ⟨next, rest, again, chlen', -, -, others, less⟩ :=
      more.loop_cons rfl { middle with surrogate := true } { middle with surrogate := true } rfl
        (by simp only [chlen])
    have high : isHigh ((c - 0x10000) / 2 ^ 10 + 0xd800) = true := by
      simp only [isHigh, Bool.and_eq_true, decide_eq_true_eq]
      omega
    have call : mbrtowc state s = mbrtowc.done c next rest := by
      rw [mbrtowc, ready.surrogate, if_neg Bool.false_ne_true, mbtoutf16_eq_loop state ready.chlen,
        loop]
      simp only [high, if_true, mbrtowc.second]
      rw [mbtoutf16_eq_loop { middle with surrogate := true } chlen, again]
      simp only [pair_value above most]
    rw [call, mbrtowc.done, if_neg (by omega)]
    exact ⟨{ next with surrogate := false }, rest, rfl, ⟨chlen', rfl⟩, others, less.trans shorter⟩

end

/-- The units of a sequence of code points. -/
def unitsOf (cs : List Nat) : List Nat := cs.flatMap fun c => (units c).getD []

/-- The decoder reads the characters whose units it reads. -/
theorem Reads.decodePiece {cs s : List Nat} (state : State) (calls : Nat)
    (reads : Reads 4 state.toShift s (unitsOf cs)) (scalar : ∀ c ∈ cs, Scalar c)
    (ready : state.Ready) (enough : s.length < calls)
    : ∃ next, decodePiece calls state s = some (cs, next) := by
  induction cs generalizing state s calls with
  | nil =>
      cases s with
      | nil => exact ⟨state, by rw [Utf7.decodePiece]⟩
      | cons c s =>
          obtain ⟨next, h⟩ := reads.loop_nil rfl state state rfl (by rw [ready.chlen])
          obtain ⟨calls, rfl⟩ := Nat.exists_eq_succ_of_ne_zero (by omega : calls ≠ 0)
          refine ⟨next, ?_⟩
          simp [Utf7.decodePiece, mbrtowc, ready.surrogate, mbtoutf16_eq_loop state ready.chlen, h]
  | cons c cs ih =>
      have coded : ∃ u16s, units c = some u16s := by
        rcases Nat.lt_or_ge 0xffff c with above | small
        · exact ⟨_, units_pair above (scalar c (by simp)).1⟩
        · exact ⟨_, units_basic small⟩
      obtain ⟨u16s, coded⟩ := coded
      rw [unitsOf, List.flatMap_cons, coded, Option.getD_some] at reads
      obtain ⟨next, rest, call, ready', reads', less⟩ :=
        mbrtowc_char (scalar c (by simp)) coded reads ready
      cases s with
      | nil => simp at less
      | cons b s =>
          obtain ⟨calls, rfl⟩ := Nat.exists_eq_succ_of_ne_zero (by omega : calls ≠ 0)
          obtain ⟨last, h⟩ := ih _ calls reads' (fun c mem => scalar c (by simp [mem])) ready'
            (Nat.lt_of_lt_of_le less (Nat.le_of_lt_succ enough))
          refine ⟨last, ?_⟩
          rw [Utf7.decodePiece, call]
          simp [h]

end BSDLibC.Utf7
