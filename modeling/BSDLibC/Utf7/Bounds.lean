import BSDLibC.Utf7.RoundTrip

/-! How many bytes `_citrus_UTF7_mbtoutf16` puts into `ch` before a unit is finished, and how many bits
into `cache`.
-/

namespace BSDLibC.Utf7

-----------------------------------------------------------------------------------------
-- What is stored
-----------------------------------------------------------------------------------------

/-- `chlen` at the end of the loop over new bytes, if there is room for all of them. -/
def chlenAfter.loop : Shift → Nat → List Nat → Nat
  | _, chlen, [] => chlen
  | shift, chlen, c :: s =>
      match shift.step c with
      | .more shift => chlenAfter.loop shift (chlen + 1) s
      | _ => chlen + 1

/-- `chlen` at the end of the loop that first goes over the bytes in `ch`. -/
def chlenAfter.replay : Shift → Nat → List Nat → List Nat → Nat
  | shift, chlen, [], s => chlenAfter.loop shift chlen s
  | shift, chlen, c :: saved, s =>
      match shift.step c with
      | .more shift => chlenAfter.replay shift chlen saved s
      | _ => chlen

/-- `chlen` at the end of a call. -/
def chlenAfter (state : State) (s : List Nat) : Nat :=
  chlenAfter.replay state.toShift state.chlen (state.ch.take state.chlen) s

/-- The bytes that a call goes over: those in `ch` and the new ones. -/
def State.ahead (state : State) (s : List Nat) : List Nat := state.ch.take state.chlen ++ s

/-- The shifts that the loop goes through. -/
inductive Meets : Shift → List Nat → Shift → Prop
  | here {shift : Shift} {s : List Nat} : Meets shift s shift
  | round {shift shift' met : Shift} {c : Nat} {s : List Nat} (step : shift.step c = .more shift')
      (rest : Meets shift' s met)
      : Meets shift (c :: s) met

/-- A digit is added to the bits that are needed. -/
def Shift.KeepsBits (shift : Shift) (c : Nat) : Prop :=
  (shift.cache * 64 + (findlen c).toNat) % cacheSize % 2 ^ (shift.bits + 6)
    = shift.cache % 2 ^ shift.bits * 64 + (findlen c).toNat

/-- What is promised about a call. -/
structure InBounds (state : State) (s : List Nat) : Prop where
  room : chlenAfter state s ≤ 4
  bits : ∀ shift, Meets state.toShift (state.ahead s) shift → shift.bits ≤ 15
  cache
    : ∀ shift, Meets state.toShift (state.ahead s) shift → ∀ c, shift.KeepsBits c

/-- The states that calls lead to; the flag is a matter of the callers. -/
inductive Reached : State → Prop
  | init : Reached .init
  | unit {state next : State} {s rest : List Nat} {u16 : Nat} (before : Reached state)
      (call : mbtoutf16 state s = .unit u16 next rest)
      : Reached next
  | restart {state next : State} {s : List Nat} (before : Reached state)
      (call : mbtoutf16 state s = .restart next)
      : Reached next
  | flag {state : State} (before : Reached state) (surrogate : Bool)
      : Reached { state with surrogate := surrogate }

/-- In base64 the way out and back in comes first, and the unit behind it needs its third digit. -/
def OutAndIn (state : State) (s : List Nat) : Prop :=
  state.mode = true
    ∧ state.cache ≠ 0
    ∧ ∃ d₁ d₂ c rest, 0 ≤ findlen d₁ ∧ 0 ≤ findlen d₂
      ∧ state.ahead s = base64Out :: base64In :: d₁ :: d₂ :: c :: rest

-----------------------------------------------------------------------------------------
-- One round
-----------------------------------------------------------------------------------------

variable {shift shift' met : Shift} {c u16 : Nat} {s : List Nat}

theorem findlen_small (digit : 0 ≤ findlen c) : c >>> 7 = 0 ∧ c ≠ base64Out := by
  constructor
  · by_contra high
    rw [findlen, if_pos high] at digit
    exact absurd digit (by decide)
  · rintro rfl
    exact absurd findlen_out (Int.not_lt.mpr digit)

/-- The three ways in which a round does not finish a unit. -/
theorem step_more (more : shift.step c = .more shift')
    : (shift.mode = false ∧ c = base64In ∧ shift' = ⟨true, 0, 0⟩)
      ∨ (shift.mode = true ∧ shift.cache ≠ 0 ∧ shift.bits < 6 ∧ c = base64Out ∧ shift' = .init)
      ∨ (shift.mode = true ∧ 0 ≤ findlen c ∧ shift.bits ≤ 8
        ∧ shift' = ⟨true, shift.bits + 6, (shift.cache * 64 + (findlen c).toNat) % cacheSize⟩) := by
  obtain ⟨mode, bits, cache⟩ := shift
  rw [Shift.step] at more
  split at more
  · cases more
  · cases mode with
    | false =>
        simp only [Bool.not_false, if_true] at more
        split at more
        · cases more
        · next empty =>
          split at more
          · next mark =>
            obtain ⟨rfl, rfl⟩ : bits = 0 ∧ cache = 0 := by omega
            cases more
            exact Or.inl ⟨rfl, mark, rfl⟩
          · split at more <;> cases more
    | true =>
        simp only [Bool.not_true, Bool.false_eq_true, if_false] at more
        split at more
        · cases more
        · next leaving =>
          split at more
          · split at more
            · cases more
            · next few =>
              split at more
              · split at more <;> cases more
              · next mark =>
                cases more
                have mark := not_not.mp mark
                exact Or.inr (Or.inl ⟨rfl, fun zero => leaving ⟨mark, zero⟩, Nat.not_le.mp few, mark, rfl⟩)
          · next digit =>
            split at more
            · next held =>
              cases more
              simp only [List.mem_cons, List.not_mem_nil, or_false] at held
              have few : bits ≤ 8 := by omega
              exact Or.inr (Or.inr ⟨rfl, Int.not_lt.mp digit, few, rfl⟩)
            · split at more <;> cases more

/-- A unit leaves few bits behind. -/
theorem step_done (done : shift.step c = .done u16 shift') (few : shift.bits ≤ 14)
    : shift'.bits ≤ 14 ∧ (shift'.mode = true → shift'.bits < 6) := by
  obtain ⟨mode, bits, cache⟩ := shift
  rw [Shift.step] at done
  split at done
  · cases done
  · cases mode with
    | false =>
        simp only [Bool.not_false, if_true] at done
        split at done
        · cases done
        · split at done
          · cases done
          · split at done
            · cases done
            · cases done
              exact ⟨few, fun on => absurd on Bool.false_ne_true⟩
    | true =>
        simp only [Bool.not_true, Bool.false_eq_true, if_false] at done
        split at done
        · cases done
          exact ⟨few, fun on => absurd on Bool.false_ne_true⟩
        · split at done
          · split at done
            · cases done
            · split at done
              · split at done
                · cases done
                · cases done
                  exact ⟨Nat.zero_le _, fun on => absurd on Bool.false_ne_true⟩
              · cases done
          · split at done
            · cases done
            · split at done
              · next held =>
                cases done
                simp only [List.mem_cons, List.not_mem_nil, or_false] at held
                have left : bits - 10 < 6 := by omega
                exact ⟨Nat.le_of_lt (left.trans (by decide)), fun _ => left⟩
              · cases done

theorem step_more_bits (more : shift.step c = .more shift') : shift'.bits ≤ 14 := by
  rcases step_more more with ⟨-, -, rfl⟩ | ⟨-, -, -, -, rfl⟩ | ⟨-, -, few, rfl⟩
  · exact Nat.zero_le _
  · exact Nat.zero_le _
  · exact Nat.add_le_add_right few 6

theorem Meets.bits (meets : Meets shift s met) (few : shift.bits ≤ 14) : met.bits ≤ 14 := by
  induction meets with
  | here => exact few
  | round step rest ih => exact ih (step_more_bits step)

theorem findlen_lt (c : Nat) : (findlen c).toNat < 64 := by
  have place : (if c ∈ base64 then base64.idxOf c + 1 else 0) ≤ 64 := by
    split
    · next inside =>
      have length : base64.length = 64 := by
        rw [base64_eq]
        rfl
      exact Nat.succ_le_of_lt (length ▸ List.idxOf_lt_length_of_mem inside)
    · exact Nat.zero_le 64
  have flags (flag : Prop) [Decidable flag] (value : Nat) (high : value &&& 0xff = 0)
      : (if flag then value else 0) &&& 0xff = 0 := by
    split
    · exact high
    · rfl
  have low : cell c &&& 0xff ≤ 64 := by
    rw [cell, Nat.and_or_distrib_right, Nat.and_or_distrib_right, Nat.and_or_distrib_right,
      flags _ 0x100 rfl, flags _ 0x200 rfl, flags _ 0x400 rfl, Nat.or_zero, Nat.or_zero, Nat.or_zero]
    exact Nat.and_le_left.trans place
  rw [findlen]
  split
  · decide
  · omega

/-- Twenty bits are needed at most. -/
theorem keepsBits (few : shift.bits ≤ 14) (c : Nat) : shift.KeepsBits c := by
  have wide : 2 ^ (shift.bits + 6) ∣ cacheSize := by
    rw [cacheSize]
    exact Nat.pow_dvd_pow 2 ((Nat.add_le_add_right few 6).trans (by decide))
  have value := findlen_lt c
  rw [Shift.KeepsBits, Nat.mod_mod_of_dvd _ wide, Nat.pow_add, Nat.mul_comm (2 ^ shift.bits),
    Nat.mod_mul, Nat.add_comm (shift.cache * 64), Nat.add_mul_mod_self_right, Nat.mod_eq_of_lt value,
    Nat.add_mul_div_right _ _ (by decide), Nat.div_eq_of_lt value, Nat.zero_add]
  omega

-----------------------------------------------------------------------------------------
-- Rounds
-----------------------------------------------------------------------------------------

/-- The number of bytes that the loop goes over. -/
def rounds : Shift → List Nat → Nat
  | _, [] => 0
  | shift, c :: s =>
      match shift.step c with
      | .more shift => rounds shift s + 1
      | _ => 1

theorem chlenAfter_loop (shift : Shift) (chlen : Nat) (s : List Nat)
    : chlenAfter.loop shift chlen s = chlen + rounds shift s := by
  induction s generalizing shift chlen with
  | nil => rfl
  | cons c s ih =>
      rw [chlenAfter.loop, rounds]
      cases shift.step c with
      | more shift => exact (ih shift (chlen + 1)).trans (by rw [Nat.add_assoc, Nat.add_comm 1])
      | fail => rfl
      | done u16 shift => rfl

theorem chlenAfter_replay (shift : Shift) {chlen : Nat} (saved s : List Nat) (held : saved.length ≤ chlen)
    : chlenAfter.replay shift chlen saved s
      = max chlen (chlen - saved.length + rounds shift (saved ++ s)) := by
  induction saved generalizing shift with
  | nil =>
      rw [chlenAfter.replay, chlenAfter_loop, List.length_nil, Nat.sub_zero, List.nil_append]
      exact (Nat.max_eq_right (Nat.le_add_right _ _)).symm
  | cons c saved ih =>
      rw [List.length_cons] at held ⊢
      rw [chlenAfter.replay, List.cons_append, rounds]
      cases shift.step c with
      | more shift =>
          refine (ih shift (Nat.le_of_succ_le held)).trans ?_
          dsimp only
          omega
      | fail =>
          dsimp only
          omega
      | done u16 shift =>
          dsimp only
          omega

/-- More than one round begins with a byte that does not finish a unit. -/
theorem rounds_more {n : Nat} (many : n + 2 ≤ rounds shift s)
    : ∃ c rest shift', s = c :: rest ∧ shift.step c = .more shift' ∧ n + 1 ≤ rounds shift' rest := by
  cases s with
  | nil => exact absurd many (Nat.not_succ_le_zero _)
  | cons c rest =>
      rw [rounds] at many
      cases step : shift.step c with
      | more shift' =>
          rw [step] at many
          exact ⟨c, rest, shift', rfl, step, Nat.le_of_succ_le_succ many⟩
      | fail =>
          rw [step] at many
          exact absurd (Nat.le_of_succ_le_succ many) (Nat.not_succ_le_zero _)
      | done u16 shift' =>
          rw [step] at many
          exact absurd (Nat.le_of_succ_le_succ many) (Nat.not_succ_le_zero _)

/-- With six bits in hand one more digit does not finish a unit, and then there are twelve. -/
theorem rounds_half (mode : shift.mode = true) (half : 6 ≤ shift.bits) : rounds shift s ≤ 2 := by
  by_contra many
  obtain ⟨c, rest, shift', -, step, many'⟩ := @rounds_more _ _ 1 (Nat.not_le.mp many)
  rcases step_more step with ⟨mode', -⟩ | ⟨-, -, few, -⟩ | ⟨-, -, -, rfl⟩
  · rw [mode] at mode'
    cases mode'
  · exact Nat.not_le.mpr few half
  · obtain ⟨c, rest, shift'', -, step', -⟩ := @rounds_more _ _ 0 many'
    rcases step_more step' with ⟨mode', -⟩ | ⟨-, -, few, -⟩ | ⟨-, -, few, -⟩
    · cases mode'
    · exact absurd few (Nat.not_lt.mpr (Nat.le_add_left 6 _))
    · exact absurd (Nat.le_of_add_le_add_right (few : shift.bits + 6 ≤ 2 + 6)) (by omega)

/-- Four bytes do not finish a unit in one way only. -/
theorem five_rounds (many : 5 ≤ rounds shift s)
    : shift.mode = true ∧ shift.cache ≠ 0
      ∧ ∃ d₁ d₂ c rest, 0 ≤ findlen d₁ ∧ 0 ≤ findlen d₂
        ∧ s = base64Out :: base64In :: d₁ :: d₂ :: c :: rest := by
  obtain ⟨c, s₁, shift₁, rfl, step, many₁⟩ := @rounds_more _ _ 3 many
  rcases step_more step with ⟨-, -, rfl⟩ | ⟨mode, used, -, rfl, rfl⟩ | ⟨-, -, -, rfl⟩
  · obtain ⟨c, s₂, shift₂, rfl, step, many₂⟩ := @rounds_more _ _ 2 many₁
    rcases step_more step with ⟨mode', -⟩ | ⟨-, used, -⟩ | ⟨-, -, -, rfl⟩
    · cases mode'
    · exact absurd rfl used
    · exact absurd (rounds_half rfl (Nat.le_refl 6)) (Nat.not_le.mpr many₂)
  · refine ⟨mode, used, ?_⟩
    obtain ⟨c, s₂, shift₂, rfl, step, many₂⟩ := @rounds_more _ _ 2 many₁
    rcases step_more step with ⟨-, rfl, rfl⟩ | ⟨mode', -⟩ | ⟨mode', -⟩
    · obtain ⟨d₁, s₃, shift₃, rfl, step, many₃⟩ := @rounds_more _ _ 1 many₂
      rcases step_more step with ⟨mode', -⟩ | ⟨-, used', -⟩ | ⟨-, digit₁, -, rfl⟩
      · cases mode'
      · exact absurd rfl used'
      · obtain ⟨d₂, s₄, shift₄, rfl, step, many₄⟩ := @rounds_more _ _ 0 many₃
        rcases step_more step with ⟨mode', -⟩ | ⟨-, -, few, -⟩ | ⟨-, digit₂, -, -⟩
        · cases mode'
        · exact absurd few (Nat.lt_irrefl 6)
        · cases s₄ with
          | nil => exact absurd many₄ (Nat.not_succ_le_zero 0)
          | cons c rest => exact ⟨d₁, d₂, c, rest, digit₁, digit₂, rfl⟩
    · cases mode'
    · cases mode'
  · exact absurd (rounds_half rfl (Nat.le_add_left 6 _)) (Nat.not_le.mpr (Nat.le_of_succ_le many₁))

theorem step_digit (mode : shift.mode = true) (digit : 0 ≤ findlen c) (held : shift.bits ∈ [0, 2, 4, 6, 8])
    : shift.step c = .more ⟨true, shift.bits + 6, (shift.cache * 64 + (findlen c).toNat) % cacheSize⟩ := by
  obtain ⟨small, inside⟩ := findlen_small digit
  simp only [Shift.step, small, mode, inside, held, Int.not_lt.mpr digit]
  simp

theorem rounds_outAndIn {d₁ d₂ : Nat} (mode : shift.mode = true) (used : shift.cache ≠ 0)
    (few : shift.bits < 6) (digit₁ : 0 ≤ findlen d₁) (digit₂ : 0 ≤ findlen d₂)
    : 5 ≤ rounds shift (base64Out :: base64In :: d₁ :: d₂ :: c :: s) := by
  have out : shift.step base64Out = .more .init := by
    obtain ⟨_, bits, cache⟩ := shift
    cases mode
    exact step_out few used
  have in_ : Shift.step .init base64In = .more ⟨true, 0, 0⟩ := rfl
  have third (shift : Shift) : 1 ≤ rounds shift (c :: s) := by
    rw [rounds]
    split
    · exact Nat.le_add_left 1 _
    · exact Nat.le_refl 1
  rw [rounds, out]
  dsimp only
  rw [rounds, in_]
  dsimp only
  rw [rounds, step_digit rfl digit₁ (by decide)]
  dsimp only
  rw [rounds, step_digit rfl digit₂ (show 6 ∈ [0, 2, 4, 6, 8] by decide)]
  exact Nat.succ_le_succ (Nat.succ_le_succ (Nat.succ_le_succ (Nat.succ_le_succ (third _))))

-----------------------------------------------------------------------------------------
-- The states between the calls
-----------------------------------------------------------------------------------------

variable {state next sv : State} {rest : List Nat}

/-- What holds of the states between the calls. -/
structure State.Between (state : State) : Prop where
  ch : state.ch.length = 4
  chlen : state.chlen ≤ 4
  bits : state.bits ≤ 14
  coded : state.mode = true → state.bits < 6

theorem loop_unit (call : mbtoutf16.loop sv s state = .unit u16 next rest) (ch : state.ch.length = 4)
    (bits : state.bits ≤ 14)
    : next.Between := by
  induction s generalizing state with
  | nil => cases call
  | cons c s ih =>
      rw [mbtoutf16.loop] at call
      split at call
      · cases call
      · cases step : state.toShift.step c with
        | fail => simp only [step] at call; cases call
        | more shift =>
            simp only [step] at call
            exact ih call (by rw [List.length_set, ch]) (step_more_bits step)
        | done u shift =>
            simp only [step] at call
            cases call
            obtain ⟨few, coded⟩ := step_done step bits
            exact ⟨by rw [List.length_set, ch], Nat.zero_le _, few, coded⟩

theorem replay_unit {saved : List Nat} (call : mbtoutf16.replay sv saved s state = .unit u16 next rest)
    (ch : state.ch.length = 4) (bits : state.bits ≤ 14)
    : next.Between := by
  induction saved generalizing state with
  | nil => exact loop_unit call ch bits
  | cons c saved ih =>
      rw [mbtoutf16.replay] at call
      cases step : state.toShift.step c with
      | fail => simp only [step] at call; cases call
      | more shift =>
          simp only [step] at call
          exact ih call ch (step_more_bits step)
      | done u shift =>
          simp only [step] at call
          split at call
          · cases call
            obtain ⟨few, coded⟩ := step_done step bits
            exact ⟨ch, Nat.zero_le _, few, coded⟩
          · cases call

theorem loop_restart (call : mbtoutf16.loop sv s state = .restart next) (room : state.chlen ≤ 4)
    : ∃ chlen ≤ 4, next = { sv with chlen := chlen } := by
  induction s generalizing state with
  | nil =>
      cases call
      exact ⟨_, room, rfl⟩
  | cons c s ih =>
      rw [mbtoutf16.loop] at call
      split at call
      · cases call
      · next less =>
        cases step : state.toShift.step c with
        | fail => simp only [step] at call; cases call
        | more shift =>
            simp only [step] at call
            exact ih call (Nat.not_le.mp less)
        | done u shift => simp only [step] at call; cases call

theorem replay_restart {saved : List Nat} (call : mbtoutf16.replay sv saved s state = .restart next)
    (room : state.chlen ≤ 4)
    : ∃ chlen ≤ 4, next = { sv with chlen := chlen } := by
  induction saved generalizing state with
  | nil => exact loop_restart call room
  | cons c saved ih =>
      rw [mbtoutf16.replay] at call
      cases step : state.toShift.step c with
      | fail => simp only [step] at call; cases call
      | more shift =>
          simp only [step] at call
          exact ih call room
      | done u shift =>
          simp only [step] at call
          split at call <;> cases call

theorem Reached.between (reached : Reached state) : state.Between := by
  induction reached with
  | init => exact ⟨rfl, Nat.zero_le _, Nat.zero_le _, nofun⟩
  | unit before call ih => exact replay_unit call ih.ch ih.bits
  | restart before call ih =>
      obtain ⟨chlen, room, rfl⟩ := replay_restart call ih.chlen
      exact ⟨ih.ch, room, ih.bits, ih.coded⟩
  | flag before surrogate ih => exact ⟨ih.ch, ih.chlen, ih.bits, ih.coded⟩

/-- A call of a decoder stores its bytes in bounds unless it comes out of base64 and goes back in. -/
theorem inBounds_iff (reached : Reached state) (s : List Nat) : InBounds state s ↔ ¬ OutAndIn state s := by
  have between := reached.between
  have held : (state.ch.take state.chlen).length = state.chlen := by
    rw [List.length_take, between.ch, Nat.min_eq_left between.chlen]
  have stored : chlenAfter state s = max state.chlen (rounds state.toShift (state.ahead s)) := by
    rw [chlenAfter, chlenAfter_replay _ _ _ held.le, held, Nat.sub_self, Nat.zero_add]
    rfl
  have five : 5 ≤ rounds state.toShift (state.ahead s) ↔ OutAndIn state s := by
    constructor
    · exact five_rounds
    · rintro ⟨mode, used, d₁, d₂, c, rest, digit₁, digit₂, bytes⟩
      rw [bytes]
      exact rounds_outAndIn mode used (between.coded mode) digit₁ digit₂
  constructor
  · intro bounds inside
    have room := bounds.room
    rw [stored] at room
    exact absurd (five.mpr inside) (Nat.not_le.mpr (Nat.lt_succ_of_le ((Nat.le_max_right _ _).trans room)))
  · intro outside
    refine ⟨?_, fun shift meets => ?_, fun shift meets => keepsBits (meets.bits between.bits)⟩
    · rw [stored]
      exact Nat.max_le.mpr ⟨between.chlen, Nat.le_of_not_lt fun more => outside (five.mp more)⟩
    · exact (meets.bits between.bits).trans (by decide)

theorem inBounds_iff_init : InBounds .init [43, 65] ↔ ¬ OutAndIn .init [43, 65] := inBounds_iff .init _

/-- Behind the first letter of "+AGE-+AGE" five bytes are stored where four have room. -/
theorem fifth_byte
    : ∃ state, Reached state ∧ chlenAfter state (codes "-+AGE") = 5
      ∧ ¬ InBounds state (codes "-+AGE") := by
  have letters : digit 0 = 65 ∧ digit 6 = 71 ∧ digit 4 = 69 := by
    simp only [digit, base64_eq]
    decide
  have a : findlen 65 = 0 := letters.1 ▸ (digit_spec 0 (by decide)).1
  have g : findlen 71 = 6 := letters.2.1 ▸ (digit_spec 6 (by decide)).1
  have e : findlen 69 = 4 := letters.2.2 ▸ (digit_spec 4 (by decide)).1
  have minus : findlen 45 < 0 := findlen_out
  have text : codes "-+AGE" = [45, 43, 65, 71, 69] := by rw [codes, String.toList_ofList]; rfl
  have call : mbtoutf16 .init [43, 65, 71, 69, 45, 43, 65, 71, 69]
      = .unit 97 ⟨⟨true, 2, 388⟩, false, 0, [43, 65, 71, 69]⟩ [45, 43, 65, 71, 69] := by
    simp [mbtoutf16, mbtoutf16.replay, mbtoutf16.loop, State.init, Shift.init, Shift.step, base64In, base64Out,
      cacheSize, a, g, e]
  have five : chlenAfter ⟨⟨true, 2, 388⟩, false, 0, [43, 65, 71, 69]⟩ [45, 43, 65, 71, 69] = 5 := by
    simp [chlenAfter, chlenAfter.replay, chlenAfter.loop, Shift.init, Shift.step, base64In, base64Out,
      cacheSize, a, g, e, minus]
  rw [text]
  exact ⟨_, .unit .init call, five, fun bounds => absurd (five ▸ bounds.room) (by decide)⟩

end BSDLibC.Utf7
