import BSDLibC.Env.Slots
import Mathlib.Data.List.TakeWhile

/-! What `setenv`, `putenv`, `unsetenv` and `getenv` do to the strings of the environment. -/

namespace BSDLibC.Env

variable {s s' : State} {es before after : List Str} {texts front back : List (List UInt8)}
  {n v : List UInt8} {name value new e p : Str} {x : Option Str}

/-- A string that a call may read: one of the application, or one in a buffer that the environment
uses.
-/
structure Passable (s : State) (es : List Str) (p : Str) (text : List UInt8) : Prop where
  reads : s.cstr p = some text
  used : s.Owns p.block → ∃ e ∈ es, e.block = p.block

theorem Keeps.passable {text : List UInt8} (h : Keeps es s s') (passable : Passable s es p text)
    : Passable s' es p text := by
  refine ⟨?_, fun owned => passable.used (h.owns _ owned)⟩
  rw [← passable.reads]
  refine cstr_congr ?_
  by_cases owned : s.Owns p.block
  · obtain ⟨e, member, same⟩ := passable.used owned
    rw [← same]
    exact h.entries e member
  · exact h.foreign p.block owned

/-- The entry that is freed when its slot gets a new string. -/
theorem releaseSlot_spec {offset : Nat} (slot : s.slot offset = some x) (buffers : Buffers s)
    (whole : ∀ old, x = some old → s.Owns old.block → old.offset = 0)
    : ∃ s', s.releaseSlot offset = some s' ∧ SameArrays s s' ∧ Buffers s'
      ∧ (∀ block, (∀ old, x = some old → s.Owns old.block → block ≠ old.block)
        → s'.chars block = s.chars block)
      ∧ ∀ block, s'.Owns block → s.Owns block ∧ ∀ old, x = some old → block ≠ old.block := by
  cases x with
  | none =>
      refine ⟨s, by simp [State.releaseSlot, slot], ⟨rfl, rfl, rfl, rfl⟩, buffers, fun _ _ => rfl, ?_⟩
      intro block owned
      exact ⟨owned, fun old none => by cases none⟩
  | some old =>
      refine ⟨freeenvvar s old, by simp [State.releaseSlot, slot], freeenvvar_sameArrays s old,
        buffers.free old, ?_, ?_⟩
      · intro block kept
        exact freeenvvar_chars (kept old rfl)
      · intro block owned
        obtain ⟨owned', apart⟩ := freeenvvar_owns owned
        refine ⟨owned', ?_⟩
        rintro _ ⟨⟩ rfl
        exact apart (whole old rfl owned') rfl

/-- A new string in a slot. -/
theorem setSlot_spec {rest : List (Option Str)} (new : Str) (arrays : Arrays s)
    (slots : s.slots = some (before.map some ++ x :: (after.map some ++ none :: rest)))
    : ∃ vectors, s.setSlot before.length (some new) = some { s with vectors := vectors }
      ∧ State.Lists { s with vectors := vectors } (before ++ new :: after)
      ∧ Arrays { s with vectors := vectors } := by
  have inside : before.length < (before.map some ++ x :: (after.map some ++ none :: rest)).length := by
    simp
  obtain ⟨vectors, run, shown, sizes⟩ := setSlot_eq slots inside (some new)
  refine ⟨vectors, run, Or.inr ⟨rest, ?_⟩, arrays.sizes sizes⟩
  rw [shown]
  simp [List.set_append_right]

/-- The entries other than the one of a slot, which may be free. What points into the buffer of
that slot does not survive a new string in it.
-/
structure Around (s : State) (before after : List Str) (front back : List (List UInt8))
    (x : Option Str) : Prop where
  slots : ∃ rest, s.slots = some (before.map some ++ x :: (after.map some ++ none :: rest))
  holds : Holds s (before ++ after) (front ++ back)
  length : before.length = front.length
  whole : ∀ old, x = some old → s.Owns old.block → old.offset = 0
  apart : ∀ old, x = some old → s.Owns old.block → ∀ other ∈ before ++ after, other.block ≠ old.block
  live : ∀ old, x = some old → (s.chars old.block).isSome

theorem Around.slot (h : Around s before after front back x) : s.slot before.length = some x := by
  obtain ⟨rest, slots⟩ := h.slots
  rw [slot_eq slots]
  simp

/-- The slot of a variable that exists. -/
theorem Ok.around_found (ok : Ok s es texts) {text : List UInt8} (split : texts = front ++ text :: back)
    : ∃ before after e, es = before ++ e :: after ∧ before.length = front.length
      ∧ s.cstr e = some text ∧ Around s before after front back (some e) := by
  subst split
  have reads := ok.holds.reads
  rw [List.map_append, List.map_cons] at reads
  obtain ⟨before, later, rfl, first, rest⟩ := List.map_eq_append_iff.mp reads
  obtain ⟨e, after, rfl, same, last⟩ := List.map_eq_cons_iff.mp rest
  have length : before.length = front.length := by simpa using congrArg List.length first
  obtain ⟨reads, holds, apart⟩ := ok.holds.split length
  refine ⟨before, after, e, rfl, length, same, ⟨?_, holds, length, ?_, ?_, ?_⟩⟩
  · rcases ok.lists with ⟨-, empty⟩ | ⟨rest, slots⟩
    · simp at empty
    · exact ⟨rest, by simpa using slots⟩
  · rintro _ ⟨⟩
    exact ok.holds.whole e (by simp)
  · rintro _ ⟨⟩ owned other member
    exact apart other member owned
  · rintro _ ⟨⟩
    exact live_of_cstr same

/-- A free slot. -/
theorem Ok.around_free (ok : Ok s es texts) (room : s.Room es) : Around s es [] texts [] none := by
  obtain ⟨rest, slots⟩ := room
  refine ⟨⟨rest, slots⟩, by simpa using ok.holds, ok.holds.length_eq, ?_, ?_, ?_⟩
  all_goals
    intro old none
    cases none

/-- A string in a buffer of its own in place of the old one. -/
theorem replace_spec (h : Around s before after front back x) (buffers : Buffers s)
    (arrays : Arrays s) (supply : Supply) (reads : s.cstr name = some n)
    (reads' : s.cstr value = some v)
    (clear : ∀ old, x = some old → s.Owns old.block
      → name.block ≠ old.block ∧ value.block ≠ old.block)
    : ∃ s' errno, setenv.replace s before.length name value n.length v.length supply = some (s', errno)
      ∧ s'.environ = s.environ
      ∧ ((errno = some .ENOMEM ∧ s' = s)
        ∨ (errno = none
          ∧ ∃ new, Ok s' (before ++ new :: after) (front ++ variableText n v :: back))) := by
  cases alloc : allocenvvar s (n.length + v.length + 2) supply with
  | none => exact ⟨s, some .ENOMEM, by simp [setenv.replace, alloc], rfl, Or.inl ⟨rfl, rfl⟩⟩
  | some result =>
      obtain ⟨s₁, new⟩ := result
      obtain ⟨start, free, bytes, size, state₁⟩ := allocenvvar_some alloc
      obtain ⟨buffers₁, -, owns₁⟩ := buffers.alloc alloc
      have chars₁ : ∀ block, block ≠ new.block → s₁.chars block = s.chars block := by
        intro block different
        rw [state₁]
        exact Function.update_of_ne different _ _
      have fresh : ∀ block, (s.chars block).isSome → block ≠ new.block := by
        rintro block live rfl
        simp [free] at live
      have arrays_same : SameArrays s s₁ := by
        rw [state₁]
        exact ⟨rfl, rfl, rfl, rfl⟩
      have slot₁ : s₁.slot before.length = some x := by
        rw [State.slot, arrays_same.slots]
        exact h.slot
      have owned_old : ∀ old, x = some old → s₁.Owns old.block → s.Owns old.block := by
        intro old taken owned
        exact (owns₁ _ owned).resolve_left (fresh _ (h.live old taken))
      obtain ⟨s₂, run₂, same₂, buffers₂, chars₂, owns₂⟩ :=
        releaseSlot_spec slot₁ buffers₁ fun old taken owned => h.whole old taken (owned_old old taken owned)
      have kept : ∀ block, (s.chars block).isSome
          → (∀ old, x = some old → s.Owns old.block → block ≠ old.block)
          → s₂.chars block = s.chars block := by
        intro block live apart
        rw [chars₂ block fun old taken owned => apart old taken (owned_old old taken owned)]
        exact chars₁ block (fresh block live)
      have new₂ : s₂.chars new.block = some bytes := by
        rw [chars₂ new.block fun old taken _ => (fresh _ (h.live old taken)).symm, state₁]
        exact Function.update_self _ _ _
      obtain ⟨rest, slots⟩ := h.slots
      obtain ⟨vectors, run₃, lists, arrays₃⟩ := setSlot_spec new
        (same₂.arrays (arrays_same.arrays arrays))
        (same₂.slots.trans (arrays_same.slots.trans slots))
      have reads₃ : State.cstr { s₂ with vectors := vectors } name = some n := by
        rw [← reads]
        exact cstr_congr (kept _ (live_of_cstr reads) fun old taken owned => (clear old taken owned).1)
      have reads₃' : State.cstr { s₂ with vectors := vectors } value = some v := by
        rw [← reads']
        exact cstr_congr (kept _ (live_of_cstr reads') fun old taken owned => (clear old taken owned).2)
      have fill := fill_eq reads₃ reads₃' start new₂ size (fresh _ (live_of_cstr reads'))
      refine ⟨State.putBlock { s₂ with vectors := vectors } new.block (variableText n v ++ [0]), none,
        ?_, same₂.environ.trans arrays_same.environ, Or.inr ⟨rfl, new, ?_⟩⟩
      · obtain ⟨t₁, name_copied, fill⟩ := Option.bind_eq_some_iff.mp fill
        obtain ⟨t₂, sign_written, value_copied⟩ := Option.bind_eq_some_iff.mp fill
        simp [setenv.replace, alloc, run₂, run₃, name_copied, sign_written, value_copied]
      · have text : 0 ∉ variableText n v := by
          simp only [variableText, List.mem_append, List.mem_cons, not_or]
          exact ⟨(cstr_eq_some.mp reads).1, by decide, (cstr_eq_some.mp reads').1⟩
        have old_kept : ∀ other ∈ before ++ after,
            other.block ≠ new.block ∧ s₂.chars other.block = s.chars other.block := by
          intro other member
          obtain ⟨text, reads⟩ := h.holds.cstr_mem member
          refine ⟨fresh _ (live_of_cstr reads), kept _ (live_of_cstr reads) ?_⟩
          intro old taken owned
          exact h.apart old taken owned other member
        refine ⟨lists, ?_, ?_, ?_⟩
        · refine Holds.insert ?_ h.length ?_ (fun _ => start) ?_
          · refine h.holds.mono ?_ ?_
            · intro other member
              rw [putBlock_ne (old_kept other member).1]
              exact (old_kept other member).2
            · intro other member owned
              exact (owns₁ _ (owns₂ _ owned).1).resolve_left (old_kept other member).1
          · refine cstr_eq_some.mpr ⟨text, [], [], ?_, start.symm⟩
            simpa using putBlock_self { s₂ with vectors := vectors } new.block (variableText n v ++ [0])
          · intro other member _
            exact (old_kept other member).1
        · have ok₃ : Buffers { s₂ with vectors := vectors } := ⟨buffers₂.distinct, buffers₂.nodes⟩
          exact ok₃.putBlock new₂ (by simp [variableText, size]; omega)
        · exact ⟨arrays₃.size, arrays₃.inside⟩

-----------------------------------------------------------------------------------------
-- Names
-----------------------------------------------------------------------------------------

theorem takeWhile_name (plain : equalSign ∉ n) : n.takeWhile (· ≠ equalSign) = n := by
  rw [List.takeWhile_eq_self_iff]
  intro c member
  simpa using ne_of_mem_of_not_mem member plain

theorem envvarnamelen_valid (valid : ValidName n) : envvarnamelen n false = n.length := by
  have nonempty : n.length ≠ 0 := by simpa using valid.nonempty
  simp only [envvarnamelen, takeWhile_name valid.plain, if_neg nonempty]
  simp

theorem envvarnamelen_invalid (invalid : ¬ ValidName n) : envvarnamelen n false = 0 := by
  by_cases empty : n = []
  · subst empty
    rfl
  · have sign : equalSign ∈ n := by
      by_contra plain
      exact invalid ⟨empty, plain⟩
    obtain ⟨-, after, split⟩ := takeWhile_split sign
    have at_sign : n[(n.takeWhile (· ≠ equalSign)).length]? = some equalSign := by
      nth_rewrite 1 [split]
      simp
    simp only [envvarnamelen, at_sign]
    simp

/-- What `putenv` accepts. -/
theorem envvarnamelen_withequal (text : List UInt8)
    : envvarnamelen text true = 0
      ∨ ∃ name value, text = variableText name value ∧ ValidName name
        ∧ envvarnamelen text true = name.length := by
  by_cases empty : (text.takeWhile (· ≠ equalSign)).length = 0
  · exact Or.inl (by simp only [envvarnamelen, if_pos empty])
  by_cases sign : equalSign ∈ text
  · obtain ⟨absent, after, split⟩ := takeWhile_split sign
    refine Or.inr ⟨_, after, split, ⟨?_, absent⟩, ?_⟩
    · simpa using empty
    · have at_sign : text[(text.takeWhile (· ≠ equalSign)).length]? = some equalSign := by
        nth_rewrite 1 [split]
        simp
      simp only [envvarnamelen, if_neg empty, if_true, if_neg (not_not.mpr at_sign)]
  · refine Or.inl ?_
    simp only [envvarnamelen, takeWhile_name sign]
    simp

theorem namelen_eq {text : List UInt8} (reads : s.cstr p = some text) (withequal : Bool)
    : s.namelen (some p) withequal = some (envvarnamelen text withequal) := by
  rw [State.namelen, reads, Option.map_some]

-----------------------------------------------------------------------------------------
-- setenv
-----------------------------------------------------------------------------------------

/-- The buffer of an entry, which starts with its string. -/
theorem owned_bytes {text : List UInt8} (buffers : Buffers s) (reads : s.cstr e = some text)
    (start : e.offset = 0) (owned : s.Owns e.block)
    : ∃ node after, s.findNode e = some node ∧ s.chars e.block = some (text ++ 0 :: after)
      ∧ node.length = (text ++ 0 :: after).length := by
  obtain ⟨-, before, after, block, length⟩ := cstr_eq_some.mp reads
  rw [start, List.length_eq_zero_iff] at length
  subst length
  rw [List.nil_append] at block
  cases found : s.findNode e with
  | none => exact absurd owned (findNode_none found start)
  | some node =>
      obtain ⟨member, same, -⟩ := findNode_some found
      refine ⟨node, after, rfl, block, ?_⟩
      have size := buffers.nodes node member
      rw [same, block] at size
      exact (Option.some.inj size).symm

/-- The value is written over the old one. -/
theorem overwrite_spec {old : List UInt8} (buffers : Buffers s) (arrays : Arrays s)
    (lists : s.Lists (before ++ e :: after))
    (holds : Holds s (before ++ e :: after) (front ++ variableText n old :: back))
    (length : before.length = front.length) (reads : s.cstr value = some v)
    (fits : canoverwriteenvvar s e (n.length + v.length + 2))
    : ∃ s', s.memcpy (e.add (n.length + 1)) value (v.length + 1) = some s'
      ∧ s'.environ = s.environ
      ∧ Ok s' (before ++ e :: after) (front ++ variableText n v :: back) := by
  obtain ⟨same, others, apart⟩ := holds.split length
  obtain ⟨node, found, size⟩ : ∃ node, s.findNode e = some node ∧ n.length + v.length + 2 ≤ node.length := by
    rw [canoverwriteenvvar] at fits
    cases found : s.findNode e with
    | none => simp [found] at fits
    | some node => exact ⟨node, rfl, by simpa [found] using fits⟩
  obtain ⟨member, block, start⟩ := findNode_some found
  have owned : s.Owns e.block := ⟨node, member, block⟩
  obtain ⟨node', rest, found', bytes, size'⟩ := owned_bytes buffers same start owned
  obtain rfl := Option.some.inj (found.symm.trans found')
  -- The part behind the name that is overwritten, and what stays behind it.
  have room : v.length + 1 ≤ (old ++ 0 :: rest).length := by
    simp only [variableText, List.length_append, List.length_cons] at size' ⊢
    omega
  have parts : variableText n old ++ 0 :: rest
      = (n ++ [equalSign]) ++ ((old ++ 0 :: rest).take (v.length + 1)
        ++ (old ++ 0 :: rest).drop (v.length + 1)) := by
    rw [List.take_append_drop]
    simp [variableText]
  have written := write_part (p := e.add (n.length + 1)) (v ++ [0]) bytes _ _ _ parts
    (by simp [Str.add, start]) (by rw [List.length_take_of_le room]; simp)
  refine ⟨_, (memcpy_whole reads).trans written, rfl, lists, ?_, ?_, ⟨arrays.size, arrays.inside⟩⟩
  · refine Holds.insert ?_ length ?_ (fun _ => start) ?_
    · refine others.mono ?_ fun _ _ owned => owned
      intro other member
      exact putBlock_ne (apart other member owned) _ _
    · refine cstr_eq_some.mpr ⟨?_, [], (old ++ 0 :: rest).drop (v.length + 1), ?_, start.symm⟩
      · have plain := (cstr_eq_some.mp same).1
        simp only [variableText, List.mem_append, List.mem_cons, not_or] at plain ⊢
        exact ⟨plain.1, plain.2.1, (cstr_eq_some.mp reads).1⟩
      · refine (putBlock_self _ _ _).trans ?_
        simp [variableText]
    · intro other member _
      exact apart other member owned
  · refine buffers.putBlock bytes ?_
    rw [parts]
    simp only [List.length_append, List.length_take_of_le room, List.length_cons, List.length_nil]

/-- What a caller of `setenv` and `unsetenv` promises: the name is not a part of the buffer of the
variable that it names.
-/
def State.Clear (s : State) (es : List Str) (name : List UInt8) (block : Nat) : Prop :=
  ∀ e ∈ es, s.Owns e.block → (∃ text, s.cstr e = some text ∧ Sets name text) → block ≠ e.block

/-- The same for the value, which may be the end of the current one. -/
def State.ClearValue (s : State) (es : List Str) (name : List UInt8) (value : Str) : Prop :=
  name.length < value.offset ∨ s.Clear es name value.block

/-- A value at the end of a buffer fits into the buffer. -/
theorem canoverwrite_tail {old : List UInt8} (buffers : Buffers s)
    (same : s.cstr e = some (variableText n old)) (start : e.offset = 0) (owned : s.Owns e.block)
    (reads : s.cstr value = some v) (inside : value.block = e.block) (tail : n.length < value.offset)
    : canoverwriteenvvar s e (n.length + v.length + 2) := by
  obtain ⟨node, after, found, bytes, size⟩ := owned_bytes buffers same start owned
  obtain ⟨-, first, last, bytes', offset⟩ := cstr_eq_some.mp reads
  rw [inside, bytes, Option.some.injEq] at bytes'
  have length := congrArg List.length bytes'
  simp only [List.length_append, List.length_cons] at length size
  simp only [canoverwriteenvvar, found, decide_eq_true_eq]
  omega

/-- What `setenv` makes of the strings. -/
def afterSetenv (texts : List (List UInt8)) (n v : List UInt8) (rewrite : Bool) : List (List UInt8) :=
  if rewrite = false ∧ position texts n < texts.length then texts else assign texts n v

theorem setenv_spec (ok : Ok s es texts) (name_ok : Passable s es name n)
    (value_ok : Passable s es value v) (valid : ValidName n) (clear : s.Clear es n name.block)
    (clear' : s.ClearValue es n value) (stray : s.environ = none → s.allocatedEnviron = none)
    (rewrite : Bool) (vector : Option Nat) (buffer : Supply)
    : ∃ s' errno, setenv s (some name) (some value) rewrite vector buffer = some (s', errno)
      ∧ (s.environ ≠ none → s'.environ ≠ none)
      ∧ ((errno = some .ENOMEM ∧ Ok s' es texts)
        ∨ (errno = none ∧ ∃ es', Ok s' es' (afterSetenv texts n v rewrite))) := by
  have length : envvarnamelen n false = n.length := envvarnamelen_valid valid
  have nonempty : n.length ≠ 0 := by simpa using valid.nonempty
  obtain ⟨s₁, slot, run, ok₁, keeps, shown, outcome⟩ :=
    getenvslot_spec ok (Nat.le_refl n.length) true vector fun _ => stray
  rw [List.take_length] at outcome
  have reads₁ := (keeps.passable name_ok).reads
  have reads₁' := (keeps.passable value_ok).reads
  have entry : setenv s (some name) (some value) rewrite vector buffer
      = slot.elim (some (s₁, some .ENOMEM))
          (fun offset => setenv.atSlot s₁ offset name value n.length rewrite buffer) := by
    simp only [setenv, namelen_eq name_ok.reads, length, Option.bind_eq_bind, Option.bind_some,
      nonempty, false_or, reduceCtorEq, if_false, name_ok.reads, run]
    cases slot <;> rfl
  rw [entry]
  rcases outcome with ⟨rfl, rfl, inside⟩ | ⟨rfl, -⟩ | ⟨rfl, room, absent⟩
  · -- The variable exists.
    rcases split_position texts n with ⟨front, back, old, rfl, at_front, -⟩ | ⟨at_end, -⟩
    · obtain ⟨before, after, e, rfl, lengths, same, around⟩ := ok₁.around_found rfl
      have place : position (front ++ variableText n old :: back) n = before.length :=
        at_front.trans lengths.symm
      rw [Option.elim_some, place]
      cases rewrite with
      | false =>
          refine ⟨s₁, none, ?_, shown, Or.inr ⟨rfl, before ++ e :: after, ?_⟩⟩
          · simp [setenv.atSlot, reads₁', around.slot]
          · rw [afterSetenv, if_pos ⟨rfl, inside⟩]
            exact ok₁
      | true =>
          have assigned : afterSetenv (front ++ variableText n old :: back) n v true
              = front ++ variableText n v :: back := by
            rw [afterSetenv, if_neg (by simp), assign, if_pos inside, at_front]
            simp
          rw [assigned]
          cases fits : canoverwriteenvvar s₁ e (n.length + v.length + 2) with
          | true =>
              obtain ⟨s', copied, environ, ok'⟩ := overwrite_spec ok₁.buffers ok₁.arrays ok₁.lists ok₁.holds
                lengths reads₁' fits
              refine ⟨s', none, ?_, environ ▸ shown, Or.inr ⟨rfl, _, ok'⟩⟩
              simp [setenv.atSlot, reads₁', around.slot, fits, copied]
          | false =>
              have apart : s₁.Owns e.block → name.block ≠ e.block ∧ value.block ≠ e.block := by
                intro owned
                have sets := sets_variableText n old
                refine ⟨clear e (by simp) owned ⟨_, same, sets⟩, ?_⟩
                rcases clear' with tail | clear'
                · intro inside
                  have fits' := canoverwrite_tail ok₁.buffers same (around.whole e rfl owned) owned
                    reads₁' inside tail
                  simp [fits] at fits'
                · exact clear' e (by simp) owned ⟨_, same, sets⟩
              obtain ⟨s', errno, run', environ, outcome⟩ :=
                replace_spec around ok₁.buffers ok₁.arrays buffer reads₁ reads₁' (by
                  rintro _ ⟨⟩
                  exact apart)
              refine ⟨s', errno, ?_, environ ▸ shown, ?_⟩
              · simp [setenv.atSlot, reads₁', around.slot, fits, run']
              · rcases outcome with ⟨failed, rfl⟩ | ⟨done, new, ok'⟩
                · exact Or.inl ⟨failed, ok₁⟩
                · exact Or.inr ⟨done, _, ok'⟩
    · omega
  · exact ⟨s₁, _, rfl, shown, Or.inl ⟨rfl, ok₁⟩⟩
  · -- A new variable gets a buffer of its own.
    have around := ok₁.around_free room
    obtain ⟨s', errno, run', environ, failed | ⟨rfl, new, ok'⟩⟩ :=
      replace_spec around ok₁.buffers ok₁.arrays buffer reads₁ reads₁' (by
        intro old none
        cases none)
    · refine ⟨s', errno, ?_, environ ▸ shown, Or.inl ⟨failed.1, failed.2 ▸ ok₁⟩⟩
      simp [setenv.atSlot, reads₁', around.slot, run']
    · refine ⟨s', none, ?_, environ ▸ shown, Or.inr ⟨rfl, es ++ [new], ?_⟩⟩
      · simp [setenv.atSlot, reads₁', around.slot, run']
      · rw [afterSetenv, if_neg (by omega), assign, if_neg (by omega)]
        exact ok'

-----------------------------------------------------------------------------------------
-- putenv
-----------------------------------------------------------------------------------------

/-- A string of the application in place of the old one. -/
theorem put_spec {text : List UInt8} (h : Around s before after front back x) (buffers : Buffers s)
    (arrays : Arrays s) (reads : s.cstr p = some text) (foreign : ¬ s.Owns p.block)
    : ∃ s', (s.releaseSlot before.length).bind (fun s => s.setSlot before.length (some p)) = some s'
      ∧ s'.environ = s.environ ∧ Ok s' (before ++ p :: after) (front ++ text :: back) := by
  obtain ⟨s₁, run₁, same₁, buffers₁, chars₁, owns₁⟩ := releaseSlot_spec h.slot buffers h.whole
  obtain ⟨rest, slots⟩ := h.slots
  obtain ⟨vectors, run₂, lists, arrays₂⟩ :=
    setSlot_spec p (same₁.arrays arrays) (same₁.slots.trans slots)
  refine ⟨{ s₁ with vectors := vectors }, by rw [run₁, Option.bind_some, run₂],
    same₁.environ, lists, ?_,
    ⟨buffers₁.distinct, buffers₁.nodes⟩, arrays₂⟩
  have foreign₁ : ¬ s₁.Owns p.block := fun owned => foreign (owns₁ _ owned).1
  refine Holds.insert ?_ h.length ?_ (fun owned => absurd owned foreign₁) ?_
  · refine h.holds.mono ?_ fun e _ owned => (owns₁ _ owned).1
    intro e member
    exact chars₁ e.block fun old taken owned => h.apart old taken owned e member
  · rw [← reads]
    refine cstr_congr (chars₁ p.block ?_)
    rintro old taken owned same
    exact foreign (same ▸ owned)
  · intro e member owned same
    rcases owned with owned | owned
    · exact foreign₁ (same ▸ owned)
    · exact foreign₁ owned

theorem putenv_spec {text : List UInt8} (ok : Ok s es texts) (reads : s.cstr p = some text)
    (foreign : ¬ s.Owns p.block) (split : text = variableText n v) (valid : ValidName n)
    (length : envvarnamelen text true = n.length)
    (stray : s.environ = none → s.allocatedEnviron = none) (vector : Option Nat)
    : ∃ s' errno, putenv s (some p) vector = some (s', errno)
      ∧ (s.environ ≠ none → s'.environ ≠ none)
      ∧ ((errno = some .ENOMEM ∧ Ok s' es texts)
        ∨ (errno = none ∧ ∃ es', Ok s' es' (assign texts n v))) := by
  have nonempty : n.length ≠ 0 := by simpa using valid.nonempty
  have first : text.take n.length = n := by rw [split, variableText, List.take_left]
  obtain ⟨s₁, slot, run, ok₁, keeps, shown, outcome⟩ :=
    getenvslot_spec ok (show n.length ≤ text.length by rw [split]; simp [variableText]) true vector
      fun _ => stray
  rw [first] at outcome
  have foreign₁ : ¬ s₁.Owns p.block := fun owned => foreign (keeps.owns _ owned)
  have reads₁ : s₁.cstr p = some text := by
    rw [← reads]
    exact cstr_congr (keeps.foreign p.block foreign)
  have entry : putenv s (some p) vector
      = slot.elim (some (s₁, some .ENOMEM))
          (fun offset => ((s₁.releaseSlot offset).bind
            (fun s => s.setSlot offset (some p))).map (fun s => (s, none))) := by
    simp only [putenv, namelen_eq reads, length, Option.bind_eq_bind, Option.bind_some, nonempty,
      if_false, reads, run]
    cases slot <;> rfl
  rw [entry]
  rcases outcome with ⟨rfl, rfl, inside⟩ | ⟨rfl, -⟩ | ⟨rfl, room, absent⟩
  · rcases split_position texts n with ⟨front, back, old, rfl, at_front, -⟩ | ⟨at_end, -⟩
    · obtain ⟨before, after, e, rfl, lengths, -, around⟩ := ok₁.around_found rfl
      obtain ⟨s', put, environ, ok'⟩ := put_spec around ok₁.buffers ok₁.arrays reads₁ foreign₁
      refine ⟨s', none, ?_, environ ▸ shown, Or.inr ⟨rfl, before ++ p :: after, ?_⟩⟩
      · rw [Option.elim_some, at_front, ← lengths, put, Option.map_some]
      · rw [assign, if_pos inside, at_front, ← split]
        simpa using ok'
    · omega
  · exact ⟨s₁, _, rfl, shown, Or.inl ⟨rfl, ok₁⟩⟩
  · obtain ⟨s', put, environ, ok'⟩ :=
      put_spec (ok₁.around_free room) ok₁.buffers ok₁.arrays reads₁ foreign₁
    refine ⟨s', none, ?_, environ ▸ shown, Or.inr ⟨rfl, es ++ [p], ?_⟩⟩
    · rw [Option.elim_some, put, Option.map_some]
    · rw [assign, if_neg (by omega), ← split]
      exact ok'

-----------------------------------------------------------------------------------------
-- unsetenv
-----------------------------------------------------------------------------------------

/-- The invariant of the removing loop: `kept` has been moved to the front, `middle` is stale, and
`todo` has not been looked at.
-/
structure Removing (name : Str) (n : List UInt8) (rest : List (Option Str)) (s : State)
    (kept : List Str) (middle : List (Option Str)) (todo : List Str)
    (done texts : List (List UInt8)) : Prop where
  slots : s.slots = some (kept.map some ++ (middle ++ (todo.map some ++ none :: rest)))
  holds : Holds s (kept ++ todo) (done ++ texts)
  lengths : kept.length = done.length
  buffers : Buffers s
  arrays : Arrays s
  reads : s.cstr name = some n
  clear : s.Clear todo n name.block

variable {kept later : List Str} {middle rest : List (Option Str)} {done : List (List UInt8)}
  {text : List UInt8} {hole : Option Str}

/-- A matching entry becomes stale, and its buffer is freed. -/
theorem Removing.free (h : Removing name n rest s kept middle (e :: later) done (text :: texts))
    (sets : Sets n text)
    : Removing name n rest (freeenvvar s e) kept (middle ++ [some e]) later done texts := by
  obtain ⟨same, left, apart⟩ := h.holds.split h.lengths
  have kept_chars : ∀ other ∈ kept ++ later,
      (freeenvvar s e).chars other.block = s.chars other.block :=
    fun other member => freeenvvar_chars fun owned => apart other member owned
  have same_arrays := freeenvvar_sameArrays s e
  refine ⟨?_, ?_, h.lengths, h.buffers.free e, same_arrays.arrays h.arrays, ?_, ?_⟩
  · rw [same_arrays.slots, h.slots]
    simp
  · exact left.mono kept_chars fun _ _ owned => (freeenvvar_owns owned).1
  · rw [← h.reads]
    refine cstr_congr (freeenvvar_chars fun owned => ?_)
    exact h.clear e (by simp) owned ⟨text, same, sets⟩
  · rintro other member owned ⟨text', reads', sets'⟩
    refine h.clear other (by simp [member]) (freeenvvar_owns owned).1 ⟨text', ?_, sets'⟩
    rw [← reads']
    exact (cstr_congr (kept_chars other (by simp [member]))).symm

/-- Any other entry moves to the front. -/
theorem Removing.move
    (h : Removing name n rest s kept (hole :: middle) (e :: later) done (text :: texts))
    : ∃ s', s.setSlot kept.length (some e) = some s'
      ∧ Removing name n rest s' (kept ++ [e]) (middle ++ [some e]) later (done ++ [text]) texts := by
  have inside : kept.length
      < (kept.map some ++ ((hole :: middle) ++ ((e :: later).map some ++ none :: rest))).length := by
    simp
  obtain ⟨vectors, moved, shown, sizes⟩ := setSlot_eq h.slots inside (some e)
  refine ⟨_, moved, ?_, ?_, by simp [h.lengths], ⟨h.buffers.distinct, h.buffers.nodes⟩,
    h.arrays.sizes sizes, h.reads, fun other member => h.clear other (by simp [member])⟩
  · rw [shown]
    simp
  · rw [List.append_assoc, List.append_assoc]
    exact h.holds.mono (fun _ _ => rfl) fun _ _ owned => owned

/-- The removing loop leaves the entries of the other names. -/
theorem Removing.run {fuel : Nat} {todo : List Str}
    (h : Removing name n rest s kept middle todo done texts) (gap : middle ≠ [])
    (enough : todo.length < fuel)
    : ∃ s' left stale,
        unsetenv.remove name n.length fuel s (kept.length + middle.length - 1) kept.length
          = some (s', (kept ++ left).length + stale.length, (kept ++ left).length)
        ∧ stale ≠ [] ∧ (kept ++ left).length + stale.length = kept.length + middle.length + todo.length
        ∧ Removing name n rest s' (kept ++ left) stale [] (done ++ others texts n) [] := by
  induction fuel generalizing s todo kept done middle texts with
  | zero => omega
  | succ fuel ih =>
      have positive : 0 < middle.length := List.length_pos_iff.mpr gap
      have next : kept.length + middle.length - 1 + 1 = kept.length + middle.length := by omega
      have slot : s.slot (kept.length + middle.length) = (todo.map some ++ none :: rest)[0]? := by
        rw [slot_eq h.slots, List.getElem?_append_right (by simp),
          List.getElem?_append_right (by simp)]
        simp
      have length := h.holds.length_eq
      have lengths := h.lengths
      rw [unsetenv.remove, next, slot]
      cases todo with
      | nil =>
          obtain rfl : texts = [] := by
            simp only [List.append_nil, List.length_append] at length
            exact List.length_eq_zero_iff.mp (by omega)
          exact ⟨s, [], middle, by simp, gap, by simp, by simpa [others] using h⟩
      | cons e later =>
          cases texts with
          | nil =>
              simp only [List.length_append, List.length_cons, List.length_nil] at length
              omega
          | cons text texts =>
              obtain ⟨same, -, -⟩ := h.holds.split h.lengths
              simp only [List.map_cons, List.cons_append, List.getElem?_cons_zero,
                Option.bind_eq_bind, Option.bind_some, same, h.reads,
                isVariable_eq (Nat.le_refl n.length), List.take_length]
              simp only [List.length_cons] at enough
              cases sets : Sets n text with
              | true =>
                  obtain ⟨s', left, stale, run, gap', size, ended⟩ :=
                    ih (h.free sets) (by simp) (by omega)
                  refine ⟨s', left, stale, ?_, gap', ?_, ?_⟩
                  · simpa [Nat.add_assoc] using run
                  · simp only [List.length_append, List.length_cons, List.length_nil] at size ⊢
                    omega
                  · simpa [others, sets] using ended
              | false =>
                  obtain ⟨hole, middle, rfl⟩ : ∃ hole tail, middle = hole :: tail :=
                    List.exists_cons_of_ne_nil gap
                  obtain ⟨s₁, moved, h₁⟩ := h.move
                  obtain ⟨s', left, stale, run, gap', size, ended⟩ := ih h₁ (by simp) (by omega)
                  refine ⟨s', e :: left, stale, ?_, gap', ?_, ?_⟩
                  · simp only [Bool.false_eq_true, if_false, moved, Option.bind_some]
                    simpa [Nat.add_assoc, Nat.add_comm, Nat.add_left_comm] using run
                  · simp only [List.length_append, List.length_cons, List.length_nil] at size ⊢
                    omega
                  · simpa [others, sets] using ended

/-- The clearing loop writes `NULL` over what is stale. -/
theorem clear_spec {fuel : Nat} {first last : List (Option Str)} (arrays : Arrays s) (stale : middle ≠ [])
    (slots : s.slots = some (first ++ (middle ++ last))) (enough : middle.length ≤ fuel)
    : ∃ vectors,
        unsetenv.clear (first.length + middle.length) fuel s first.length
          = some { s with vectors := vectors }
        ∧ State.slots { s with vectors := vectors }
          = some (first ++ (List.replicate middle.length none ++ last))
        ∧ Arrays { s with vectors := vectors } := by
  induction middle generalizing s first fuel with
  | nil => exact absurd rfl stale
  | cons hole middle ih =>
      cases fuel with
      | zero => simp at enough
      | succ fuel =>
          have inside : first.length < (first ++ ((hole :: middle) ++ last)).length := by simp
          obtain ⟨vectors, run, shown, sizes⟩ := setSlot_eq slots inside none
          have cleared : State.slots { s with vectors := vectors }
              = some ((first ++ [none]) ++ (middle ++ last)) := by
            rw [shown]
            simp
          rw [unsetenv.clear, run, Option.bind_eq_bind, Option.bind_some]
          by_cases empty : middle = []
          · subst empty
            refine ⟨vectors, ?_, by simpa using cleared, arrays.sizes sizes⟩
            rw [if_neg (by simp)]
            rfl
          · have positive : 0 < middle.length := List.length_pos_iff.mpr empty
            obtain ⟨vectors', run', shown', arrays'⟩ :=
              ih (arrays.sizes sizes) empty cleared (by simpa using enough)
            refine ⟨vectors', ?_, ?_, arrays'⟩
            · rw [if_pos (by simp; omega)]
              simpa [Nat.add_assoc, Nat.add_comm, Nat.add_left_comm] using run'
            · rw [shown']
              simp [List.replicate_succ]

theorem unsetenv_spec (ok : Ok s es texts) (reads : s.cstr name = some n) (valid : ValidName n)
    (clear : s.Clear es n name.block)
    : ∃ s' es', unsetenv s (some name) = some (s', none) ∧ (s.environ ≠ none → s'.environ ≠ none)
      ∧ Ok s' es' (others texts n) := by
  have length : envvarnamelen n false = n.length := envvarnamelen_valid valid
  have nonempty : n.length ≠ 0 := by simpa using valid.nonempty
  have found := find_eq ok (Nat.le_refl n.length)
  rw [List.take_length] at found
  rcases split_position texts n with ⟨front, back, old, rfl, at_front, absent⟩ | ⟨at_end, absent⟩
  · obtain ⟨before, after, e, rfl, lengths, same, around⟩ := ok.around_found rfl
    obtain ⟨rest, slots⟩ := around.slots
    have start : Removing name n rest s before [] (e :: after) front (variableText n old :: back) :=
      ⟨by simpa using slots, ok.holds, lengths, ok.buffers, ok.arrays, reads,
        fun other member => clear other (List.mem_append_right _ member)⟩
    have first := start.free (sets_variableText n old)
    have fuel : (before.map some ++ some e :: (after.map some ++ none :: rest)).length
        = before.length + after.length + rest.length + 2 := by
      simp
      omega
    obtain ⟨s₁, left, stale, removed, gap, size, ended⟩ := first.run (by simp)
      (show after.length < before.length + after.length + rest.length + 2 by omega)
    obtain ⟨vectors, cleared, shown, arrays⟩ := clear_spec ended.arrays gap ended.slots
      (show stale.length ≤ before.length + after.length + rest.length + 2 by
        simp only [List.length_append, List.length_cons, List.length_nil] at size
        omega)
    refine ⟨{ s₁ with vectors := vectors }, before ++ left, ?_, fun _ => environ_of_slots shown, ?_, ?_,
      ⟨ended.buffers.distinct, ended.buffers.nodes⟩, arrays⟩
    · have slot : getenvslot s n n.length false none = some (s, some before.length) := by
        simp [getenvslot, found, at_front, lengths]
      rw [List.nil_append, List.length_singleton, Nat.add_sub_cancel] at removed
      simp only [List.length_map] at cleared
      simp only [unsetenv, namelen_eq reads, length, nonempty, reads, slot, slots, around.slot, fuel,
        Option.bind_eq_bind, Option.bind_some, if_false, removed, cleared]
      rfl
    · obtain ⟨hole, stale, rfl⟩ : ∃ hole tail, stale = hole :: tail := List.exists_cons_of_ne_nil gap
      exact Or.inr ⟨_, by rw [shown]; rfl⟩
    · have kept : others (front ++ variableText n old :: back) n = front ++ others back n := by
        have same_front : front.filter (fun text => !Sets n text) = front := by
          rw [List.filter_eq_self]
          simpa using absent
        simp [others, same_front, sets_variableText]
      rw [kept]
      have holds := ended.holds
      rw [List.append_nil, List.append_nil] at holds
      exact holds.mono (fun _ _ => rfl) fun _ _ owned => owned
  · have unchanged : others texts n = texts := by
      rw [others, List.filter_eq_self]
      simpa using absent
    refine ⟨s, es, ?_, id, unchanged.symm ▸ ok⟩
    have missing : getenvslot.find s n n.length = some (texts.length, false) := by
      rw [found, at_end, decide_eq_false (Nat.lt_irrefl _)]
    simp [unsetenv, namelen_eq reads, length, nonempty, reads, getenvslot, missing]

-----------------------------------------------------------------------------------------
-- getenv
-----------------------------------------------------------------------------------------

/-- What a caller of `__findenvvar` reads. -/
def State.lookup (s : State) (n : List UInt8) : Option (Option (List UInt8)) := do
  match ← findenvvar s n n.length with
  | none => return none
  | some p => (s.cstr p).map some

theorem cstr_value (same : s.cstr e = some (variableText n v))
    : s.cstr (e.add (n.length + 1)) = some v := by
  obtain ⟨plain, before, after, block, offset⟩ := cstr_eq_some.mp same
  simp only [variableText, List.mem_append, List.mem_cons, not_or] at plain
  refine cstr_eq_some.mpr ⟨plain.2.2, before ++ n ++ [equalSign], after, ?_, ?_⟩
  · rw [Str.add, block]
    simp [variableText]
  · simp [Str.add, ← offset]

/-- `__findenvvar` finds the value of a name. -/
theorem findenvvar_spec (ok : Ok s es texts) (n : List UInt8)
    : (findenvvar s n n.length = some none ∧ valueOf texts n = none)
      ∨ ∃ p v, findenvvar s n n.length = some (some p) ∧ s.cstr p = some v
        ∧ valueOf texts n = some v := by
  have found := find_eq ok (Nat.le_refl n.length)
  rw [List.take_length] at found
  rcases split_position texts n with ⟨front, back, v, rfl, at_front, absent⟩ | ⟨at_end, absent⟩
  · obtain ⟨before, after, e, rfl, lengths, same, around⟩ := ok.around_found rfl
    refine Or.inr ⟨e.add (n.length + 1), v, ?_, cstr_value same, valueOf_append_cons absent⟩
    have slot : getenvslot s n n.length false none = some (s, some before.length) := by
      simp [getenvslot, found, at_front, lengths]
    simp [findenvvar, slot, around.slot]
  · refine Or.inl ⟨?_, valueOf_eq_none absent⟩
    have missing : getenvslot.find s n n.length = some (texts.length, false) := by
      rw [found, at_end, decide_eq_false (Nat.lt_irrefl _)]
    simp [findenvvar, getenvslot, missing]

theorem lookup_eq (ok : Ok s es texts) (n : List UInt8) : s.lookup n = some (valueOf texts n) := by
  rcases findenvvar_spec ok n with ⟨run, value⟩ | ⟨p, v, run, reads, value⟩
  · simp [State.lookup, run, value]
  · simp [State.lookup, run, reads, value]

theorem getenv_spec (ok : Ok s es texts) (reads : s.cstr name = some n) (valid : ValidName n)
    : ∃ result, getenv s (some name) = some result
      ∧ result.bind s.cstr = valueOf texts n ∧ result.isSome = (valueOf texts n).isSome := by
  have nonempty : n.length ≠ 0 := by simpa using valid.nonempty
  have entry : getenv s (some name) = findenvvar s n n.length := by
    simp [getenv, namelen_eq reads, envvarnamelen_valid valid, nonempty, reads]
  rw [entry]
  rcases findenvvar_spec ok n with ⟨run, value⟩ | ⟨p, v, run, reads, value⟩
  · exact ⟨none, run, by simp [value], by simp [value]⟩
  · exact ⟨some p, run, by simp [value, reads], by simp [value]⟩

end BSDLibC.Env
