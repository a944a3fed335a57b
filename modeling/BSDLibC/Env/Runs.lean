import BSDLibC.Env.Updates

/-! Runs of calls and of steps of the application between them. The environment is a finite map
from names to values throughout.
-/

namespace BSDLibC.Env

/-- The entries before the terminator. -/
def State.entries (s : State) : List Str :=
  ((s.slots.getD []).takeWhile Option.isSome).filterMap id

/-- The strings of the entries. -/
def State.strings (s : State) : List (List UInt8) := s.entries.filterMap s.cstr

/-- A call with what the allocator has for it, or a step of the application, which changes
memory and `environ`.
-/
inductive Action
  | setenv (name value : Option Str) (rewrite : Bool) (vector : Option Nat) (buffer : Supply)
  | putenv (str : Option Str) (vector : Option Nat)
  | unsetenv (name : Option Str)
  | getenv (name : Option Str)
  | application (chars : Nat → Option (List UInt8)) (vectors : Nat → Option (List (Option Str)))
      (environ : Option Vec)

inductive Result
  | code (errno : Option Errno)
  | pointer (value : Option Str)
  | nothing
deriving DecidableEq, Repr

def Action.apply (s : State) : Action → Option (State × Result)
  | .setenv name value rewrite vector buffer =>
      (Env.setenv s name value rewrite vector buffer).map (fun (s, errno) => (s, .code errno))
  | .putenv str vector => (Env.putenv s str vector).map (fun (s, errno) => (s, .code errno))
  | .unsetenv name => (Env.unsetenv s name).map (fun (s, errno) => (s, .code errno))
  | .getenv name => (Env.getenv s name).map (fun value => (s, .pointer value))
  | .application chars vectors environ =>
      some ({ s with chars := chars, vectors := vectors, environ := environ }, .nothing)

/-- What the callers promise. Arguments are strings. The one of `putenv` is not in a buffer of
libc, a name is not in the buffer of the variable that it names, and neither is a new value,
unless it is the end of the old one. `world` limits the application.
-/
def Action.Legal (world : State → State → Prop) (s : State) : Action → Prop
  | .setenv name value _ _ _ =>
      (∀ p, name = some p → ∃ n, Passable s s.entries p n ∧ s.Clear s.entries n p.block
        ∧ ∀ q, value = some q → s.ClearValue s.entries n q)
      ∧ ∀ q, value = some q → ∃ v, Passable s s.entries q v
  | .putenv str _ => ∀ p, str = some p → (∃ text, s.cstr p = some text) ∧ ¬ s.Owns p.block
  | .unsetenv name => ∀ p, name = some p → ∃ n, s.cstr p = some n ∧ s.Clear s.entries n p.block
  | .getenv name => ∀ p, name = some p → ∃ n, s.cstr p = some n
  | .application chars vectors environ =>
      world s { s with chars := chars, vectors := vectors, environ := environ }

variable {s s' : State} {es : List Str} {texts : List (List UInt8)}

theorem State.Lists.entries (h : s.Lists es) : s.entries = es := by
  rcases h with ⟨null, rfl⟩ | ⟨rest, slots⟩
  · simp [State.entries, State.slots, null]
  · rw [State.entries, slots, Option.getD_some, List.takeWhile_append_of_pos (by simp)]
    simp

theorem Ok.strings (ok : Ok s es texts) : s.strings = texts := by
  rw [State.strings, ok.lists.entries]
  have reads := ok.holds.reads
  calc es.filterMap s.cstr = (es.map s.cstr).filterMap id := by rw [List.filterMap_map]; rfl
    _ = texts := by rw [reads]; simp

-----------------------------------------------------------------------------------------
-- One step
-----------------------------------------------------------------------------------------

/-- What a call that returns without an error does to the strings. -/
inductive Changes (s : State) (texts : List (List UInt8)) : Action → Result → List (List UInt8) → Prop
  | failed {action : Action} {errno : Errno} : Changes s texts action (.code (some errno)) texts
  | setenv {name value : Str} {n v : List UInt8} {rewrite : Bool} {vector : Option Nat}
      {buffer : Supply} (reads : s.cstr name = some n) (reads' : s.cstr value = some v)
      (valid : ValidName n)
      : Changes s texts (.setenv (some name) (some value) rewrite vector buffer) (.code none)
          (afterSetenv texts n v rewrite)
  | putenv {str : Str} {n v : List UInt8} {vector : Option Nat}
      (reads : s.cstr str = some (variableText n v)) (valid : ValidName n)
      : Changes s texts (.putenv (some str) vector) (.code none) (assign texts n v)
  | unsetenv {name : Str} {n : List UInt8} (reads : s.cstr name = some n) (valid : ValidName n)
      : Changes s texts (.unsetenv (some name)) (.code none) (others texts n)
  | getenv {name : Str} {n : List UInt8} {value : Option Str} (reads : s.cstr name = some n)
      (valid : ValidName n) (found : value.bind s.cstr = valueOf texts n)
      (present : value.isSome = (valueOf texts n).isSome)
      : Changes s texts (.getenv (some name)) (.pointer value) texts
  | noName {name : Option Str} (invalid : ∀ p n, name = some p → s.cstr p = some n → ¬ ValidName n)
      : Changes s texts (.getenv name) (.pointer none) texts

/-- A call that is made in a state with these strings goes well. -/
def CallOk (s : State) (texts : List (List UInt8)) (action : Action) : Prop :=
  ∃ s' result es' texts', action.apply s = some (s', result) ∧ Ok s' es' texts'
    ∧ (s.environ ≠ none → s'.environ ≠ none) ∧ Changes s texts action result texts'

/-- A call that is refused with `EINVAL` does nothing. -/
theorem Ok.refused (ok : Ok s es texts) {action : Action}
    (run : action.apply s = some (s, .code (some .EINVAL)))
    : CallOk s texts action :=
  ⟨s, _, es, texts, run, ok, id, .failed⟩

theorem Ok.callSetenv (ok : Ok s es texts) {world : State → State → Prop} {name value : Option Str}
    {rewrite : Bool} {vector : Option Nat} {buffer : Supply}
    (legal : (Action.setenv name value rewrite vector buffer).Legal world s)
    (stray : s.environ = none → s.allocatedEnviron = none)
    : CallOk s texts (.setenv name value rewrite vector buffer) := by
  obtain ⟨names, values⟩ := legal
  rw [ok.lists.entries] at names values
  cases name with
  | none => exact ok.refused (by simp [Action.apply, setenv, State.namelen])
  | some p =>
      obtain ⟨n, name_ok, clear, clear'⟩ := names p rfl
      by_cases valid : ValidName n
      · cases value with
        | none => exact ok.refused (by simp [Action.apply, setenv, namelen_eq name_ok.reads])
        | some q =>
            obtain ⟨v, value_ok⟩ := values q rfl
            obtain ⟨s', errno, run, shown, outcome⟩ := setenv_spec ok name_ok value_ok valid clear
              (clear' q rfl) stray rewrite vector buffer
            have applied : (Action.setenv (some p) (some q) rewrite vector buffer).apply s
                = some (s', .code errno) := by
              rw [Action.apply, run, Option.map_some]
            rcases outcome with ⟨rfl, ok'⟩ | ⟨rfl, es', ok'⟩
            · exact ⟨s', _, es, texts, applied, ok', shown, .failed⟩
            · exact ⟨s', _, es', _, applied, ok', shown, .setenv name_ok.reads value_ok.reads valid⟩
      · refine ok.refused ?_
        simp [Action.apply, setenv, namelen_eq name_ok.reads, envvarnamelen_invalid valid]

theorem Ok.callPutenv (ok : Ok s es texts) {world : State → State → Prop} {str : Option Str}
    {vector : Option Nat} (legal : (Action.putenv str vector).Legal world s)
    (stray : s.environ = none → s.allocatedEnviron = none)
    : CallOk s texts (.putenv str vector) := by
  cases str with
  | none => exact ok.refused (by simp [Action.apply, putenv, State.namelen])
  | some p =>
      obtain ⟨⟨text, reads⟩, foreign⟩ := legal p rfl
      rcases envvarnamelen_withequal text with invalid | ⟨n, v, split, valid, length⟩
      · exact ok.refused (by simp [Action.apply, putenv, namelen_eq reads, invalid])
      · obtain ⟨s', errno, run, shown, outcome⟩ :=
          putenv_spec ok reads foreign split valid length stray vector
        have applied : (Action.putenv (some p) vector).apply s = some (s', .code errno) := by
          rw [Action.apply, run, Option.map_some]
        rcases outcome with ⟨rfl, ok'⟩ | ⟨rfl, es', ok'⟩
        · exact ⟨s', _, es, texts, applied, ok', shown, .failed⟩
        · exact ⟨s', _, es', _, applied, ok', shown, .putenv (split ▸ reads) valid⟩

theorem Ok.callUnsetenv (ok : Ok s es texts) {world : State → State → Prop} {name : Option Str}
    (legal : (Action.unsetenv name).Legal world s)
    : CallOk s texts (.unsetenv name) := by
  cases name with
  | none => exact ok.refused (by simp [Action.apply, unsetenv, State.namelen])
  | some p =>
      obtain ⟨n, reads, clear⟩ := legal p rfl
      rw [ok.lists.entries] at clear
      by_cases valid : ValidName n
      · obtain ⟨s', es', run, shown, ok'⟩ := unsetenv_spec ok reads valid clear
        exact ⟨s', _, es', _, by rw [Action.apply, run, Option.map_some], ok', shown,
          .unsetenv reads valid⟩
      · refine ok.refused ?_
        simp [Action.apply, unsetenv, namelen_eq reads, envvarnamelen_invalid valid]

theorem Ok.callGetenv (ok : Ok s es texts) {world : State → State → Prop} {name : Option Str}
    (legal : (Action.getenv name).Legal world s)
    : CallOk s texts (.getenv name) := by
  cases name with
  | none =>
      refine ⟨s, .pointer none, es, texts, ?_, ok, id, .noName (by simp)⟩
      simp [Action.apply, getenv, State.namelen]
  | some p =>
      obtain ⟨n, reads⟩ := legal p rfl
      by_cases valid : ValidName n
      · obtain ⟨result, run, found, present⟩ := getenv_spec ok reads valid
        exact ⟨s, .pointer result, es, texts, by rw [Action.apply, run, Option.map_some], ok, id,
          .getenv reads valid found present⟩
      · refine ⟨s, .pointer none, es, texts, ?_, ok, id, .noName ?_⟩
        · simp [Action.apply, getenv, namelen_eq reads, envvarnamelen_invalid valid]
        · rintro _ n' ⟨⟩ reads'
          rw [reads, Option.some.injEq] at reads'
          exact reads' ▸ valid

/-- The calls that may need a new slot. -/
def Action.adds : Action → Bool
  | .setenv .. | .putenv .. => true
  | _ => false

/-- A legal call has a result and keeps the invariant. -/
theorem Ok.call (ok : Ok s es texts) {world : State → State → Prop} {action : Action}
    (legal : action.Legal world s)
    (isCall : ∀ chars vectors environ, action ≠ .application chars vectors environ)
    (stray : action.adds → s.environ = none → s.allocatedEnviron = none)
    : CallOk s texts action := by
  cases action with
  | setenv name value rewrite vector buffer => exact ok.callSetenv legal (stray rfl)
  | putenv str vector => exact ok.callPutenv legal (stray rfl)
  | unsetenv name => exact ok.callUnsetenv legal
  | getenv name => exact ok.callGetenv legal
  | application chars vectors environ => exact absurd rfl (isCall chars vectors environ)

-----------------------------------------------------------------------------------------
-- Runs
-----------------------------------------------------------------------------------------

/-- A run, with the results of its actions. -/
def run : State → List Action → Option (State × List Result)
  | s, [] => some (s, [])
  | s, action :: rest => do
      let (s, result) ← action.apply s
      let (s, results) ← run s rest
      return (s, result :: results)

/-- Each action is legal in the state that the earlier ones leave. -/
def LegalRun (legal : State → Action → Prop) : State → List Action → Prop
  | _, [] => True
  | s, action :: rest =>
      legal s action ∧ ∀ s' result, action.apply s = some (s', result) → LegalRun legal s' rest

/-- The state in which a program starts: `environ` is a terminated array of strings, and libc has
allocated nothing.
-/
structure Initial (s : State) : Prop where
  array : ∃ (es : List Str) (rest : List (Option Str)), s.slots = some (es.map some ++ none :: rest)
    ∧ ∀ e ∈ es, ∃ text, s.cstr e = some text
  allocatedEnviron : s.allocatedEnviron = none
  allocatedEnvironSize : s.allocatedEnvironSize = 0
  envTree : s.envTree = []

/-- Entries that are strings have texts. -/
theorem exists_texts (strings : ∀ e ∈ es, ∃ text, s.cstr e = some text)
    : ∃ texts : List (List UInt8), es.map s.cstr = texts.map some := by
  induction es with
  | nil => exact ⟨[], rfl⟩
  | cons e later ih =>
      obtain ⟨text, reads⟩ := strings e (by simp)
      obtain ⟨texts, same⟩ := ih fun other member => strings other (by simp [member])
      exact ⟨text :: texts, by rw [List.map_cons, reads, same, List.map_cons]⟩

theorem Initial.ok (h : Initial s) : ∃ es texts, Ok s es texts ∧ s.environ ≠ none := by
  obtain ⟨es, rest, slots, strings⟩ := h.array
  obtain ⟨texts, reads⟩ := exists_texts strings
  have nothing : ∀ block, ¬ s.Owns block := by
    rintro block ⟨node, member, -⟩
    simp [h.envTree] at member
  refine ⟨es, texts, ⟨Or.inr ⟨rest, slots⟩, ⟨reads, ?_, ?_⟩, ⟨?_, ?_⟩, ⟨Or.inl ⟨h.allocatedEnviron,
    h.allocatedEnvironSize⟩, ?_⟩⟩, environ_of_slots slots⟩
  · exact fun e _ owned => absurd owned (nothing _)
  · exact List.pairwise_of_forall fun _ _ owned => absurd owned (nothing _)
  · simp [h.envTree]
  · simp [h.envTree]
  · intro v a _ allocated
    rw [h.allocatedEnviron] at allocated
    cases allocated

end BSDLibC.Env
