import BSDLibC.Env.Map

/-! The environment when the application replaces `environ`. -/

namespace BSDLibC.Env

variable {s s' : State} {es : List Str} {texts : List (List UInt8)}

/-- A step of the application that leaves `environ` at `NULL` or at a terminated array of strings.
The buffers of libc are read-only and occur once, from their start. The array of libc may get
other entries; `environ` does not point into the middle of it.
-/
structure Replaces (s s' : State) : Prop where
  nodes : ∀ node ∈ s.envTree, s'.chars node.block = s.chars node.block
  allocated : ∀ a, s.allocatedEnviron = some a
    → (s'.vectors a.block).map List.length = (s.vectors a.block).map List.length
  array : s'.environ = none ∨ ∃ (es : List Str) (rest : List (Option Str)),
    s'.slots = some (es.map some ++ none :: rest)
    ∧ (∀ e ∈ es, (∃ text, s'.cstr e = some text) ∧ (s.Owns e.block → e.offset = 0))
    ∧ es.Pairwise (fun a b => s.Owns a.block → a.block ≠ b.block)
  inside : ∀ v a, s'.environ = some v → s.allocatedEnviron = some a → v.block = a.block → v = a

/-- The condition under which the code copes: no variable is added while `environ` is `NULL` and
libc still has an array.
-/
def Tolerable (s : State) (action : Action) : Prop :=
  action.Legal Replaces s ∧ (action.adds → s.environ = none → s.allocatedEnviron = none)

/-- A value that was set is what `getenv` returns. -/
def ReadsBack (s s' : State) (action : Action) (result : Result) : Prop :=
  ∀ name value n v vector buffer,
    action = .setenv (some name) (some value) true vector buffer → result = .code none
    → s.cstr name = some n → s.cstr value = some v
    → ∀ p, s'.cstr p = some n → ∃ q, getenv s' (some p) = some (some q) ∧ s'.cstr q = some v

/-- A run in which no action faults and every value that was set is read back. -/
inductive SafeRun : State → List Action → List Result → State → Prop
  | nil {s : State} : SafeRun s [] [] s
  | cons {s s₁ s' : State} {action : Action} {actions : List Action} {result : Result}
      {results : List Result} (run : action.apply s = some (s₁, result))
      (readsBack : ReadsBack s s₁ action result) (rest : SafeRun s₁ actions results s')
      : SafeRun s (action :: actions) (result :: results) s'

theorem Ok.replaced {chars : Nat → Option (List UInt8)} {vectors : Nat → Option (List (Option Str))}
    {environ : Option Vec} (ok : Ok s es texts)
    (replaces : Replaces s { s with chars := chars, vectors := vectors, environ := environ })
    : ∃ es' texts', Ok { s with chars := chars, vectors := vectors, environ := environ } es' texts' := by
  have buffers : Buffers { s with chars := chars, vectors := vectors, environ := environ } := by
    refine ⟨ok.buffers.distinct, ?_⟩
    intro node member
    rw [replaces.nodes node member]
    exact ok.buffers.nodes node member
  have arrays : Arrays { s with chars := chars, vectors := vectors, environ := environ } := by
    refine ⟨?_, replaces.inside⟩
    rcases ok.arrays.size with none | ⟨block, allocated, size⟩
    · exact Or.inl none
    · exact Or.inr ⟨block, allocated, (replaces.allocated _ allocated).trans size⟩
  rcases replaces.array with null | ⟨es', rest, slots, strings, apart⟩
  · exact ⟨[], [], Or.inl ⟨null, rfl⟩, ⟨rfl, by simp, .nil⟩, buffers, arrays⟩
  · obtain ⟨texts', reads⟩ := exists_texts fun e member => (strings e member).1
    exact ⟨es', texts', Or.inr ⟨rest, slots⟩,
      ⟨reads, fun e member => (strings e member).2, apart⟩, buffers, arrays⟩

theorem Changes.readsBack {texts' : List (List UInt8)} {es' : List Str} {action : Action}
    {result : Result} (h : Changes s texts action result texts') (ok' : Ok s' es' texts')
    : ReadsBack s s' action result := by
  intro name value n v vector buffer isSetenv success readsN readsV p readsP
  subst isSetenv success
  cases h with
  | setenv reads reads' valid =>
      rw [reads, Option.some.injEq] at readsN
      rw [reads', Option.some.injEq] at readsV
      subst readsN readsV
      rw [afterSetenv, if_neg (by simp)] at ok'
      obtain ⟨result, run, found, present⟩ := getenv_spec ok' readsP valid
      rw [valueOf_assign] at found present
      obtain ⟨q, rfl⟩ := Option.isSome_iff_exists.mp present
      exact ⟨q, run, found⟩

theorem Ok.safeStep (ok : Ok s es texts) {action : Action} (legal : Tolerable s action)
    : ∃ s' result es' texts', action.apply s = some (s', result) ∧ ReadsBack s s' action result
      ∧ Ok s' es' texts' := by
  by_cases isCall : ∀ chars vectors environ, action ≠ .application chars vectors environ
  · obtain ⟨s', result, es', texts', run, ok', -, changes⟩ := ok.call legal.1 isCall legal.2
    exact ⟨s', result, es', texts', run, changes.readsBack ok', ok'⟩
  · push Not at isCall
    obtain ⟨chars, vectors, environ, rfl⟩ := isCall
    obtain ⟨es', texts', ok'⟩ := ok.replaced legal.1
    exact ⟨_, .nothing, es', texts', rfl, (by rintro _ _ _ _ _ _ ⟨⟩), ok'⟩

theorem Ok.safeRun (ok : Ok s es texts) {actions : List Action} (legal : LegalRun Tolerable s actions)
    : ∃ results s', SafeRun s actions results s' := by
  induction actions generalizing s es texts with
  | nil => exact ⟨[], s, .nil⟩
  | cons action actions ih =>
      obtain ⟨s₁, result, es₁, texts₁, run, readsBack, ok₁⟩ := ok.safeStep legal.1
      obtain ⟨results, s', rest⟩ := ih ok₁ (legal.2 s₁ result run)
      exact ⟨result :: results, s', .cons run readsBack rest⟩

/-- The application sets `environ` to `NULL`. -/
def clearEnviron (s : State) : Action := .application s.chars s.vectors none

/-- `setenv("B", "C", 1)` -/
def setB : Action := .setenv (some ⟨3, 0⟩) (some ⟨2, 0⟩) true (some 2) (some (11, fun _ => 0))

end BSDLibC.Env
