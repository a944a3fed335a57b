import BSDLibC.Env.Runs

/-! The environment as a finite map, as long as the application leaves `environ` alone. -/

namespace BSDLibC.Env

variable {s s' : State} {es : List Str} {texts texts' : List (List UInt8)} {n : List UInt8}

/-- Nothing that can be looked up has changed. -/
structure Unchanged (s s' : State) : Prop where
  lookup : ∀ m, ValidName m → s'.lookup m = s.lookup m
  strings : s'.strings = s.strings

/-- One name has another value, and everything else is as before, in the same order. -/
structure Rebinds (s s' : State) (n : List UInt8) (value : Option (List UInt8)) : Prop where
  self : s'.lookup n = some value
  other : ∀ m, ValidName m → m ≠ n → s'.lookup m = s.lookup m
  order : others s'.strings n = others s.strings n

/-- What an action may do to the map. -/
inductive MapStep (s s' : State) : Action → Result → Prop
  | failed {action : Action} {errno : Errno} (same : Unchanged s s')
      : MapStep s s' action (.code (some errno))
  | set {name value : Str} {n v : List UInt8} {rewrite : Bool} {vector : Option Nat}
      {buffer : Supply} (reads : s.cstr name = some n) (reads' : s.cstr value = some v)
      (valid : ValidName n) (replaces : rewrite = true ∨ s.lookup n = some none)
      (rebinds : Rebinds s s' n (some v))
      : MapStep s s' (.setenv (some name) (some value) rewrite vector buffer) (.code none)
  | keep {name value : Str} {n old : List UInt8} {vector : Option Nat} {buffer : Supply}
      (reads : s.cstr name = some n) (valid : ValidName n) (present : s.lookup n = some (some old))
      (same : Unchanged s s')
      : MapStep s s' (.setenv (some name) (some value) false vector buffer) (.code none)
  | put {str : Str} {n v : List UInt8} {vector : Option Nat}
      (reads : s.cstr str = some (variableText n v)) (valid : ValidName n)
      (rebinds : Rebinds s s' n (some v))
      : MapStep s s' (.putenv (some str) vector) (.code none)
  | unset {name : Str} {n : List UInt8} (reads : s.cstr name = some n) (valid : ValidName n)
      (rebinds : Rebinds s s' n none) (gone : ∀ text ∈ s'.strings, ¬ Sets n text)
      : MapStep s s' (.unsetenv (some name)) (.code none)
  | get {name : Str} {n : List UInt8} {value : Option Str} (reads : s.cstr name = some n)
      (valid : ValidName n) (found : s.lookup n = some (value.bind s.cstr))
      (present : value.isSome = (value.bind s.cstr).isSome) (same : Unchanged s s')
      : MapStep s s' (.getenv (some name)) (.pointer value)
  | noName {name : Option Str} (invalid : ∀ p n, name = some p → s.cstr p = some n → ¬ ValidName n)
      (same : Unchanged s s')
      : MapStep s s' (.getenv name) (.pointer none)
  | application {chars : Nat → Option (List UInt8)} {vectors : Nat → Option (List (Option Str))}
      {environ : Option Vec} (same : Unchanged s s')
      : MapStep s s' (.application chars vectors environ) .nothing

/-- Behind every slot that `__getenvslot` returns the array goes on, and behind a new one it ends. -/
def SlotsInside (s : State) : Prop :=
  ∀ (name : List UInt8) (lName : Nat) (allocate : Bool) (supply : Option Nat) (s' : State) (slot : Nat),
    lName ≤ name.length → getenvslot s name lName allocate supply = some (s', some slot)
    → ∃ slots, s'.slots = some slots ∧ slot + 1 < slots.length
      ∧ (slots[slot]? = some none → slots[slot + 1]? = some none)

/-- A run in which every action acts on the map, from and to states with such slots. -/
inductive MapRun : State → List Action → List Result → State → Prop
  | nil {s : State} (slots : SlotsInside s) : MapRun s [] [] s
  | cons {s s₁ s' : State} {action : Action} {actions : List Action} {result : Result}
      {results : List Result} (slots : SlotsInside s) (run : action.apply s = some (s₁, result))
      (step : MapStep s s₁ action result) (rest : MapRun s₁ actions results s')
      : MapRun s (action :: actions) (result :: results) s'

-----------------------------------------------------------------------------------------
-- One step
-----------------------------------------------------------------------------------------

theorem unchanged_of_texts {es' : List Str} (ok : Ok s es texts) (ok' : Ok s' es' texts)
    : Unchanged s s' := by
  refine ⟨?_, by rw [ok.strings, ok'.strings]⟩
  intro m _
  rw [lookup_eq ok, lookup_eq ok']

theorem rebinds_assign {es' : List Str} {v : List UInt8} (ok : Ok s es texts)
    (ok' : Ok s' es' (assign texts n v)) (valid : ValidName n)
    : Rebinds s s' n (some v) := by
  refine ⟨?_, ?_, ?_⟩
  · rw [lookup_eq ok', valueOf_assign]
  · intro m valid' different
    rw [lookup_eq ok, lookup_eq ok', valueOf_assign_other valid valid' different]
  · rw [ok.strings, ok'.strings, others_assign]

theorem valueOf_isSome (inside : position texts n < texts.length) : ∃ old, valueOf texts n = some old := by
  rcases split_position texts n with ⟨front, back, old, rfl, -, absent⟩ | ⟨at_end, -⟩
  · exact ⟨old, valueOf_append_cons absent⟩
  · omega

theorem valueOf_isNone (outside : ¬ position texts n < texts.length) : valueOf texts n = none := by
  rcases split_position texts n with ⟨front, back, old, rfl, at_front, -⟩ | ⟨-, absent⟩
  · rw [at_front] at outside
    simp at outside
  · exact valueOf_eq_none absent

/-- The changes of the strings are changes of the map. -/
theorem Changes.mapStep {es' : List Str} {action : Action} {result : Result}
    (h : Changes s texts action result texts') (ok : Ok s es texts) (ok' : Ok s' es' texts')
    : MapStep s s' action result := by
  cases h with
  | failed => exact .failed (unchanged_of_texts ok ok')
  | setenv reads reads' valid =>
      rename_i name value n v rewrite vector buffer
      rw [afterSetenv] at ok'
      by_cases inside : position texts n < texts.length
      · cases rewrite with
        | false =>
            rw [if_pos ⟨rfl, inside⟩] at ok'
            obtain ⟨old, value⟩ := valueOf_isSome inside
            exact .keep reads valid (by rw [lookup_eq ok, value]) (unchanged_of_texts ok ok')
        | true =>
            rw [if_neg (by simp)] at ok'
            exact .set reads reads' valid (Or.inl rfl) (rebinds_assign ok ok' valid)
      · rw [if_neg (by simp [inside])] at ok'
        refine .set reads reads' valid (Or.inr ?_) (rebinds_assign ok ok' valid)
        rw [lookup_eq ok, valueOf_isNone inside]
  | putenv reads valid => exact .put reads valid (rebinds_assign ok ok' valid)
  | unsetenv reads valid =>
      rename_i name n
      refine .unset reads valid ⟨?_, ?_, ?_⟩ ?_
      · rw [lookup_eq ok', valueOf_others]
      · intro m valid' different
        rw [lookup_eq ok, lookup_eq ok', valueOf_others_other valid valid' different]
      · rw [ok.strings, ok'.strings, others_idem]
      · intro text member
        rw [ok'.strings] at member
        simpa using (List.mem_filter.mp member).2
  | getenv reads valid found present =>
      refine .get reads valid ?_ ?_ (unchanged_of_texts ok ok')
      · rw [lookup_eq ok, found]
      · rw [found, present]
  | noName invalid => exact .noName invalid (unchanged_of_texts ok ok')

theorem Ok.slotsInside (ok : Ok s es texts) (shown : s.environ ≠ none) : SlotsInside s := by
  intro name lName allocate supply s' slot short run
  obtain ⟨s₁, slot₁, run₁, ok₁, -, -, outcome⟩ :=
    getenvslot_spec ok short allocate supply fun _ null => absurd null shown
  obtain ⟨rfl, rfl⟩ := Prod.mk.inj (Option.some.inj (run.symm.trans run₁))
  rcases outcome with ⟨same, -, inside⟩ | ⟨none, -⟩ | ⟨same, ⟨rest, slots⟩, -⟩
  · obtain rfl := Option.some.inj same
    obtain ⟨slots, e, shows, taken, -, bound⟩ := ok₁.slot_position inside
    refine ⟨slots, shows, bound, ?_⟩
    rw [taken]
    simp
  · cases none
  · obtain rfl := Option.some.inj same
    refine ⟨_, slots, by simp, fun _ => ?_⟩
    rw [List.getElem?_append_right (by simp)]
    simp

-----------------------------------------------------------------------------------------
-- Runs
-----------------------------------------------------------------------------------------

/-- The application leaves `environ`, what the environment uses and what libc has allocated. -/
structure Quiet (s s' : State) : Prop where
  environ : s'.environ = s.environ
  array : ∀ v, s.environ = some v → s'.vectors v.block = s.vectors v.block
  entries : ∀ e ∈ s.entries, s'.chars e.block = s.chars e.block
  nodes : ∀ node ∈ s.envTree, s'.chars node.block = s.chars node.block
  allocated : ∀ a, s.allocatedEnviron = some a → s'.vectors a.block = s.vectors a.block

theorem Ok.quiet {chars : Nat → Option (List UInt8)} {vectors : Nat → Option (List (Option Str))}
    {environ : Option Vec} (ok : Ok s es texts)
    (quiet : Quiet s { s with chars := chars, vectors := vectors, environ := environ })
    : Ok { s with chars := chars, vectors := vectors, environ := environ } es texts := by
  have slots : State.slots { s with chars := chars, vectors := vectors, environ := environ } = s.slots := by
    rw [State.slots, State.slots, quiet.environ]
    cases shown : s.environ with
    | none => rfl
    | some v =>
        rw [Option.bind_eq_bind, Option.bind_some, quiet.array v shown]
        rfl
  refine ⟨?_, ?_, ⟨ok.buffers.distinct, ?_⟩, ⟨?_, ?_⟩⟩
  · rw [State.Lists, slots, quiet.environ]
    exact ok.lists
  · refine ok.holds.mono ?_ fun _ _ owned => owned
    rw [← ok.lists.entries]
    exact quiet.entries
  · intro node member
    rw [quiet.nodes node member]
    exact ok.buffers.nodes node member
  · rcases ok.arrays.size with none | ⟨block, allocated, size⟩
    · exact Or.inl none
    · refine Or.inr ⟨block, allocated, ?_⟩
      rw [quiet.allocated _ allocated]
      exact size
  · intro v a shown
    exact ok.arrays.inside v a (quiet.environ ▸ shown)

/-- A legal action of a quiet application acts on the map and keeps the invariant. -/
theorem Ok.mapStep (ok : Ok s es texts) (shown : s.environ ≠ none) {action : Action}
    (legal : action.Legal Quiet s)
    : ∃ s' result es' texts', action.apply s = some (s', result) ∧ MapStep s s' action result
      ∧ Ok s' es' texts' ∧ s'.environ ≠ none := by
  by_cases isCall : ∀ chars vectors environ, action ≠ .application chars vectors environ
  · obtain ⟨s', result, es', texts', run, ok', still, changes⟩ :=
      ok.call legal isCall fun _ null => absurd null shown
    exact ⟨s', result, es', texts', run, changes.mapStep ok ok', ok', still shown⟩
  · push Not at isCall
    obtain ⟨chars, vectors, environ, rfl⟩ := isCall
    have ok' := ok.quiet legal
    refine ⟨_, .nothing, es, texts, rfl, .application (unchanged_of_texts ok ok'), ok', ?_⟩
    intro null
    exact shown (legal.environ.symm.trans null)

theorem Ok.mapRun (ok : Ok s es texts) (shown : s.environ ≠ none) {actions : List Action}
    (legal : LegalRun (fun s action => action.Legal Quiet s) s actions)
    : ∃ results s', MapRun s actions results s' := by
  induction actions generalizing s es texts with
  | nil => exact ⟨[], s, .nil (ok.slotsInside shown)⟩
  | cons action actions ih =>
      obtain ⟨s₁, result, es₁, texts₁, run, step, ok₁, shown₁⟩ := ok.mapStep shown legal.1
      obtain ⟨results, s', rest⟩ := ih ok₁ shown₁ (legal.2 s₁ result run)
      exact ⟨result :: results, s', .cons (ok.slotsInside shown) run step rest⟩

/-- In every run of legal calls from a program start, the environment behaves as a finite map. -/
theorem run_maps (initial : Initial s) {actions : List Action}
    (legal : LegalRun (fun s action => action.Legal Quiet s) s actions)
    : ∃ results s', MapRun s actions results s' := by
  obtain ⟨es, texts, ok, shown⟩ := initial.ok
  exact ok.mapRun shown legal

/-- A program that starts without variables. It has the strings `A`, `B=1`, `C` and `B`. -/
def bare : State where
  chars block := match block with
    | 0 => some [0x41, 0]
    | 1 => some [0x42, 0x3d, 0x31, 0]
    | 2 => some [0x43, 0]
    | 3 => some [0x42, 0]
    | _ => none
  vectors block := if block = 0 then some [none] else none
  environ := some ⟨0, 0⟩
  allocatedEnviron := none
  allocatedEnvironSize := 0
  envTree := []
  marker := 0

theorem bare_initial : Initial bare := ⟨⟨[], [], rfl, by simp⟩, rfl, rfl, rfl⟩

/-- `setenv("A", "B=1", 1)` in an environment that grows. -/
def setA : Action := .setenv (some ⟨0, 0⟩) (some ⟨1, 0⟩) true (some 1) (some (10, fun _ => 0))

/-- Without buffers of libc, every argument that is a string will do. -/
theorem setA_legal {world : State → State → Prop} (empty : s.envTree = [])
    (strings : s.chars = bare.chars)
    : setA.Legal world s := by
  have nothing : ∀ block, ¬ s.Owns block := by
    rintro block ⟨node, member, -⟩
    simp [empty] at member
  have clear (n : List UInt8) (block : Nat) : s.Clear s.entries n block :=
    fun e _ owned => absurd owned (nothing _)
  refine ⟨?_, ?_⟩
  · rintro p ⟨⟩
    refine ⟨[0x41], ⟨?_, fun owned => absurd owned (nothing _)⟩, clear _ _, ?_⟩
    · rw [State.cstr, strings]
      rfl
    · intro q _
      exact Or.inr (clear _ _)
  · rintro q ⟨⟩
    refine ⟨[0x42, 0x3d, 0x31], ?_, fun owned => absurd owned (nothing _)⟩
    rw [State.cstr, strings]
    rfl

/-- Witness: a variable is set and removed again. -/
theorem run_maps_set_unset
    : ∃ results s', MapRun bare [setA, .unsetenv (some ⟨0, 0⟩)] results s' := by
  refine run_maps bare_initial ⟨setA_legal rfl rfl, ?_⟩
  intro s' result run
  obtain ⟨rfl, -⟩ := Prod.mk.inj (Option.some.inj run)
  refine ⟨?_, fun _ _ _ => trivial⟩
  rintro p ⟨⟩
  refine ⟨[0x41], rfl, ?_⟩
  intro e member _ _
  obtain rfl : e = ⟨10, 0⟩ := List.mem_singleton.mp member
  decide

/-- What `putenv` gets may be a part of a buffer of libc: with the string that `getenv` returned
for `A`, `B` has a value that is lost when `A` changes.
-/
theorem putenv_getenv_lost
    : (run bare [setA, .getenv (some ⟨0, 0⟩), .putenv (some ⟨10, 2⟩) none]).map
          (fun (s, results) => (results, s.lookup [0x42]))
        = some ([.code none, .pointer (some ⟨10, 2⟩), .code none], some (some [0x31]))
      ∧ (run bare [setA, .getenv (some ⟨0, 0⟩), .putenv (some ⟨10, 2⟩) none,
            .setenv (some ⟨0, 0⟩) (some ⟨2, 0⟩) true none none]).map
          (fun (s, results) => (results, s.lookup [0x42]))
        = some ([.code none, .pointer (some ⟨10, 2⟩), .code none, .code none], some none) := by
  decide +kernel

end BSDLibC.Env
