import BSDLibC.Setmode.Commands

/-! The merged commands do what the commands did. -/

namespace BSDLibC.Setmode

-----------------------------------------------------------------------------------------
-- What commands do
-----------------------------------------------------------------------------------------

/-- What commands that are not the last one do. -/
def effect (omode : Mode) (sets : List Bitcmd) (newmode : Mode) : Mode :=
  sets.foldl (fun newmode set => set.apply omode newmode) newmode

theorem effect_append (omode : Mode) (sets sets' : List Bitcmd) (newmode : Mode)
    : effect omode (sets ++ sets') newmode = effect omode sets' (effect omode sets newmode) :=
  List.foldl_append

/-- The loop of `getmode` ends at the first command that is the last. -/
theorem getmodeFrom_append (omode : Mode) {sets : List Bitcmd} {last : Bitcmd}
    (going : ∀ set ∈ sets, set.cmd ≠ .stop) (ends : last.cmd = .stop) (rest : List Bitcmd)
    (newmode : Mode)
    : getmodeFrom omode (sets ++ last :: rest) newmode = some (effect omode sets newmode) := by
  induction sets generalizing newmode with
  | nil =>
      rw [List.nil_append, getmodeFrom, if_pos ends]
      rfl
  | cons set sets ih =>
      rw [List.cons_append, getmodeFrom, if_neg (going set (by simp))]
      exact ih (fun other member => going other (by simp [member])) _

/-- What merged commands do before they are written. -/
def merged (omode : Mode) (pending : List (Cmd × Mode)) (newmode : Mode) : Mode :=
  pending.foldl (fun newmode p => Bitcmd.apply omode ⟨p.1, 0, p.2⟩ newmode) newmode

/-- The commands for the variables of the loop that merges. -/
def pendingOf (setbits clrbits xbits : Mode) : List (Cmd × Mode) :=
  [(.minus, clrbits), (.plus, setbits), (.x, xbits)]

section

variable (omode setbits clrbits xbits bits newmode : Mode)

theorem merged_pendingOf
    : merged omode (pendingOf setbits clrbits xbits) newmode
      = newmode &&& ~~~clrbits ||| setbits
        ||| if omode &&& (S_IFDIR ||| S_IX) ≠ 0 then xbits else 0 := by
  simp only [merged, pendingOf, List.foldl_cons, List.foldl_nil, Bitcmd.apply]
  split <;> simp

theorem merged_minus
    : merged omode (pendingOf (setbits &&& ~~~bits) (clrbits ||| bits) (xbits &&& ~~~bits)) newmode
      = merged omode (pendingOf setbits clrbits xbits) newmode &&& ~~~bits := by
  rw [merged_pendingOf, merged_pendingOf]
  split <;>
  · ext k
    simp only [BitVec.getElem_or, BitVec.getElem_and, BitVec.getElem_not]
    cases bits[k] <;> simp

theorem merged_plus
    : merged omode (pendingOf (setbits ||| bits) (clrbits &&& ~~~bits) (xbits &&& ~~~bits)) newmode
      = merged omode (pendingOf setbits clrbits xbits) newmode ||| bits := by
  rw [merged_pendingOf, merged_pendingOf]
  split <;>
  · ext k
    simp only [BitVec.getElem_or, BitVec.getElem_and, BitVec.getElem_not]
    cases bits[k] <;> simp

theorem merged_x
    : merged omode (pendingOf setbits clrbits (xbits ||| (bits &&& ~~~setbits))) newmode
      = if omode &&& (S_IFDIR ||| S_IX) ≠ 0 then
          merged omode (pendingOf setbits clrbits xbits) newmode ||| bits
        else merged omode (pendingOf setbits clrbits xbits) newmode := by
  rw [merged_pendingOf, merged_pendingOf]
  split
  · ext k
    simp only [BitVec.getElem_or, BitVec.getElem_and, BitVec.getElem_not]
    cases bits[k] <;> cases setbits[k] <;> simp
  · rfl

end

/-- A command without bits does nothing. -/
theorem apply_zero (omode : Mode) {cmd : Cmd} (merges : cmd.merges = true) (newmode : Mode)
    : Bitcmd.apply omode ⟨cmd, 0, 0⟩ newmode = newmode := by
  cases cmd with
  | plus => exact BitVec.or_zero
  | minus =>
      change newmode &&& ~~~0#32 = newmode
      rw [BitVec.not_zero, BitVec.and_allOnes]
  | x => simp [Bitcmd.apply]
  | stop | u | g | o => cases merges

theorem merged_zero (omode newmode : Mode) : merged omode (pendingOf 0 0 0) newmode = newmode := by
  simp only [merged, pendingOf, List.foldl_cons, List.foldl_nil]
  rw [apply_zero omode rfl, apply_zero omode rfl, apply_zero omode rfl]

-----------------------------------------------------------------------------------------
-- The invariant
-----------------------------------------------------------------------------------------

/-- The commands that are merged and not written yet. -/
def Phase.pending : Phase → List (Cmd × Mode)
  | .copying => []
  | .merging setbits clrbits xbits => pendingOf setbits clrbits xbits
  | .writing pending => pending
  | .returned => []

/-- The number of stores for them. -/
def Phase.stores (phase : Phase) : Nat := phase.pending.countP fun p => p.2 ≠ 0

theorem stores_merging (setbits clrbits xbits : Mode)
    : (Phase.merging setbits clrbits xbits).stores
      = (if clrbits ≠ 0 then 1 else 0) + (if setbits ≠ 0 then 1 else 0)
        + (if xbits ≠ 0 then 1 else 0) := by
  simp only [Phase.stores, Phase.pending, pendingOf, List.countP_cons, List.countP_nil,
    decide_eq_true_eq]
  omega

theorem stores_one (bits : Mode)
    : (if bits ≠ 0 then 1 else 0) ≤ 1 := by
  split
  · exact Nat.le_refl 1
  · exact Nat.zero_le 1

/-- Clearing bits leaves no more to be stored. -/
theorem stores_cleared (bits other : Mode)
    : (if bits &&& ~~~other ≠ 0 then 1 else 0) ≤ (if bits ≠ 0 then 1 else 0) := by
  by_cases zero : bits = 0
  · simp [zero]
  · rw [if_pos zero]
    exact stores_one _

/-- The commands that were read do what those that were written do, with those that are pending after
them, and the rest of the array is as it was.
-/
structure Inv (sets tail : List Bitcmd) (s : Compress) : Prop where
  active : s.phase ≠ .returned
  length : s.array.length = (sets ++ tail).length
  unread : s.array.drop s.nset = (sets ++ tail).drop s.nset
  inside : s.nset ≤ sets.length
  behind : s.set + s.phase.stores ≤ s.nset
  going : ∀ c ∈ s.array.take s.set, c.cmd ≠ .stop
  merges : ∀ p ∈ s.phase.pending, p.1.merges = true
  pause (pending : List (Cmd × Mode)) : s.phase = .writing pending
    → ∀ c, sets[s.nset]? = some c → c.cmd.merges = false
  same (omode newmode : Mode) : merged omode s.phase.pending (effect omode (s.array.take s.set) newmode)
    = effect omode (sets.take s.nset) newmode

/-- A bound for the steps up to the return: at most seven for each command. -/
def Compress.cost (sets : List Bitcmd) (s : Compress) : Nat :=
  match s.phase with
  | .copying =>
      if sets[s.nset]?.any fun c => c.cmd.merges then 7 * (sets.length + 1 - s.nset)
      else 7 * (sets.length + 1 - s.nset) - 6
  | .merging _ _ _ => 7 * (sets.length + 1 - s.nset) - 1
  | .writing pending => 7 * (sets.length + 1 - s.nset) - 5 + pending.length
  | .returned => 0

/-- What stands at the return. -/
structure Done (sets tail : List Bitcmd) (s : Compress) : Prop where
  returned : s.phase = .returned
  behind : s.set ≤ s.nset
  same (omode : Mode) : ∃ newmode, getmode s.array omode = some newmode
    ∧ getmode (sets ++ tail) omode = some newmode

theorem take_set_succ {array : List Bitcmd} {k : Nat} (c : Bitcmd) (inside : k < array.length)
    : (array.set k c).take (k + 1) = array.take k ++ [c] := by
  rw [List.take_add_one, List.getElem?_set_self inside, Option.toList_some,
    List.take_set_of_le (Nat.le_refl k)]

theorem cost_copying (sets array : List Bitcmd) (set nset : Nat)
    : Compress.cost sets ⟨array, set, nset, .copying⟩ ≤ 7 * (sets.length + 1 - nset) := by
  simp only [Compress.cost]
  split <;> omega

section

variable {sets : List Bitcmd} {last : Bitcmd} {rest : List Bitcmd} {s : Compress}

theorem Inv.read (inv : Inv sets (last :: rest) s)
    : s.array[s.nset]? = if less : s.nset < sets.length then some sets[s.nset] else some last := by
  have unread := congrArg (fun l => l[0]?) inv.unread
  have inside := inv.inside
  simp only [List.getElem?_drop, Nat.add_zero] at unread
  rw [unread]
  split
  next less => rw [List.getElem?_append_left less, List.getElem?_eq_getElem less]
  next notLess =>
    rw [List.getElem?_append_right (by omega), (by omega : s.nset - sets.length = 0)]
    rfl

/-- One command more was read. -/
theorem effect_take_succ {k : Nat} (omode newmode : Mode) (inside : k < sets.length)
    : effect omode (sets.take (k + 1)) newmode
      = sets[k].apply omode (effect omode (sets.take k) newmode) := by
  rw [List.take_add_one, List.getElem?_eq_getElem inside, effect_append]
  rfl

/-- The merging of one command more. -/
theorem Inv.merge (inv : Inv sets (last :: rest) s) {setbits clrbits xbits : Mode}
    (inside : s.nset < sets.length)
    (stores : (Phase.merging setbits clrbits xbits).stores ≤ s.phase.stores + 1)
    (same : ∀ omode newmode, merged omode (pendingOf setbits clrbits xbits) newmode
      = sets[s.nset].apply omode (merged omode s.phase.pending newmode))
    : Inv sets (last :: rest)
        { s with nset := s.nset + 1, phase := .merging setbits clrbits xbits } where
  length := inv.length
  unread := by
    have unread := congrArg (List.drop 1) inv.unread
    simpa only [List.drop_drop] using unread
  inside := inside
  behind := by
    have := inv.behind
    simp only
    omega
  going := inv.going
  merges := by simp [Phase.pending, pendingOf, Cmd.merges]
  pause pending other := nomatch other
  active := nofun
  same omode newmode := by
    simp only [Phase.pending]
    rw [same, inv.same, effect_take_succ omode newmode inside]

/-- A store that the place to read from is behind of. -/
theorem Inv.store (inv : Inv sets (last :: rest) s) {c : Bitcmd} (nset : Nat) (phase : Phase)
    (going : c.cmd ≠ .stop) (inside : nset ≤ sets.length) (later : s.nset ≤ nset)
    (behind : s.set + 1 + phase.stores ≤ nset) (active : phase ≠ .returned)
    (merges : ∀ p ∈ phase.pending, p.1.merges = true)
    (pause : ∀ pending, phase = .writing pending → ∀ c, sets[nset]? = some c → c.cmd.merges = false)
    (same : ∀ omode newmode, merged omode phase.pending
        (c.apply omode (effect omode (s.array.take s.set) newmode))
      = effect omode (sets.take nset) newmode)
    : ∃ array, s.store c = some array
      ∧ Inv sets (last :: rest) ⟨array, s.set + 1, nset, phase⟩ := by
  have length := inv.length
  have room : s.set < s.array.length := by
    simp only [length, List.length_append, List.length_cons]
    omega
  refine ⟨_, if_pos room, ?_⟩
  constructor
  case length => rw [List.length_set, length]
  case unread =>
    have unread := congrArg (List.drop (nset - s.nset)) inv.unread
    rw [List.drop_drop, List.drop_drop, (by omega : s.nset + (nset - s.nset) = nset)] at unread
    rw [List.drop_set_of_lt (by simp only; omega), unread]
  case inside => exact inside
  case behind => exact behind
  case going =>
    intro d member
    rw [take_set_succ c room] at member
    rcases List.mem_append.mp member with old | new
    · exact inv.going d old
    · rw [List.mem_singleton.mp new]
      exact going
  case active => exact active
  case merges => exact merges
  case pause => exact pause
  case same =>
    intro omode newmode
    rw [take_set_succ c room, effect_append]
    exact same omode newmode

/-- A round of the loop that the invariant survives, and that comes nearer to the end, or is the last. -/
def Advances (sets tail : List Bitcmd) (s : Compress) : Prop :=
  ∃ s', s.step = some s'
    ∧ ((Inv sets tail s' ∧ s'.cost sets < s.cost sets) ∨ Done sets tail s')

/-- A round that copies a command, or begins to merge. -/
theorem Inv.copies (going : ∀ set ∈ sets, set.cmd ≠ .stop) (ends : last.cmd = .stop)
    (inv : Inv sets (last :: rest) s) (phase : s.phase = .copying)
    : Advances sets (last :: rest) s := by
  have read := inv.read
  have behind := inv.behind
  have same := inv.same
  have length := inv.length
  have inside := inv.inside
  rw [Advances, Compress.step]
  simp only [phase]
  rw [phase] at behind same
  simp only [Option.bind_eq_bind]
  rcases Nat.lt_or_eq_of_le inside with more | atEnd
  · rw [dif_pos more] at read
    rw [read, Option.bind_some]
    split
    next merges =>
      refine ⟨_, rfl, .inl ⟨{ inv with
        active := nofun, behind := ?_, merges := ?_, pause := ?_, same := fun omode newmode => ?_ }, ?_⟩⟩
      · simpa [Phase.stores, Phase.pending, pendingOf] using behind
      · simp [Phase.pending, pendingOf, Cmd.merges]
      · exact fun pending other => nomatch other
      · rw [← same omode newmode]
        exact merged_zero omode _
      · simp only [Compress.cost, phase, List.getElem?_eq_getElem more, Option.any_some, merges,
          if_true]
        omega
    next copies =>
      obtain ⟨array, call, inv'⟩ := inv.store (s.nset + 1) .copying (going _ (List.getElem_mem more))
        more (Nat.le_succ _)
        (by simp only [Phase.stores, Phase.pending, List.countP_nil] at *; omega) nofun
        (by simp [Phase.pending]) (fun pending other => nomatch other) (fun omode newmode => by
          rw [effect_take_succ omode newmode more, ← same omode newmode]
          rfl)
      rw [call, Option.bind_some, if_neg (going _ (List.getElem_mem more))]
      refine ⟨_, rfl, .inl ⟨inv', ?_⟩⟩
      simp only [Compress.cost, phase, List.getElem?_eq_getElem more, Option.any_some, copies,
        Bool.false_eq_true, if_false]
      split <;> omega
  · rw [dif_neg (by omega)] at read
    have copies : ¬ last.cmd.merges = true := by rw [ends]; decide
    have room : s.set < s.array.length := by
      simp only [length, List.length_append, List.length_cons]
      omega
    rw [read, Option.bind_some, if_neg copies, Compress.store, if_pos room, Option.bind_some,
      if_pos ends]
    refine ⟨_, rfl, .inr ⟨rfl, by simp only; omega, fun omode => ?_⟩⟩
    have split : s.array.set s.set last
        = s.array.take s.set ++ last :: (s.array.set s.set last).drop (s.set + 1) := by
      conv_lhs => rw [← List.take_append_drop (s.set + 1) (s.array.set s.set last),
        take_set_succ last room, List.append_assoc]
      rfl
    refine ⟨effect omode sets omode, ?_, getmodeFrom_append omode going ends rest omode⟩
    have whole := same omode omode
    rw [atEnd, List.take_length] at whole
    rw [getmode, split, getmodeFrom_append omode inv.going ends, ← whole]
    rfl

/-- A round that takes a command into the pending ones, or begins to write these. -/
theorem Inv.absorbs (ends : last.cmd = .stop) (inv : Inv sets (last :: rest) s)
    {setbits clrbits xbits : Mode} (phase : s.phase = .merging setbits clrbits xbits)
    : Advances sets (last :: rest) s := by
  have read := inv.read
  have behind := inv.behind
  have same := inv.same
  have merges := inv.merges
  have inside := inv.inside
  rw [Advances, Compress.step]
  simp only [phase]
  simp only [Option.bind_eq_bind]
  rcases Nat.lt_or_eq_of_le inside with more | atEnd
  · rw [dif_pos more] at read
    rw [read, Option.bind_some]
    have cost (setbits clrbits xbits : Mode)
        : Compress.cost sets { s with
            nset := s.nset + 1
            phase := .merging setbits clrbits xbits } < s.cost sets := by
      simp only [Compress.cost, phase]
      omega
    cases kind : sets[s.nset].cmd with
    | minus =>
        refine ⟨_, rfl, .inl ⟨inv.merge more ?_ fun omode newmode => ?_, cost _ _ _⟩⟩
        · have set := stores_cleared setbits sets[s.nset].bits
          have clear := stores_one (clrbits ||| sets[s.nset].bits)
          have x := stores_cleared xbits sets[s.nset].bits
          rw [phase, stores_merging, stores_merging]
          omega
        · rw [phase, Bitcmd.apply, kind]
          exact merged_minus ..
    | plus =>
        refine ⟨_, rfl, .inl ⟨inv.merge more ?_ fun omode newmode => ?_, cost _ _ _⟩⟩
        · have clear := stores_cleared clrbits sets[s.nset].bits
          have set := stores_one (setbits ||| sets[s.nset].bits)
          have x := stores_cleared xbits sets[s.nset].bits
          rw [phase, stores_merging, stores_merging]
          omega
        · rw [phase, Bitcmd.apply, kind]
          exact merged_plus ..
    | x =>
        refine ⟨_, rfl, .inl ⟨inv.merge more ?_ fun omode newmode => ?_, cost _ _ _⟩⟩
        · have x := stores_one (xbits ||| (sets[s.nset].bits &&& ~~~setbits))
          rw [phase, stores_merging, stores_merging]
          omega
        · rw [phase, Bitcmd.apply, kind]
          exact merged_x ..
    | stop | u | g | o =>
        rw [phase] at behind same merges
        refine ⟨_, rfl, .inl ⟨{ inv with
          active := nofun, behind := behind, merges := merges, pause := ?_, same := same }, ?_⟩⟩
        · intro pending _ c found
          rw [List.getElem?_eq_getElem more] at found
          cases found
          rw [kind]
          rfl
        · simp only [Compress.cost, phase, List.length_cons, List.length_nil]
          omega
  · rw [dif_neg (by omega)] at read
    rw [read, Option.bind_some, ends]
    rw [phase] at behind same merges
    refine ⟨_, rfl, .inl ⟨{ inv with
      active := nofun, behind := behind, merges := merges, pause := ?_, same := same }, ?_⟩⟩
    · intro pending _ c found
      rw [atEnd, List.getElem?_eq_none (Nat.le_refl _)] at found
      cases found
    · simp only [Compress.cost, phase, List.length_cons, List.length_nil]
      omega

/-- A round that writes a pending command, or has none left. -/
theorem Inv.writes (inv : Inv sets (last :: rest) s) {pending : List (Cmd × Mode)}
    (phase : s.phase = .writing pending)
    : Advances sets (last :: rest) s := by
  have behind := inv.behind
  have same := inv.same
  have merges := inv.merges
  have inside := inv.inside
  rw [Advances, Compress.step]
  simp only [phase]
  rw [phase] at behind same merges
  have pause := inv.pause pending phase
  cases pending with
  | nil =>
      refine ⟨_, rfl, .inl ⟨{ inv with
        active := nofun, behind := behind, merges := merges, pause := ?_, same := same }, ?_⟩⟩
      · exact fun pending other => nomatch other
      · have stays : ¬ (sets[s.nset]?.any fun c => c.cmd.merges) = true := by
          rw [Option.any_eq_true]
          rintro ⟨c, found, merges⟩
          rw [pause c found] at merges
          cases merges
        simp only [Compress.cost, phase, stays, Bool.false_eq_true, if_false,
          List.length_nil]
        omega
  | cons p pending =>
      obtain ⟨cmd, bits⟩ := p
      simp only
      have first := merges (cmd, bits) (by simp [Phase.pending])
      have others (p : Cmd × Mode) (member : p ∈ pending) : p.1.merges = true :=
        merges p (by simp [Phase.pending, member])
      split
      next more =>
        have stores : (Phase.writing ((cmd, bits) :: pending)).stores
            = (Phase.writing pending).stores + 1 := by
          exact List.countP_cons_of_pos (by simpa using more)
        obtain ⟨array, call, inv'⟩ := inv.store (c := ⟨cmd, 0, bits⟩) s.nset
          (.writing pending) (by rintro rfl; cases first) inside (Nat.le_refl _)
          (by omega) nofun others (fun _ _ => pause) same
        refine ⟨_, by rw [call]; rfl, .inl ⟨inv', ?_⟩⟩
        simp only [Compress.cost, phase, List.length_cons]
        omega
      next none =>
        have zero : bits = 0 := not_not.mp none
        subst zero
        have stores : (Phase.writing ((cmd, 0) :: pending)).stores
            = (Phase.writing pending).stores := by
          exact List.countP_cons_of_neg (by simp)
        refine ⟨_, rfl, .inl ⟨{ inv with
          active := nofun, behind := ?_, merges := others, pause := fun _ _ => pause,
          same := fun omode newmode => ?_ }, ?_⟩⟩
        · simp only
          omega
        · have whole := same omode newmode
          simp only [Phase.pending, merged, List.foldl_cons, apply_zero omode first] at whole
          exact whole
        · simp only [Compress.cost, phase, List.length_cons]
          omega

theorem Inv.step (going : ∀ set ∈ sets, set.cmd ≠ .stop) (ends : last.cmd = .stop)
    (inv : Inv sets (last :: rest) s)
    : ∃ s', s.step = some s'
      ∧ ((Inv sets (last :: rest) s' ∧ s'.cost sets < s.cost sets) ∨ Done sets (last :: rest) s') := by
  cases phase : s.phase with
  | returned => exact absurd phase inv.active
  | copying => exact inv.copies going ends phase
  | merging setbits clrbits xbits => exact inv.absorbs ends phase
  | writing pending => exact inv.writes phase

theorem Inv.cost_pos (inv : Inv sets (last :: rest) s) : 0 < s.cost sets := by
  have inside := inv.inside
  rw [Compress.cost]
  cases phase : s.phase with
  | returned => exact absurd phase inv.active
  | copying =>
      simp only
      split <;> omega
  | merging setbits clrbits xbits =>
      simp only
      omega
  | writing pending =>
      simp only
      omega

/-- A run ends at the return, with the place to write to never behind the place to read from. -/
theorem Inv.runs (going : ∀ set ∈ sets, set.cmd ≠ .stop) (ends : last.cmd = .stop)
    (inv : Inv sets (last :: rest) s)
    : ∃ k ≤ s.cost sets, ∃ s', s.after k = some s' ∧ Done sets (last :: rest) s'
      ∧ ∀ j ≤ k, ∀ middle, s.after j = some middle → middle.set ≤ middle.nset := by
  induction cost : s.cost sets using Nat.strong_induction_on generalizing s with
  | _ c ih =>
      have here : s.set ≤ s.nset := Nat.le_of_add_right_le inv.behind
      have positive := inv.cost_pos
      obtain ⟨s₁, step, ⟨inv₁, less⟩ | done⟩ := inv.step going ends
      · obtain ⟨k, le, s', run, done, order⟩ := ih _ (cost ▸ less) inv₁ rfl
        refine ⟨k + 1, by omega, s', ?_, done, fun j small middle before => ?_⟩
        · rw [Compress.after, step]
          exact run
        · cases j with
          | zero =>
              cases before
              exact here
          | succ j =>
              rw [Compress.after, step] at before
              exact order j (by omega) middle before
      · refine ⟨1, by omega, s₁, ?_, done, fun j small middle before => ?_⟩
        · rw [Compress.after, step]
          rfl
        · cases j with
          | zero =>
              cases before
              exact here
          | succ j =>
              rw [Compress.after, step, (by omega : j = 0)] at before
              cases before
              exact done.behind

end

theorem run_of_after {k bound : Nat} {s s' : Compress} (run : s.after k = some s')
    (returned : s'.phase = .returned) (enough : k < bound)
    : Compress.run bound s = some s'.array := by
  induction k generalizing s bound with
  | zero =>
      cases run
      obtain ⟨bound, rfl⟩ := Nat.exists_eq_add_one.mpr enough
      rw [Compress.run, if_pos returned]
  | succ k ih =>
      obtain ⟨bound, rfl⟩ := Nat.exists_eq_add_one.mpr (Nat.zero_lt_of_lt enough)
      rw [Compress.after] at run
      obtain ⟨middle, step, run⟩ := Option.bind_eq_some_iff.mp run
      have active : s.phase ≠ .returned := by
        intro phase
        rw [Compress.step, phase] at step
        cases step
      rw [Compress.run, if_neg active, step]
      exact ih run (by omega)

section

variable {sets : List Bitcmd} {last : Bitcmd} (going : ∀ set ∈ sets, set.cmd ≠ .stop)
  (ends : last.cmd = .stop) (rest : List Bitcmd)

theorem inv_start (sets : List Bitcmd) (last : Bitcmd) (rest : List Bitcmd)
    : Inv sets (last :: rest) (.start (sets ++ last :: rest)) where
  active := nofun
  length := rfl
  unread := rfl
  inside := Nat.zero_le _
  behind := Nat.le_refl 0
  going := by simp [Compress.start]
  merges := by simp [Compress.start, Phase.pending]
  pause pending other := nomatch other
  same omode newmode := rfl

include going ends

/-- The whole run of `compress_mode`. -/
theorem exists_run
    : ∃ k s, (Compress.start (sets ++ last :: rest)).after k = some s ∧ Done sets (last :: rest) s
      ∧ compressMode (sets ++ last :: rest) = some s.array
      ∧ ∀ j ≤ k, ∀ middle, (Compress.start (sets ++ last :: rest)).after j = some middle
        → middle.set ≤ middle.nset := by
  obtain ⟨k, le, s, run, done, order⟩ := (inv_start sets last rest).runs going ends
  refine ⟨k, s, run, done, run_of_after run done.returned ?_, order⟩
  have cost : (Compress.start (sets ++ last :: rest)).cost sets ≤ 7 * (sets.length + 1) :=
    cost_copying sets _ 0 0
  simp only [List.length_append, List.length_cons]
  omega

/-- `compress_mode` returns, its place to write to never passes the place to read from, and `getmode`
gives the same mode for the commands that it leaves as for those that it was given.
-/
theorem compressMode_preserves
    : ∃ k s, (Compress.start (sets ++ last :: rest)).after k = some s ∧ s.phase = .returned
      ∧ (∀ j ≤ k, ∀ middle, (Compress.start (sets ++ last :: rest)).after j = some middle
        → middle.set ≤ middle.nset)
      ∧ compressMode (sets ++ last :: rest) = some s.array
      ∧ ∀ omode, ∃ newmode, getmode s.array omode = some newmode
        ∧ getmode (sets ++ last :: rest) omode = some newmode := by
  obtain ⟨k, s, run, done, call, order⟩ := exists_run going ends rest
  exact ⟨k, s, run, done.returned, order, call, done.same⟩

end

/-- Commands of all kinds. -/
def mixedSets : List Bitcmd :=
  [⟨.plus, 0, 0o111⟩, ⟨.x, 0, 0o100⟩, ⟨.minus, 0, 0o010⟩,
    ⟨.u, CMD2_GBITS ||| CMD2_SET ||| CMD2_CLR, 0o777⟩, ⟨.x, 0, 0o001⟩, ⟨.plus, 0, 0o004⟩]

theorem compressMode_preserves_mixed
    : ∃ array, compressMode (mixedSets ++ [⟨.stop, 0, 0⟩]) = some array
      ∧ array ≠ mixedSets ++ [⟨.stop, 0, 0⟩]
      ∧ ∀ omode, ∃ newmode, getmode array omode = some newmode
        ∧ getmode (mixedSets ++ [⟨.stop, 0, 0⟩]) omode = some newmode := by
  obtain ⟨_, s, _, _, _, call, same⟩ := @compressMode_preserves mixedSets ⟨.stop, 0, 0⟩
    (by decide) rfl []
  refine ⟨s.array, call, fun unchanged => ?_, same⟩
  rw [unchanged] at call
  exact absurd call (by decide +kernel)

end BSDLibC.Setmode
