import BSDLibC.Setmode.Parse

/-! Mode strings whose operators are all `-`. -/

namespace BSDLibC.Setmode
open BSDLibC.Strto

-----------------------------------------------------------------------------------------
-- Commands that remove bits
-----------------------------------------------------------------------------------------

/-- The mode is one for which `X` adds nothing: no directory, and no execute bit. -/
def Idle (omode : Mode) : Prop := omode &&& (S_IFDIR ||| S_IX) = 0

/-- A command that adds no bits. -/
def Removes (omode : Mode) (set : Bitcmd) : Prop :=
  match set.cmd with
  | .stop => False
  | .u | .g | .o => set.has CMD2_SET = false
  | .plus => False
  | .minus => True
  | .x => Idle omode

theorem Removes.cmd_ne_stop {omode : Mode} {set : Bitcmd} (removes : Removes omode set)
    : set.cmd ≠ .stop := by
  intro stop
  rw [Removes, stop] at removes
  exact removes

/-- The new mode has the bits of the old one but for some. -/
def Clears (newmode newmode' : Mode) : Prop := ∃ bits, newmode' = newmode &&& ~~~bits

theorem Clears.refl (newmode : Mode) : Clears newmode newmode :=
  ⟨0#32, by rw [BitVec.not_zero, BitVec.and_allOnes]⟩

/-- Some more bits are cleared under a condition. -/
theorem Clears.more {newmode newmode' : Mode} (clears : Clears newmode newmode') (flag : Bool)
    (bits : Mode)
    : Clears newmode (if flag then newmode' &&& ~~~bits else newmode') := by
  cases flag with
  | true =>
      obtain ⟨b, rfl⟩ := clears
      exact ⟨b ||| bits, by rw [if_pos rfl, BitVec.not_or, BitVec.and_assoc]⟩
  | false => exact clears

/-- What a copy with `-` does. -/
theorem copyBits_clears {set : Bitcmd} (clears : set.has CMD2_SET = false) (value newmode : Mode)
    : Clears newmode (copyBits set value newmode) := by
  simp only [copyBits, clears, Bool.false_eq_true, if_false]
  split
  · exact (((Clears.refl newmode).more _ _).more _ _).more _ _
  · exact .refl newmode

theorem Removes.apply {omode : Mode} {set : Bitcmd} (removes : Removes omode set) (newmode : Mode)
    : Clears newmode (set.apply omode newmode) := by
  rw [Removes] at removes
  rw [Bitcmd.apply]
  cases cmd : set.cmd <;> rw [cmd] at removes
  case stop => exact removes.elim
  case u => exact copyBits_clears removes _ _
  case g => exact copyBits_clears removes _ _
  case o => exact copyBits_clears removes _ _
  case plus => exact removes.elim
  case minus => exact ⟨set.bits, rfl⟩
  case x =>
      have idle : Idle omode := removes
      simp only
      rw [if_neg fun more => more idle]
      exact .refl newmode

/-- The mode has no bit that the old one has not. -/
def Within (newmode omode : Mode) : Prop := newmode &&& ~~~omode = 0

theorem effect_within {omode : Mode} {sets : List Bitcmd} (removes : ∀ set ∈ sets, Removes omode set)
    {newmode : Mode} (within : Within newmode omode)
    : Within (effect omode sets newmode) omode := by
  induction sets generalizing newmode with
  | nil => exact within
  | cons set sets ih =>
      obtain ⟨bits, result⟩ := (removes set (by simp)).apply newmode
      refine ih (fun other member => removes other (by simp [member])) ?_
      simp only [result]
      rw [Within, BitVec.and_assoc, BitVec.and_comm (~~~bits), ← BitVec.and_assoc, within]
      exact BitVec.zero_and

-----------------------------------------------------------------------------------------
-- Clauses that remove
-----------------------------------------------------------------------------------------

/-- All commands so far remove bits. -/
def Built.Removes (omode : Mode) (built : Built) : Prop := ∀ set ∈ built.sets, Setmode.Removes omode set

section

variable {fits : Nat → Bool} {mask omode : Mode}

theorem ADDCMD_removes {new : List Bitcmd} {built built' : Built}
    (h : ADDCMD fits new built = .ok built') (old : built.Removes omode)
    (removes : ∀ set ∈ new, Removes omode set)
    : built'.Removes omode := by
  have sets : built'.sets = built.sets ++ new := by
    rw [ADDCMD] at h
    split_ifs at h <;> cases h <;> rfl
  intro set member
  rw [sets] at member
  exact (List.mem_append.mp member).elim (old set) (removes set)

theorem addop_removes (who oparg : Mode) : ∀ set ∈ addop .minus who oparg mask, Removes omode set := by
  intro set member
  rw [List.mem_singleton.mp member]
  exact trivial

theorem addbits_removes (idle : Idle omode) (who oparg : Mode)
    : ∀ set ∈ [addbits .x who oparg mask], Removes omode set := by
  intro set member
  rw [List.mem_singleton.mp member]
  exact idle

theorem addcopy_has_set (mask : Mode) (cmd : Cmd) (who : Mode)
    : (addcopy cmd who .minus mask).has CMD2_SET = false := by
  simp only [addcopy, Bitcmd.has]
  split_ifs <;> decide

theorem addcopy_removes {c : UInt8} {cmd : Cmd} (letter : copyLetter c = some cmd) (who : Mode)
    : ∀ set ∈ [addcopy cmd who .minus mask], Removes omode set := by
  intro set member
  have clears := addcopy_has_set mask cmd who
  rw [List.mem_singleton.mp member, Removes]
  rw [copyLetter] at letter
  split_ifs at letter <;> cases letter <;> exact clears

/-- The permissions of a clause, where an `X` is there for a mode that it adds nothing to. -/
structure Clause.Removes (omode : Mode) (clause : Clause) : Prop where
  built : clause.built.Removes omode
  xbits : clause.permXbits ≠ 0 → Idle omode

theorem Clause.Removes.letter {clause clause' : Clause} {c : UInt8} (removes : clause.Removes omode)
    (h : clause.letter c = some clause') (x : c = 0x58 → Idle omode)
    : clause'.Removes omode := by
  rw [Clause.letter] at h
  by_cases upper : c = 0x58
  · have idle := x upper
    split_ifs at h <;> cases h <;> exact ⟨removes.built, fun _ => idle⟩
  · rw [if_neg upper] at h
    split_ifs at h <;> cases h <;> exact ⟨removes.built, removes.xbits⟩

theorem bind_eq_ok {α β : Type} {x : Except Failure α} {f : α → Except Failure β} {b : β}
    (h : x >>= f = .ok b)
    : ∃ a, x = .ok a ∧ f a = .ok b := by
  cases x with
  | error failure => cases h
  | ok a => exact ⟨a, rfl, h⟩

theorem Clause.Removes.settlePerm {clause clause' : Clause} {due : Bool}
    (removes : clause.Removes omode) (h : clause.settlePerm fits mask .minus due = .ok clause')
    : clause'.Removes omode := by
  rw [Clause.settlePerm] at h
  split at h
  next =>
    obtain ⟨built, added, h⟩ := bind_eq_ok h
    cases h
    exact ⟨ADDCMD_removes added removes.built (addop_removes _ _), removes.xbits⟩
  next =>
    cases h
    exact removes

/-- An `X` is added whatever the operator is. -/
theorem Clause.Removes.settleX {clause clause' : Clause} {due : Bool} (removes : clause.Removes omode)
    (h : clause.settleX fits mask due = .ok clause') (xbits : due = true → clause.permXbits ≠ 0)
    : clause'.Removes omode := by
  rw [Clause.settleX] at h
  split at h
  next here =>
    obtain ⟨built, added, h⟩ := bind_eq_ok h
    cases h
    have idle := removes.xbits (xbits here)
    exact ⟨ADDCMD_removes added removes.built (addbits_removes idle _ _), fun _ => idle⟩
  next =>
    cases h
    exact removes

theorem Clause.Removes.copy {clause clause' : Clause} {c : UInt8} {cmd : Cmd}
    (removes : clause.Removes omode) (letter : copyLetter c = some cmd)
    (h : clause.copy fits mask .minus cmd = .ok clause')
    : clause'.Removes omode := by
  rw [Clause.copy] at h
  obtain ⟨first, step, h⟩ := bind_eq_ok h
  obtain ⟨second, step', h⟩ := bind_eq_ok h
  obtain ⟨built, last, h⟩ := bind_eq_ok h
  have before := (removes.settlePerm step).settleX step' (by simp)
  cases h
  exact ⟨ADDCMD_removes last before.built (addcopy_removes letter _), before.xbits⟩

theorem Clause.Removes.flush {clause clause' : Clause} (removes : clause.Removes omode)
    (h : clause.flush fits mask .minus = .ok clause')
    : clause'.built.Removes omode := by
  rw [Clause.flush] at h
  obtain ⟨first, step, h⟩ := bind_eq_ok h
  have before := Clause.Removes.settlePerm (by simpa using removes) step
  exact (before.settleX h (by simp)).built

theorem perms_removes {p rest : List UInt8} {clause clause' : Clause}
    (h : perms fits mask .minus p clause = .ok (clause', rest)) (removes : clause.Removes omode)
    (x : 0x58 ∈ p → Idle omode)
    : clause'.built.Removes omode ∧ rest <:+ p := by
  induction p generalizing clause with
  | nil =>
      rw [perms] at h
      obtain ⟨last, flushed, h⟩ := bind_eq_ok h
      cases h
      exact ⟨removes.flush flushed, List.suffix_rfl⟩
  | cons c p ih =>
      rw [perms] at h
      split at h
      next letter =>
        obtain ⟨built, suffix⟩ := ih h (removes.letter letter fun same => x (by simp [same]))
          fun member => x (by simp [member])
        exact ⟨built, suffix.trans (List.suffix_cons c p)⟩
      next =>
        split at h
        next letter =>
          obtain ⟨next, copied, h⟩ := bind_eq_ok h
          obtain ⟨built, suffix⟩ := ih h (removes.copy letter copied) fun member => x (by simp [member])
          exact ⟨built, suffix.trans (List.suffix_cons c p)⟩
        next =>
          obtain ⟨last, flushed, h⟩ := bind_eq_ok h
          cases h
          exact ⟨removes.flush flushed, List.suffix_rfl⟩

theorem getWho_suffix (p : List UInt8) (who : Mode) : (getWho p who).2 <:+ p := by
  induction p generalizing who with
  | nil => exact List.suffix_rfl
  | cons c p ih =>
      rw [getWho]
      split_ifs
      · exact (ih _).trans (List.suffix_cons c p)
      · exact (ih _).trans (List.suffix_cons c p)
      · exact (ih _).trans (List.suffix_cons c p)
      · exact (ih _).trans (List.suffix_cons c p)
      · exact List.suffix_rfl

theorem clauses_removes (omode : Mode) {bound : Nat} {who : Mode} {p : List UInt8} {equalopdone : Bool}
    {built built' : Built} (h : clauses fits mask bound who p equalopdone built = .ok built')
    (removes : built.Removes omode) (minus : ∀ c ∈ p, c ≠ 0x2b ∧ c ≠ 0x3d)
    (x : 0x58 ∈ p → Idle omode)
    : built'.Removes omode := by
  induction bound generalizing who p equalopdone built with
  | zero => cases h
  | succ bound ih =>
      rw [clauses.eq_def] at h
      cases p with
      | nil => cases h
      | cons c p =>
          simp only at h
          cases found : getOp c with
          | none =>
              rw [found] at h
              cases h
          | some op =>
              rw [found] at h
              obtain ⟨⟨clause, rest⟩, list, h⟩ := bind_eq_ok h
              have dash : op = .minus := by
                obtain ⟨plus, assign⟩ := minus c (by simp)
                rw [getOp, if_neg plus, if_neg assign] at found
                split_ifs at found
                cases found
                rfl
              subst dash
              obtain ⟨built, suffix⟩ := perms_removes list ⟨removes, by simp⟩
                fun member => x (by simp [member])
              have suffix := suffix.trans (List.suffix_cons c p)
              cases rest with
              | nil =>
                  cases h
                  exact built
              | cons d rest =>
                  simp only at h
                  split at h
                  next =>
                    exact ih h built (fun e member => minus e (suffix.subset member))
                      fun member => x (suffix.subset member)
                  next =>
                    have suffix := (getWho_suffix rest 0).trans
                      ((List.suffix_cons d rest).trans suffix)
                    exact ih h built (fun e member => minus e (suffix.subset member))
                      fun member => x (suffix.subset member)

end

/-- The commands of a symbolic mode. -/
theorem setmode_symbolic {fits : Nat → Bool} {loc : Strto.Locale} {umask : Mode} {p : Text}
    {bbox : List Bitcmd} (accepted : setmode fits loc umask p = .ok bbox)
    (symbolic : ∀ c, p.bytes.head? = some c → ¬ (0x30 ≤ c ∧ c ≤ 0x39))
    : ∃ built, clauses fits (~~~umask) (p.bytes.length + 1) (getWho p.bytes 0).1 (getWho p.bytes 0).2
          false ⟨[], 8⟩ = .ok built
      ∧ compressMode (built.sets ++ [⟨.stop, 0, 0⟩]) = some bbox := by
  rw [setmode] at accepted
  cases bytes : p.bytes with
  | nil =>
      rw [bytes] at accepted
      cases accepted
  | cons c rest =>
      rw [bytes] at accepted
      simp only at accepted
      rw [if_neg (symbolic c (by rw [bytes]; rfl))] at accepted
      split at accepted
      next => cases accepted
      next =>
        obtain ⟨built, parsed, accepted⟩ := bind_eq_ok accepted
        obtain ⟨array, finished, accepted⟩ := bind_eq_ok accepted
        refine ⟨built, parsed, ?_⟩
        rw [finish] at finished
        split at finished
        next =>
          cases finished
          cases compressed : compressMode (built.sets ++ [⟨.stop, 0, 0⟩]) with
          | none =>
              rw [compressed] at accepted
              cases accepted
          | some array =>
              rw [compressed] at accepted
              cases accepted
              rfl
        next => cases finished

/-- A mode string whose operators are all `-` only removes bits, when it has no `X` or the old mode is
not one of a directory and has no execute bit.
-/
theorem setmode_removes {fits : Nat → Bool} {loc : Strto.Locale} {umask omode : Mode} {p : Text}
    {bbox : List Bitcmd} (accepted : setmode fits loc umask p = .ok bbox)
    (symbolic : ∀ c, p.bytes.head? = some c → ¬ (0x30 ≤ c ∧ c ≤ 0x39))
    (minus : ∀ c ∈ p.bytes, c ≠ 0x2b ∧ c ≠ 0x3d) (x : 0x58 ∈ p.bytes → Idle omode)
    : ∃ newmode, getmode bbox omode = some newmode ∧ Within newmode omode := by
  obtain ⟨built, parsed, compressed⟩ := setmode_symbolic accepted symbolic
  have suffix := getWho_suffix p.bytes 0
  have removes := clauses_removes omode parsed (by intro set member; cases member)
    (fun c member => minus c (suffix.subset member)) fun member => x (suffix.subset member)
  obtain ⟨_, s, _, done, call, _⟩ := exists_run
    (fun set member => (removes set member).cmd_ne_stop) (rfl : (⟨.stop, 0, 0⟩ : Bitcmd).cmd = .stop) []
  rw [compressed] at call
  cases call
  obtain ⟨newmode, result, original⟩ := done.same omode
  refine ⟨newmode, result, ?_⟩
  rw [getmode, getmodeFrom_append omode (fun set member => (removes set member).cmd_ne_stop) rfl]
    at original
  cases original
  exact effect_within removes (by rw [Within]; exact BitVec.and_not_self omode)

/-- `a-rX,g-u` -/
def copyText : Text := ⟨[0x61, 0x2d, 0x72, 0x58, 0x2c, 0x67, 0x2d, 0x75], by decide⟩

theorem setmode_removes_copy
    : ∃ bbox, setmode (fun _ => true) cLocale 0o022 copyText = .ok bbox
      ∧ ∃ newmode, getmode bbox 0o664 = some newmode ∧ Within newmode 0o664 := by
  have accepted : setmode (fun _ => true) cLocale 0o022 copyText
      = .ok [⟨.minus, 0, 0o444⟩, ⟨.x, 0, 0o111⟩, ⟨.u, CMD2_GBITS ||| CMD2_CLR, ~~~0⟩,
        ⟨.stop, 0, 0⟩] := by decide +kernel
  refine ⟨_, accepted, setmode_removes accepted ?_ (by decide +kernel) fun _ => by rw [Idle]; decide⟩
  intro c head
  cases head
  decide

/-- `a-X` -/
def minusXText : Text := ⟨[0x61, 0x2d, 0x58], by decide⟩

/-- An `X` adds execute bits, also behind a `-`. -/
theorem setmode_minusX_adds
    : ∃ bbox, setmode (fun _ => true) cLocale 0o022 minusXText = .ok bbox
      ∧ getmode bbox 0o744 = some 0o755 ∧ ¬ Within 0o755 0o744 := by
  refine ⟨[⟨.x, 0, 0o111⟩, ⟨.stop, 0, 0⟩], by decide +kernel, by decide, ?_⟩
  rw [Within]
  decide

end BSDLibC.Setmode
