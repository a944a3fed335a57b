import BSDLibC.Memmem.Correct

/-! The Boyer-Moore search, and when it finds the first occurrence. Pointers into the text are
distances to its start.
-/

namespace BSDLibC.Bm
open BSDLibC.Memmem

/-- `freq_def` -/
def freqDef : List UInt8 :=
  [0, 0, 0, 0, 0, 0, 0, 0, 0, 77, 90, 0, 0, 0, 0, 0,
    0, 0, 0, 0, 0, 0, 0, 0, 0, 0, 0, 0, 0, 0, 0, 0,
    99, 28, 42, 27, 16, 14, 20, 51, 66, 65, 59, 24, 75, 76, 84, 56,
    72, 74, 64, 55, 54, 47, 41, 37, 44, 61, 70, 43, 23, 53, 49, 22,
    33, 58, 40, 46, 45, 57, 60, 26, 30, 63, 21, 12, 32, 50, 38, 39,
    34, 11, 48, 67, 62, 35, 15, 29, 71, 18, 9, 17, 25, 13, 10, 52,
    36, 95, 78, 86, 87, 98, 82, 80, 88, 94, 19, 68, 89, 83, 93, 96,
    81, 7, 91, 92, 97, 85, 69, 73, 31, 79, 8, 5, 4, 6, 3, 0]

def EINVAL : Int := 22

/-- `bm_pat` -/
structure Pat where
  pat : List UInt8
  patlen : Nat
  delta : UInt8 → Nat
  rarec : UInt8
  rareoff : Int
  md2 : Nat

-----------------------------------------------------------------------------------------
-- The pattern
-----------------------------------------------------------------------------------------

/-- The loop over the pattern that gives each byte its distance to the end. -/
def skipDelta : List UInt8 → (UInt8 → Nat) → UInt8 → Nat
  | [], d => d
  | c :: rest, d => skipDelta rest fun b => if b = c then rest.length else d b

/-- The place of the rarest byte before the last. -/
def guard (freq : UInt8 → UInt8) (pb : List UInt8) : Nat :=
  (List.range (pb.length - 1)).foldl
    (fun r j => if freq (pb.getD j 0) < freq (pb.getD r 0) then j else r) 0

/-- The distance of the last byte to its reoccurrence to the left. -/
def reoccurrence (pb : List UInt8) : Nat :=
  match pb.reverse with
  | [] => 0
  | last :: before => before.findIdx (· == last) + 1

def bmComp (pb : List UInt8) (freq : Option (UInt8 → UInt8)) : Except Int Pat :=
  if pb.length = 0 then
    .error EINVAL
  else
    let r := guard (freq.getD fun c => freqDef.getD c.toNat 0) pb
    .ok
      { pat := pb
        patlen := pb.length
        delta := skipDelta pb fun _ => pb.length
        rarec := pb.getD r 0
        rareoff := r - (pb.length - 1 : Nat)
        md2 := reoccurrence pb }

-----------------------------------------------------------------------------------------
-- The search
-----------------------------------------------------------------------------------------

section

variable (pat : Pat) (text : List UInt8)

/-- `s[ro]`, where the sum with the unsigned offset wraps. -/
def rareAt (s : Nat) : Option UInt8 :=
  if 0 ≤ s + pat.rareoff then text[(s + pat.rareoff).toNat]? else none

/-- The forward match of bytes of the pattern. -/
def forward : List UInt8 → Nat → Option Bool
  | [], _ => some true
  | c :: rest, q => do
      let b ← text[q]?
      if b ≠ c then return false else forward rest (q + 1)

/-- The guard test, and the forward match behind it. -/
def test (bytes : List UInt8) (s : Nat) : Option Bool := do
  let c ← rareAt pat text s
  if c ≠ pat.rarec then return false else forward text bytes (s - (pat.patlen - 1))

/-- The ufast skip loop: where it ends. -/
def skip : Nat → Nat → Nat → Option Nat
  | 0, _, _ => none
  | fuel + 1, k, s =>
      if k ≠ 0 ∧ s + 3 * pat.patlen < text.length then do
        let k₁ := pat.delta (← text[s + k]?)
        let k₂ := pat.delta (← text[s + k + k₁]?)
        skip fuel k₂ (s + k + k₁)
      else
        some s

/-- The fast loop: what it returns, or where it ends. -/
def fastLoop : Nat → Nat → Option (Nat ⊕ Nat)
  | 0, _ => none
  | fuel + 1, s =>
      if s + 3 * pat.patlen < text.length then do
        let k := pat.delta (← text[s]?)
        let s ← skip pat text (text.length + 1) k s
        if text.length ≤ s + 3 * pat.patlen then
          return .inr s
        else if ← test pat text pat.pat.dropLast s then
          return .inl (s - (pat.patlen - 1))
        else
          fastLoop fuel (s + pat.md2)
      else
        some (.inr s)

def slowLoop : Nat → Nat → Option (Option Nat)
  | 0, _ => none
  | fuel + 1, s =>
      if s < text.length then do
        let s := s + pat.delta (← text[s]?)
        if text.length ≤ s then
          return none
        else if ← test pat text pat.pat s then
          return some (s - (pat.patlen - 1))
        else
          slowLoop fuel (s + pat.md2)
      else
        some none

/-- The place that is returned; there is no result when a byte outside the text is read. -/
def bmExec : Option (Option Nat) :=
  if text.length = 0 then
    some none
  else do
    match ← fastLoop pat text (text.length + 1) (pat.patlen - 1) with
    | .inl found => return some found
    | .inr s => slowLoop pat text (text.length + 1) s

end

-----------------------------------------------------------------------------------------
-- The walk over the text
-----------------------------------------------------------------------------------------

section

variable (pat : Pat) (text : List UInt8)

/-- A place and the skip of its byte. -/
def jump (s : Nat) : Nat := s + (text[s]?.map pat.delta).getD 0

/-- The place that follows one where nothing is found. -/
def next (s : Nat) : Nat :=
  if s + 3 * pat.patlen < text.length then
    if jump pat text s ≠ s then jump pat text (jump pat text s) else s + pat.md2
  else
    jump pat text s + pat.md2

def walk : Nat → Nat
  | 0 => pat.patlen - 1
  | k + 1 => next pat text (walk k)

/-- The end of the first occurrence is passed over: from a place of the walk within three lengths of the
end of the text, it is behind the place that the skip leads to but before the one that follows.
-/
def Overshoots : Prop :=
  ∃ i k, FirstFrom text pat.pat 0 (some i)
    ∧ text.length ≤ walk pat text k + 3 * pat.patlen
    ∧ jump pat text (walk pat text k) < i + (pat.patlen - 1)
    ∧ i + (pat.patlen - 1) < jump pat text (walk pat text k) + pat.md2

end

-----------------------------------------------------------------------------------------
-- The compiled pattern
-----------------------------------------------------------------------------------------

/-- What the tables of a pattern say. -/
structure Compiled (pb : List UInt8) (pat : Pat) : Prop where
  bytes : pat.pat = pb
  length : pat.patlen = pb.length
  present : 0 < pb.length
  delta_le (c : UInt8) : pat.delta c ≤ pb.length
  delta_at {c : UInt8} {i : Nat} : pb[i]? = some c → pat.delta c + i < pb.length
  delta_zero {c : UInt8} : pat.delta c = 0 → pb[pb.length - 1]? = some c
  md2_pos : 0 < pat.md2
  md2_le : pat.md2 ≤ pb.length
  md2_at {i : Nat} : i + 1 < pb.length → pb[i]? = pb[pb.length - 1]? → pat.md2 + i < pb.length
  rare : ∃ r < pb.length, pat.rareoff = (r : Int) - (pb.length - 1 : Nat) ∧ pb[r]? = some pat.rarec

theorem skipDelta_spec (pb : List UInt8) (d : UInt8 → Nat) (c : UInt8)
    : (c ∉ pb → skipDelta pb d c = d c)
      ∧ (∀ i, pb[i]? = some c → skipDelta pb d c + i < pb.length)
      ∧ (c ∈ pb → pb[pb.length - 1 - skipDelta pb d c]? = some c) := by
  induction pb generalizing d with
  | nil => simp [skipDelta]
  | cons b rest ih =>
      obtain ⟨other, place, last⟩ := ih fun x => if x = b then rest.length else d x
      rw [skipDelta]
      by_cases member : c ∈ rest
      · have less : skipDelta rest (fun x => if x = b then rest.length else d x) c < rest.length := by
          obtain ⟨i, found⟩ := List.mem_iff_getElem?.mp member
          have := place i found
          omega
        refine ⟨fun absent => absurd (List.mem_cons_of_mem _ member) absent, fun i found => ?_, fun _ => ?_⟩
        · cases i with
          | zero => exact Nat.lt_succ_of_lt less
          | succ i => exact Nat.succ_lt_succ (place i found)
        · rw [List.length_cons, show rest.length + 1 - 1
            - skipDelta rest (fun x => if x = b then rest.length else d x) c
            = rest.length - 1 - skipDelta rest (fun x => if x = b then rest.length else d x) c + 1 by omega,
            List.getElem?_cons_succ]
          exact last member
      · rw [other member]
        by_cases same : c = b
        · rw [if_pos same]
          refine ⟨fun absent => absurd (same ▸ List.mem_cons_self) absent, fun i found => ?_, fun _ => ?_⟩
          · cases i with
            | zero => exact Nat.lt_succ_self _
            | succ i => exact absurd (List.mem_of_getElem? (by simpa using found)) member
          · rw [List.length_cons, Nat.add_sub_cancel, Nat.sub_self, same]
            rfl
        · rw [if_neg same]
          refine ⟨fun _ => rfl, fun i found => ?_, fun within => ?_⟩
          · cases i with
            | zero => exact absurd (Option.some.inj found).symm same
            | succ i => exact absurd (List.mem_of_getElem? (by simpa using found)) member
          · exact absurd within (by simp [same, member])

theorem guard_lt (freq : UInt8 → UInt8) {pb : List UInt8} (present : 0 < pb.length)
    : guard freq pb < pb.length := by
  rw [guard]
  refine List.foldlRecOn (motive := (· < pb.length)) _ _ present fun r less j member => ?_
  have := List.mem_range.mp member
  split <;> omega

theorem reoccurrence_spec {pb : List UInt8} (present : 0 < pb.length)
    : 0 < reoccurrence pb ∧ reoccurrence pb ≤ pb.length
      ∧ ∀ i, i + 1 < pb.length → pb[i]? = pb[pb.length - 1]? → reoccurrence pb + i < pb.length := by
  obtain ⟨before, last, rfl⟩ : ∃ before last, pb = before ++ [last] :=
    ⟨_, _, (List.dropLast_append_getLast (List.length_pos_iff.mp present)).symm⟩
  have shift : reoccurrence (before ++ [last]) = before.reverse.findIdx (· == last) + 1 := by
    rw [reoccurrence, List.reverse_append]
    rfl
  have bound : before.reverse.findIdx (· == last) ≤ before.reverse.length :=
    List.findIdx_le_length
  rw [List.length_reverse] at bound
  rw [shift, List.length_append, List.length_singleton]
  refine ⟨Nat.succ_pos _, Nat.succ_le_succ bound, fun i less same => ?_⟩
  rw [Nat.add_sub_cancel, List.getElem?_append_left (by omega), List.getElem?_concat_length,
    List.getElem?_eq_getElem (by omega)] at same
  have found : before.reverse.findIdx (· == last) ≤ before.length - 1 - i := by
    by_contra after
    have none := List.not_of_lt_findIdx (Nat.lt_of_not_le after)
    rw [List.getElem_reverse] at none
    have place : before.length - 1 - (before.length - 1 - i) = i := by omega
    simp only [place, Option.some.inj same, BEq.rfl] at none
    cases none
  omega

theorem compiled {pb : List UInt8} {freq : Option (UInt8 → UInt8)} {pat : Pat}
    (comp : bmComp pb freq = .ok pat)
    : Compiled pb pat := by
  rw [bmComp] at comp
  split_ifs at comp with empty
  cases comp
  have present : 0 < pb.length := Nat.pos_of_ne_zero empty
  have delta (c : UInt8) := skipDelta_spec pb (fun _ => pb.length) c
  have shift := reoccurrence_spec present
  have rare := guard_lt (freq.getD fun c => freqDef.getD c.toNat 0) present
  exact
    { bytes := rfl
      length := rfl
      present := present
      delta_le := fun c => by
        by_cases member : c ∈ pb
        · obtain ⟨i, found⟩ := List.mem_iff_getElem?.mp member
          exact Nat.le_of_lt (Nat.lt_of_le_of_lt (Nat.le_add_right _ i) ((delta c).2.1 i found))
        · exact Nat.le_of_eq ((delta c).1 member)
      delta_at := fun found => (delta _).2.1 _ found
      delta_zero := fun {c} zero => by
        by_cases member : c ∈ pb
        · have last := (delta c).2.2 member
          rwa [show skipDelta pb (fun _ => pb.length) c = 0 from zero] at last
        · exact absurd ((delta c).1 member ▸ zero) (Nat.ne_of_gt present)
      md2_pos := shift.1
      md2_le := shift.2.1
      md2_at := shift.2.2 _
      rare := ⟨_, rare, rfl, getElem?_eq_getD rare⟩ }

-----------------------------------------------------------------------------------------
-- Skips
-----------------------------------------------------------------------------------------

/-- An occurrence whose last byte is at a place. -/
def EndsAt (text pb : List UInt8) (z : Nat) : Prop :=
  pb.length - 1 ≤ z ∧ Occurs text pb (z - (pb.length - 1))

section

variable {pb : List UInt8} {pat : Pat} {text : List UInt8} (tables : Compiled pb pat) {s z : Nat}

include tables

theorem EndsAt.lt (ends : EndsAt text pb z) : z < text.length := by
  have := ends.2.1
  have := ends.1
  have := tables.present
  omega

theorem EndsAt.byte (ends : EndsAt text pb z) (le : s ≤ z) (near : z < s + pb.length)
    : text[s]? = pb[pb.length - 1 - (z - s)]? := by
  have present := tables.present
  have low := ends.1
  have byte := ends.2.2 (pb.length - 1 - (z - s)) (by omega)
  rwa [show z - (pb.length - 1) + (pb.length - 1 - (z - s)) = s by omega] at byte

omit tables in
theorem jump_eq {c : UInt8} (byte : text[s]? = some c) : jump pat text s = s + pat.delta c := by
  rw [jump, byte]
  rfl

/-- The skip of a byte does not pass over an occurrence. -/
theorem jump_le (ends : EndsAt text pb z) (le : s ≤ z) : jump pat text s ≤ z := by
  have inside : s < text.length := Nat.lt_of_le_of_lt le (ends.lt tables)
  have byte : text[s]? = some text[s] := List.getElem?_eq_getElem inside
  by_contra beyond
  rw [jump_eq byte] at beyond
  have bound := tables.delta_le text[s]
  have near := tables.delta_at ((ends.byte tables le (by omega)).symm.trans byte)
  omega

/-- Nor does the shift at a byte that is the last of the pattern. -/
theorem md2_shift_le (ends : EndsAt text pb z) (less : s < z)
    (last : text[s]? = pb[pb.length - 1]?)
    : s + pat.md2 ≤ z := by
  by_contra beyond
  have bound := tables.md2_le
  have present := tables.present
  have near := tables.md2_at (i := pb.length - 1 - (z - s)) (by omega)
    ((ends.byte tables (Nat.le_of_lt less) (by omega)).symm.trans last)
  omega

omit tables in
theorem le_jump : s ≤ jump pat text s := Nat.le_add_right _ _

theorem next_gt : s < next pat text s := by
  have positive := tables.md2_pos
  have first : s ≤ jump pat text s := le_jump
  have second : jump pat text s ≤ jump pat text (jump pat text s) := le_jump
  rw [next]
  split_ifs <;> omega

theorem walk_mono : StrictMono (walk pat text) := strictMono_nat_of_lt_succ fun _ => next_gt tables

theorem low_walk (k : Nat) : pb.length - 1 ≤ walk pat text k := by
  have : walk pat text 0 ≤ walk pat text k := (walk_mono tables).monotone (Nat.zero_le k)
  rwa [walk, tables.length] at this

-----------------------------------------------------------------------------------------
-- The test at a place
-----------------------------------------------------------------------------------------

omit tables in
theorem forward_spec (bytes : List UInt8) {q : Nat} (room : q + bytes.length ≤ text.length)
    : ∃ b, forward text bytes q = some b
        ∧ (b = true ↔ ∀ j < bytes.length, text[q + j]? = bytes[j]?) := by
  induction bytes generalizing q with
  | nil => exact ⟨true, rfl, by simp⟩
  | cons c rest ih =>
      rw [List.length_cons] at room
      have byte : text[q]? = some text[q] := List.getElem?_eq_getElem (by omega)
      obtain ⟨b, call, same⟩ := ih (q := q + 1) (by omega)
      by_cases first : text[q] = c
      · refine ⟨b, by simp [forward, byte, first, call], ?_⟩
        rw [same]
        constructor
        · intro rest j less
          cases j with
          | zero => rw [Nat.add_zero, byte, first, List.getElem?_cons_zero]
          | succ j =>
              rw [List.getElem?_cons_succ, ← rest j (Nat.lt_of_succ_lt_succ less), Nat.add_right_comm q 1 j]
              rfl
        · intro all j less
          have := all (j + 1) (Nat.succ_lt_succ less)
          rwa [List.getElem?_cons_succ, ← Nat.add_assoc, Nat.add_right_comm] at this
      · refine ⟨false, by simp [forward, byte, first], ?_⟩
        refine iff_of_false (by decide) fun all => first ?_
        have := all 0 (Nat.succ_pos _)
        rw [Nat.add_zero, byte, List.getElem?_cons_zero] at this
        exact Option.some.inj this

/-- The test finds whether the pattern is there, also without the last byte where that is known. -/
theorem test_spec {bytes : List UInt8} (low : pb.length - 1 ≤ s) (high : s < text.length)
    (all : bytes = pb ∨ (bytes = pb.dropLast ∧ text[s]? = pb[pb.length - 1]?))
    : ∃ b, test pat text bytes s = some b ∧ (b = true ↔ EndsAt text pb s) := by
  obtain ⟨r, less, offset, rare⟩ := tables.rare
  have present := tables.present
  have inside : s - (pb.length - 1) + r < text.length := by omega
  have byte := List.getElem?_eq_getElem inside
  have read : rareAt pat text s = some text[s - (pb.length - 1) + r] := by
    have place : (s : Int) + pat.rareoff = (s - (pb.length - 1) + r : Nat) := by omega
    rw [rareAt, place, if_pos (Int.natCast_nonneg _), Int.toNat_natCast, byte]
  have whole : EndsAt text pb s ↔ ∀ j < pb.length, text[s - (pb.length - 1) + j]? = pb[j]? := by
    refine ⟨fun ends => ends.2.2, fun same => ⟨low, by omega, same⟩⟩
  by_cases guard : text[s - (pb.length - 1) + r] = pat.rarec
  · have matched : test pat text bytes s = forward text bytes (s - (pb.length - 1)) := by
      simp [test, read, guard, tables.length]
    rcases all with rfl | ⟨rfl, last⟩
    · have room : s - (bytes.length - 1) + bytes.length ≤ text.length := by omega
      obtain ⟨b, call, same⟩ := forward_spec bytes room
      exact ⟨b, matched.trans call, same.trans whole.symm⟩
    · have room : s - (pb.length - 1) + pb.dropLast.length ≤ text.length := by
        rw [List.length_dropLast]
        omega
      obtain ⟨b, call, same⟩ := forward_spec pb.dropLast room
      refine ⟨b, matched.trans call, same.trans (Iff.trans ?_ whole.symm)⟩
      simp only [List.length_dropLast, List.getElem?_dropLast]
      constructor
      · intro before j less
        by_cases end_ : j < pb.length - 1
        · exact (before j end_).trans (if_pos end_)
        · obtain rfl : j = pb.length - 1 := by omega
          rwa [Nat.sub_add_cancel low]
      · intro same j less
        rw [if_pos less, same j (by omega)]
  · refine ⟨false, by simp [test, read, guard], iff_of_false (by decide) fun ends => guard ?_⟩
    have := whole.mp ends r less
    rw [byte, rare] at this
    exact Option.some.inj this

-----------------------------------------------------------------------------------------
-- The loops
-----------------------------------------------------------------------------------------

/-- No occurrence ends before a place. -/
def Clear (text pb : List UInt8) (s : Nat) : Prop := ∀ z < s, ¬ EndsAt text pb z

omit tables in
theorem Clear.first (clear : Clear text pb s) (ends : EndsAt text pb s)
    : FirstFrom text pb 0 (some (s - (pb.length - 1))) := by
  refine ⟨Nat.zero_le _, ends.2, fun t _ less occurs => ?_⟩
  refine clear (t + (pb.length - 1)) (by omega) ⟨Nat.le_add_left _ _, ?_⟩
  rwa [Nat.add_sub_cancel]

omit tables in
theorem Clear.none (clear : Clear text pb s) (behind : text.length ≤ s) (present : 0 < pb.length)
    : FirstFrom text pb 0 none := by
  intro t _ occurs
  have := occurs.1
  refine clear (t + (pb.length - 1)) (by omega) ⟨Nat.le_add_left _ _, ?_⟩
  rwa [Nat.add_sub_cancel]

theorem Clear.skipped (clear : Clear text pb s) : Clear text pb (jump pat text s) := by
  intro z less ends
  by_cases before : z < s
  · exact clear z before ends
  · exact absurd (jump_le tables ends (Nat.le_of_not_lt before)) (Nat.not_le.mpr less)

theorem Clear.shift (clear : Clear text pb s) (other : ¬ EndsAt text pb s)
    (last : text[s]? = pb[pb.length - 1]?)
    : Clear text pb (s + pat.md2) := by
  intro z less ends
  rcases Nat.lt_trichotomy z s with before | rfl | after
  · exact clear z before ends
  · exact other ends
  · exact absurd (md2_shift_le tables ends after last) (Nat.not_le.mpr less)

/-- A place that the walk comes to in the fast loop, with no occurrence before it. -/
def Fast (pb : List UInt8) (pat : Pat) (text : List UInt8) (s : Nat) : Prop :=
  ∃ k, walk pat text k = s ∧ (∀ j < k, walk pat text j + 3 * pat.patlen < text.length)
    ∧ Clear text pb s

omit tables in
/-- The walk goes on from a place in the fast loop. -/
theorem Fast.next {s' : Nat} (fast : Fast pb pat text s) (inside : s + 3 * pat.patlen < text.length)
    (follows : next pat text s = s') (clear : Clear text pb s')
    : Fast pb pat text s' := by
  obtain ⟨k, rfl, before, -⟩ := fast
  refine ⟨k + 1, follows, fun j less => ?_, clear⟩
  rcases Nat.lt_succ_iff_lt_or_eq.mp less with less | rfl
  · exact before j less
  · exact inside

theorem Fast.low (fast : Fast pb pat text s) : pb.length - 1 ≤ s := by
  obtain ⟨k, rfl, -⟩ := fast
  exact low_walk tables k

/-- The skip loop ends behind the fast part or at a byte that is the last of the pattern. -/
theorem skip_spec {fuel : Nat} {c : UInt8} (fast : Fast pb pat text s) (byte : text[s]? = some c)
    (enough : text.length - s < fuel)
    : ∃ s', skip pat text fuel (pat.delta c) s = some s' ∧ Fast pb pat text s' ∧ s ≤ s'
        ∧ (text.length ≤ s' + 3 * pat.patlen ∨ ∃ c, text[s']? = some c ∧ pat.delta c = 0) := by
  induction fuel generalizing s c with
  | zero => omega
  | succ fuel ih =>
      rw [skip]
      split_ifs with going
      · obtain ⟨moves, inside⟩ := going
        have bound := tables.delta_le
        have size := tables.length
        have near := bound c
        have first : jump pat text s = s + pat.delta c := jump_eq byte
        have byte₁ : text[s + pat.delta c]? = some text[s + pat.delta c] := List.getElem?_eq_getElem _
        have near₁ := bound text[s + pat.delta c]
        have second : jump pat text (s + pat.delta c)
            = s + pat.delta c + pat.delta text[s + pat.delta c] := jump_eq byte₁
        have byte₂ : text[s + pat.delta c + pat.delta text[s + pat.delta c]]?
            = some text[s + pat.delta c + pat.delta text[s + pat.delta c]] := List.getElem?_eq_getElem _
        have follows : next pat text s = s + pat.delta c + pat.delta text[s + pat.delta c] := by
          rw [next, if_pos inside, first, if_pos (by omega), second]
        have clear : Clear text pb (s + pat.delta c + pat.delta text[s + pat.delta c]) := by
          obtain ⟨-, -, -, clear⟩ := fast
          rw [← second, ← first]
          exact (clear.skipped tables).skipped tables
        obtain ⟨s', call, rest⟩ := ih (fast.next inside follows clear) byte₂ (by omega)
        refine ⟨s', ?_, rest.1, by omega, rest.2.2⟩
        simpa [byte₁, byte₂] using call
      · refine ⟨s, rfl, fast, Nat.le_refl s, ?_⟩
        by_cases stays : pat.delta c = 0
        · exact .inr ⟨c, byte, stays⟩
        · exact .inl (Nat.le_of_not_lt fun inside => going ⟨stays, inside⟩)

/-- What the fast loop returns is the end of the first occurrence. -/
theorem fastLoop_spec {fuel : Nat} (fast : Fast pb pat text s) (enough : text.length - s < fuel)
    : ∃ s', Fast pb pat text s'
        ∧ ((fastLoop pat text fuel s = some (.inl (s' - (pb.length - 1))) ∧ EndsAt text pb s')
          ∨ (fastLoop pat text fuel s = some (.inr s') ∧ text.length ≤ s' + 3 * pat.patlen)) := by
  induction fuel generalizing s with
  | zero => omega
  | succ fuel ih =>
      rw [fastLoop]
      split_ifs with inside
      · have byte : text[s]? = some text[s] := List.getElem?_eq_getElem _
        obtain ⟨s', call, fast', after, ended⟩ := skip_spec tables fast byte
          (Nat.lt_succ_of_le (Nat.sub_le _ _))
        by_cases behind : text.length ≤ s' + 3 * pat.patlen
        · exact ⟨s', fast', .inr ⟨by simp [byte, call, behind], behind⟩⟩
        · obtain ⟨c, byte', stays⟩ := ended.resolve_left behind
          clear ended
          have last : text[s']? = pb[pb.length - 1]? := byte'.trans (tables.delta_zero stays).symm
          have shorter : pat.pat.dropLast = pb.dropLast := congrArg List.dropLast tables.bytes
          obtain ⟨b, tested, found⟩ := test_spec tables (fast'.low tables) (by omega)
            (.inr ⟨shorter, last⟩)
          cases b with
          | true =>
              refine ⟨s', fast', .inl ⟨?_, found.mp rfl⟩⟩
              rw [← tables.length]
              simp [byte, call, behind, tested]
          | false =>
              have other : ¬ EndsAt text pb s' := fun ends => Bool.false_ne_true (found.mpr ends)
              have stays : jump pat text s' = s' := by rw [jump_eq byte', stays, Nat.add_zero]
              have follows : next pat text s' = s' + pat.md2 := by
                rw [next, if_pos (Nat.lt_of_not_le behind), if_neg (not_not.mpr stays)]
              have clear : Clear text pb (s' + pat.md2) := by
                obtain ⟨-, -, -, clear⟩ := fast'
                exact clear.shift tables other last
              have positive := tables.md2_pos
              have shorter : text.length - (s' + pat.md2) < fuel := by omega
              have within : s' + 3 * pat.patlen < text.length := Nat.lt_of_not_le behind
              obtain ⟨s'', rest⟩ := ih (fast'.next within follows clear) shorter
              refine ⟨s'', ?_⟩
              simpa [byte, call, behind, tested] using rest
      · exact ⟨s, fast, .inr ⟨rfl, Nat.le_of_not_lt inside⟩⟩

/-- What the slow loop returns does not end before the place where it starts. -/
theorem slowLoop_behind {fuel : Nat} (low : pb.length - 1 ≤ s) (enough : text.length - s < fuel)
    : ∃ r, slowLoop pat text fuel s = some r ∧ ∀ i, r = some i → s ≤ i + (pb.length - 1) := by
  induction fuel generalizing s with
  | zero => omega
  | succ fuel ih =>
      rw [slowLoop]
      split_ifs with inside
      · have byte : text[s]? = some text[s] := List.getElem?_eq_getElem _
        have positive := tables.md2_pos
        by_cases behind : text.length ≤ s + pat.delta text[s]
        · exact ⟨none, by simp [byte, behind], nofun⟩
        · have after : pb.length - 1 ≤ s + pat.delta text[s] := Nat.le_add_right_of_le low
          obtain ⟨b, tested, -⟩ := test_spec tables after (Nat.lt_of_not_le behind) (.inl tables.bytes)
          cases b with
          | true =>
              refine ⟨some (s + pat.delta text[s] - (pat.patlen - 1)), by simp [byte, behind, tested], ?_⟩
              rintro i ⟨⟩
              rw [tables.length]
              omega
          | false =>
              obtain ⟨r, call, after⟩ := ih (s := s + pat.delta text[s] + pat.md2) (by omega) (by omega)
              refine ⟨r, by simpa [byte, behind, tested] using call, fun i same => ?_⟩
              have := after i same
              omega
      · exact ⟨none, rfl, nofun⟩

/-- The walk passes over the end of the first occurrence at a place. -/
def PassesOver (pb : List UInt8) (pat : Pat) (text : List UInt8) (k : Nat) : Prop :=
  ∃ i, FirstFrom text pb 0 (some i)
    ∧ jump pat text (walk pat text k) < i + (pb.length - 1)
    ∧ i + (pb.length - 1) < jump pat text (walk pat text k) + pat.md2

omit tables in
theorem exists_first (text pb : List UInt8) : ∃ r, FirstFrom text pb 0 r := by
  obtain ⟨r, -, first⟩ := memmem_first (h := text) (n := pb) Nat.lt_two_pow_self
  exact ⟨r, first⟩

omit tables in
theorem EndsAt.first_le {i : Nat} (ends : EndsAt text pb z) (first : FirstFrom text pb 0 (some i))
    : i + (pb.length - 1) ≤ z := by
  by_contra before
  exact first.2.2 _ (Nat.zero_le _) (by have := ends.1; omega) ends.2

omit tables in
theorem ends_first {i : Nat} (first : FirstFrom text pb 0 (some i))
    : EndsAt text pb (i + (pb.length - 1)) := by
  refine ⟨Nat.le_add_left _ _, ?_⟩
  rw [Nat.add_sub_cancel]
  exact first.2.1

omit tables in
/-- Behind the end of an occurrence the walk does not pass over the first one. -/
theorem not_passesOver {k : Nat} (ends : EndsAt text pb z) (after : z ≤ jump pat text (walk pat text k))
    : ¬ PassesOver pb pat text k := by
  rintro ⟨i, first, before, -⟩
  have := ends.first_le first
  omega

omit tables in
theorem not_passesOver_none (absent : FirstFrom text pb 0 none) (k : Nat)
    : ¬ PassesOver pb pat text k := by
  rintro ⟨i, first, -⟩
  exact absent i (Nat.zero_le i) first.2.1

omit tables in
/-- A shift that does not pass over the first occurrence passes over none. -/
theorem Clear.passed {k : Nat} {s' : Nat} (clear : Clear text pb s) (other : ¬ EndsAt text pb s)
    (place : jump pat text (walk pat text k) = s) (passed : ¬ PassesOver pb pat text k)
    (shift : s + pat.md2 = s')
    : Clear text pb s' := by
  intro z less ends
  obtain ⟨r, first⟩ := exists_first text pb
  cases r with
  | none => exact first _ (Nat.zero_le _) ends.2
  | some i =>
      have early := ends.first_le first
      have start := ends_first first
      rcases Nat.lt_trichotomy (i + (pb.length - 1)) s with before | same | after
      · exact clear _ before start
      · exact other (same ▸ start)
      · exact passed ⟨i, first, place ▸ after, by omega⟩

/-- The slow loop finds the first occurrence unless the walk passes over it. -/
theorem slowLoop_iff {fuel k : Nat} (start : walk pat text k = s) (clear : Clear text pb s)
    (slow : text.length ≤ s + 3 * pat.patlen) (enough : text.length - s < fuel)
    : ∃ r, slowLoop pat text fuel s = some r
        ∧ (FirstFrom text pb 0 r ↔ ∀ j, k ≤ j → ¬ PassesOver pb pat text j) := by
  induction fuel generalizing s k with
  | zero => omega
  | succ fuel ih =>
      have low : pb.length - 1 ≤ s := start ▸ low_walk tables k
      rw [slowLoop]
      split_ifs with inside
      · have byte : text[s]? = some text[s] := List.getElem?_eq_getElem _
        have skipped : jump pat text s = s + pat.delta text[s] := jump_eq byte
        have clear' : Clear text pb (s + pat.delta text[s]) := skipped ▸ clear.skipped tables
        by_cases behind : text.length ≤ s + pat.delta text[s]
        · have absent := clear'.none behind tables.present
          exact ⟨none, by simp [byte, behind], iff_of_true absent fun j _ => not_passesOver_none absent j⟩
        · have after : pb.length - 1 ≤ s + pat.delta text[s] := Nat.le_add_right_of_le low
          obtain ⟨b, tested, found⟩ := test_spec tables after (Nat.lt_of_not_le behind) (.inl tables.bytes)
          have follows : walk pat text (k + 1) = s + pat.delta text[s] + pat.md2 := by
            rw [walk, start, next, if_neg (Nat.not_lt.mpr slow), skipped]
          have positive := tables.md2_pos
          cases b with
          | true =>
              have ends := found.mp rfl
              refine ⟨some (s + pat.delta text[s] - (pb.length - 1)), ?_, ?_⟩
              · rw [← tables.length]
                simp [byte, behind, tested]
              · refine iff_of_true (clear'.first ends) fun j later => not_passesOver ends ?_
                rcases Nat.eq_or_lt_of_le later with rfl | later
                · rw [start, skipped]
                · have further : walk pat text (k + 1) ≤ walk pat text j :=
                    (walk_mono tables).monotone later
                  have : walk pat text j ≤ jump pat text (walk pat text j) := le_jump
                  omega
          | false =>
              have other : ¬ EndsAt text pb (s + pat.delta text[s]) :=
                fun ends => Bool.false_ne_true (found.mpr ends)
              have place : jump pat text (walk pat text k) = s + pat.delta text[s] := by rw [start, skipped]
              have shorter : text.length - (s + pat.delta text[s] + pat.md2) < fuel := by omega
              by_cases passed : PassesOver pb pat text k
              · obtain ⟨r, call, late⟩ := slowLoop_behind tables
                  (Nat.le_add_right_of_le after) shorter
                refine ⟨r, by simpa [byte, behind, tested] using call, ?_⟩
                refine iff_of_false (fun first => ?_) fun none => none k (Nat.le_refl k) passed
                obtain ⟨i, first', -, before⟩ := passed
                have same : r = some i := first.eq_naive.trans first'.eq_naive.symm
                have := late i same
                omega
              · obtain ⟨r, call, first⟩ := ih follows (Clear.passed clear' other place passed rfl)
                  (by omega) shorter
                refine ⟨r, by simpa [byte, behind, tested] using call, first.trans ?_⟩
                refine ⟨fun none j later => ?_, fun none j later => none j (Nat.le_of_succ_le later)⟩
                rcases Nat.eq_or_lt_of_le later with rfl | later
                · exact passed
                · exact none j later
      · have absent := clear.none (Nat.le_of_not_lt inside) tables.present
        exact ⟨none, rfl, iff_of_true absent fun j _ => not_passesOver_none absent j⟩

/-- The place that is returned is that of the first occurrence unless the walk passes over it. -/
theorem bmExec_spec
    : ∃ r, bmExec pat text = some r ∧ (FirstFrom text pb 0 r ↔ ¬ Overshoots pat text) := by
  have passing : Overshoots pat text
      ↔ ∃ k, text.length ≤ walk pat text k + 3 * pat.patlen ∧ PassesOver pb pat text k := by
    simp only [Overshoots, PassesOver, tables.bytes, tables.length]
    constructor
    · rintro ⟨i, k, first, slow, passes⟩
      exact ⟨k, slow, i, first, passes⟩
    · rintro ⟨k, slow, i, first, passes⟩
      exact ⟨i, k, first, slow, passes⟩
  rw [bmExec, passing]
  split_ifs with empty
  · have clear : Clear text pb 0 := nofun
    have absent := clear.none (Nat.le_of_eq empty) tables.present
    exact ⟨none, rfl, iff_of_true absent fun ⟨k, _, passes⟩ => not_passesOver_none absent k passes⟩
  · have fast : Fast pb pat text (pat.patlen - 1) := by
      refine ⟨0, rfl, nofun, fun z less ends => ?_⟩
      have := ends.1
      rw [tables.length] at less
      omega
    obtain ⟨s, ⟨k, place, before, clear⟩, ended⟩ := fastLoop_spec tables fast
      (Nat.lt_succ_of_le (Nat.sub_le _ _))
    have later (j : Nat) (slow : text.length ≤ walk pat text j + 3 * pat.patlen) : k ≤ j := by
      by_contra earlier
      exact absurd (before j (Nat.lt_of_not_le earlier)) (Nat.not_lt.mpr slow)
    have mono : Monotone (walk pat text) := (walk_mono tables).monotone
    rcases ended with ⟨call, ends⟩ | ⟨call, slow⟩
    · refine ⟨some (s - (pb.length - 1)), by simp [call], iff_of_true (clear.first ends) ?_⟩
      rintro ⟨j, slow, passes⟩
      exact not_passesOver ends (place ▸ (mono (later j slow)).trans le_jump) passes
    · obtain ⟨r, call', first⟩ := slowLoop_iff tables place clear slow
        (Nat.lt_succ_of_le (Nat.sub_le _ _))
      refine ⟨r, by simpa [call] using call', first.trans ⟨?_, fun none j after passes => ?_⟩⟩
      · rintro none ⟨j, slow', passes⟩
        exact none j (later j slow') passes
      · have := mono after
        exact none ⟨j, by omega, passes⟩

end

end BSDLibC.Bm
