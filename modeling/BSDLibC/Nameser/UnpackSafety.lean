import BSDLibC.Nameser.Unpack
import Mathlib.Data.Fintype.EquivFin
import Mathlib.Logic.Relation

/-! When `ns_name_unpack2` is safe on a message: it ends, it keeps to the message and to `dst`, and what
it gives is a name.
-/

namespace BSDLibC.Nameser

open Relation

variable {msg : List UInt8} {src dstsiz : Nat}

/-- A name in wire format without pointers. -/
inductive WireName : List UInt8 → Prop
  | root : WireName [0]
  | ordinary {l bytes rest} (some : l ≠ 0) (short : l.toNat ≤ 63) (length : bytes.length = l.toNat)
    (more : WireName rest)
    : WireName (l :: (bytes ++ rest))
  | bits {count data rest}
    (length : data.length = ((if count = 0 then 256 else count.toNat) + 7) / 8)
    (more : WireName rest)
    : WireName (bitstringType :: count :: (data ++ rest))

/-- What the result of a safe call is. -/
def Unpacked.Fine (dstsiz : Nat) : Unpacked → Prop
  | .fault => False
  | .failed _ => True
  | .done _ dst => WireName dst ∧ dst.length ≤ dstsiz

/-- A call for a start in the message ends with a result that is right. -/
def SafeFrom (msg : List UInt8) (dstsiz start : Nat) : Prop :=
  ∃ rounds result, nsNameUnpack2 msg start dstsiz rounds = some result ∧ result.Fine dstsiz

/-- A pointer from a place to another one. -/
def PointsTo (msg : List UInt8) (i j : Nat) : Prop :=
  ∃ n b, msg[i]? = some n ∧ 192 ≤ n.toNat ∧ msg[i + 1]? = some b
    ∧ j = (n.toNat - 192) * 256 + b.toNat ∧ j < msg.length

theorem PointsTo.inside {i j : Nat} (points : PointsTo msg i j) : j < msg.length := by
  obtain ⟨n, b, -, -, -, -, inside⟩ := points
  exact inside

-----------------------------------------------------------------------------------------
-- A round
-----------------------------------------------------------------------------------------

/-- The bytes that a round adds are a label. -/
def LabelBytes (bytes : List UInt8) : Prop :=
  bytes ≠ [] ∧ ∀ rest, WireName rest → WireName (bytes ++ rest)

theorem labelBytes_of_labellen {i l : Nat} {n : UInt8}
    (found : labellen (msg.drop i) = some (some l)) (here : msg[i]? = some n) (nonzero : n ≠ 0)
    (flags : n.toNat &&& cmprsflgs = 0 ∨ n.toNat &&& cmprsflgs = typeElt)
    (inside : i + 1 + l < msg.length)
    : LabelBytes (n :: (msg.drop (i + 1)).take l) := by
  refine ⟨List.cons_ne_nil _ _, fun rest more => ?_⟩
  obtain ⟨lt, rfl⟩ := List.getElem?_eq_some_iff.mp here
  rw [List.drop_eq_getElem_cons lt, labellen] at found
  rcases flags with zero | extended
  · rw [zero, if_neg (by decide), if_neg (by decide)] at found
    cases found
    have short := (flags_of_byte msg[i]).2.2 zero
    exact .ordinary nonzero (by omega) (by rw [List.length_take, List.length_drop]; omega) more
  · rw [extended, if_neg (by decide), if_pos rfl] at found
    by_cases bits : msg[i] = bitstringType
    · rw [if_pos bits] at found
      have next : i + 1 < msg.length := by omega
      rw [List.drop_eq_getElem_cons next] at found ⊢
      simp only [List.head?_cons, Option.bind_eq_bind, Option.bind_some, Option.pure_def,
        Option.some.injEq] at found
      rw [bits, ← found, List.take_succ_cons]
      exact .bits (by rw [List.length_take, List.length_drop]; omega) more
    · rw [if_neg bits] at found
      cases found

/-- The length of a label is in the message, if the message does not end with a bit string label. -/
theorem labellen_ne_none (last : msg.getLast? ≠ some bitstringType) {i : Nat}
    (inside : i < msg.length)
    : labellen (msg.drop i) ≠ none := by
  intro fault
  rw [List.drop_eq_getElem_cons inside, labellen] at fault
  split_ifs at fault with pointer extended bits
  have tail : (msg.drop (i + 1)).head? = none := by
    cases next : (msg.drop (i + 1)).head? with
    | none => rfl
    | some count =>
        rw [next] at fault
        cases fault
  rw [List.head?_drop, List.getElem?_eq_none_iff] at tail
  refine last ?_
  rw [List.getLast?_eq_getElem?, show msg.length - 1 = i by omega, List.getElem?_eq_getElem inside,
    bits]

/-- What a round does where the message does not end with a bit string label: it fails, it ends the name
with the root label, it adds a label, or it follows a pointer.
-/
theorem unpackStep_cases (last : msg.getLast? ≠ some bitstringType) {s : Unpacking}
    (inside : s.srcp < msg.length)
    : (∃ errno, unpackStep msg src dstsiz s = .ends (.failed errno))
      ∨ (msg[s.srcp]? = some 0 ∧ ∃ len, unpackStep msg src dstsiz s
          = .ends (if s.dst.length < dstsiz then .done len (s.dst ++ [0]) else .fault))
      ∨ (∃ next bytes, unpackStep msg src dstsiz s = .next next ∧ next.srcp < msg.length
          ∧ next.dst = s.dst ++ bytes ∧ LabelBytes bytes ∧ next.dst.length < dstsiz)
      ∨ ∃ next, unpackStep msg src dstsiz s = .next next ∧ PointsTo msg s.srcp next.srcp
          ∧ next.dst = s.dst ∧ next.checked = wrapInt (s.checked + 2)
          ∧ next.checked < msg.length := by
  have here := List.getElem?_eq_getElem inside
  generalize msg[s.srcp] = n at here
  rw [unpackStep, here]
  simp only
  by_cases zero : n = 0
  · subst zero
    refine Or.inr (Or.inl ⟨rfl,
      if s.len < 0 then wrapInt (((s.srcp + 1 : Nat) : Int) - src) else s.len, ?_⟩)
    rw [if_pos (rfl : (0 : UInt8) = 0), unpackRoot]
    split <;> rfl
  rw [if_neg zero]
  by_cases label : n.toNat &&& cmprsflgs = 0 ∨ n.toNat &&& cmprsflgs = typeElt
  · rw [if_pos label, unpackLabel, Nat.add_sub_cancel]
    cases found : labellen (msg.drop s.srcp) with
    | none => exact absurd found (labellen_ne_none last inside)
    | some length =>
        cases length with
        | none => exact Or.inl ⟨_, rfl⟩
        | some l =>
            simp only
            by_cases outside : s.dst.length + l + 1 ≥ dstsiz ∨ s.srcp + 1 + l ≥ msg.length
            · rw [if_pos outside]
              exact Or.inl ⟨_, rfl⟩
            rw [if_neg outside]
            have bytes := labelBytes_of_labellen found here zero label (by omega)
            refine Or.inr (Or.inr (Or.inl ⟨_, _, rfl, by simp only; omega, rfl, bytes, ?_⟩))
            rw [List.length_append, List.length_cons]
            have := List.length_take_le l (msg.drop (s.srcp + 1))
            omega
  rw [if_neg label]
  by_cases pointer : n.toNat &&& cmprsflgs = cmprsflgs
  · rw [if_pos pointer, unpackPointer]
    have flags := (flags_of_byte n).2.1.mpr pointer
    cases second : msg[s.srcp + 1]? with
    | none => exact Or.inl ⟨_, rfl⟩
    | some b =>
        simp only
        rw [pointerTarget_eq flags]
        by_cases outside : (n.toNat - 192) * 256 + b.toNat ≥ msg.length
        · rw [if_pos outside]
          exact Or.inl ⟨_, rfl⟩
        rw [if_neg outside]
        by_cases looped : wrapInt (s.checked + 2) ≥ msg.length
        · rw [if_pos looped]
          exact Or.inl ⟨_, rfl⟩
        rw [if_neg looped]
        exact Or.inr (Or.inr (Or.inr ⟨_, rfl, ⟨n, b, here, flags, second, rfl, not_le.mp outside⟩,
          rfl, rfl, not_le.mp looped⟩))
  · rw [if_neg pointer]
    exact Or.inl ⟨_, rfl⟩

-----------------------------------------------------------------------------------------
-- Runs
-----------------------------------------------------------------------------------------

/-- What holds between two rounds: the next byte is in the message, and the labels so far fit. -/
structure Unpacking.Inv (msg : List UInt8) (dstsiz : Nat) (s : Unpacking) : Prop where
  inside : s.srcp < msg.length
  fits : s.dst ≠ [] → s.dst.length < dstsiz
  labels : ∀ rest, WireName rest → WireName (s.dst ++ rest)

/-- The loop ends with a result that is right. -/
def Sound (msg : List UInt8) (src dstsiz : Nat) (s : Unpacking) : Prop :=
  ∃ result, Ends msg src dstsiz s result ∧ result.Fine dstsiz

/-- A round that follows a pointer. -/
def Follows (msg : List UInt8) (next s : Unpacking) : Prop :=
  PointsTo msg s.srcp next.srcp ∧ next.dst = s.dst ∧ next.checked = wrapInt (s.checked + 2)
    ∧ next.checked < msg.length

/-- Where pointers cannot be followed for ever, the loop ends: a label makes the name longer, which has
an end at the size of `dst`.
-/
theorem Unpacking.Inv.sound (last : msg.getLast? ≠ some bitstringType)
    (room : dstsiz = 0 → 0 ∉ msg) (finite : ∀ s, s.Inv msg dstsiz → Acc (Follows msg) s)
    {s : Unpacking} (inv : s.Inv msg dstsiz)
    : Sound msg src dstsiz s := by
  induction left : dstsiz - s.dst.length using Nat.strong_induction_on generalizing s with
  | _ left labels =>
  have ends := finite s inv
  induction ends with
  | intro s _ pointers =>
  rcases @unpackStep_cases msg src dstsiz last s inv.inside with
    ⟨errno, step⟩ | ⟨here, len, step⟩ | ⟨next, bytes, step, inside, dst, label, fits⟩
      | ⟨next, step, points, dst, counted, below⟩
  · exact ⟨_, Ends.last step, trivial⟩
  · have room' : s.dst.length < dstsiz := by
      by_cases empty : s.dst = []
      · have positive : dstsiz ≠ 0 := fun zero => room zero (List.mem_of_getElem? here)
        rw [empty, List.length_nil]
        omega
      · exact inv.fits empty
    rw [if_pos room'] at step
    refine ⟨_, Ends.last step, inv.labels _ .root, ?_⟩
    rw [List.length_append, List.length_singleton]
    omega
  · have longer : s.dst.length < next.dst.length := by
      have := List.length_pos_of_ne_nil label.1
      rw [dst, List.length_append]
      omega
    have inv' : next.Inv msg dstsiz := by
      refine ⟨inside, fun _ => fits, fun rest more => ?_⟩
      rw [dst, List.append_assoc]
      exact inv.labels _ (label.2 rest more)
    obtain ⟨result, ended, fine⟩ := labels (dstsiz - next.dst.length) (by omega) inv' rfl
    exact ⟨result, Ends.more step ended, fine⟩
  · have inv' : next.Inv msg dstsiz := ⟨points.inside, by rw [dst]; exact inv.fits, by rw [dst]; exact inv.labels⟩
    obtain ⟨result, ended, fine⟩ := pointers next ⟨points, dst, counted, below⟩ inv' (by rw [dst]; exact left)
    exact ⟨result, Ends.more step ended, fine⟩

/-- The count ends a loop of pointers in a message that is not too long for an `int`. -/
theorem acc_follows_of_short (short : msg.length < 2 ^ 31 - 1) (s : Unpacking)
    : Acc (Follows msg) s := by
  let measure (s : Unpacking) : Nat :=
    if s.checked < msg.length then (msg.length - s.checked).toNat else 2 ^ 32
  have smaller {next s : Unpacking} (follows : Follows msg next s) : measure next < measure s := by
    obtain ⟨-, -, counted, below⟩ := follows
    have low := (wrapInt_bounds (s.checked + 2)).1
    rw [← counted] at low
    simp only [measure, if_pos below]
    by_cases before : s.checked < msg.length
    · have more : s.checked < next.checked := by
        by_cases wide : -2 ^ 31 ≤ s.checked
        · rw [counted, wrapInt_eq (by omega) (by omega)]
          omega
        · omega
      rw [if_pos before]
      omega
    · rw [if_neg before]
      omega
  exact Subrelation.accessible (fun follows => smaller follows) (InvImage.accessible measure
    (Nat.lt_wfRel.wf.apply (measure s)))

/-- Without a cycle of pointers there is no loop of them. -/
theorem acc_follows_of_acyclic (acyclic : ∀ i, ¬ TransGen (PointsTo msg) i i) {s : Unpacking}
    (inside : s.srcp < msg.length)
    : Acc (Follows msg) s := by
  let above (j i : Fin msg.length) : Prop := TransGen (PointsTo msg) i j
  have wf : WellFounded above := by
    have : IsTrans _ above := ⟨fun a b c first second => second.trans first⟩
    have : Std.Irrefl above := ⟨fun i => acyclic i⟩
    exact Finite.wellFounded_of_trans_of_irrefl above
  induction place : (⟨s.srcp, inside⟩ : Fin msg.length) using wf.induction generalizing s with
  | _ i ih =>
  refine Acc.intro _ fun next follows => ?_
  refine ih ⟨next.srcp, follows.1.inside⟩ ?_ follows.1.inside rfl
  rw [← place]
  exact TransGen.single follows.1

-----------------------------------------------------------------------------------------
-- Calls that are not safe
-----------------------------------------------------------------------------------------

theorem ends_unique {s : Unpacking} {first second : Unpacked}
    (ended : Ends msg src dstsiz s first) (ended' : Ends msg src dstsiz s second)
    : first = second := by
  obtain ⟨rounds, result⟩ := ended
  obtain ⟨rounds', result'⟩ := ended'
  induction rounds generalizing s rounds' with
  | zero => cases result
  | succ rounds ih =>
      cases rounds' with
      | zero => cases result'
      | succ rounds' =>
          rw [unpackLoop] at result result'
          cases step : unpackStep msg src dstsiz s with
          | ends last =>
              rw [step] at result result'
              cases result
              cases result'
              rfl
          | next s' =>
              rw [step] at result result'
              exact ih result rounds' result'

theorem safeFrom_iff {start : Nat} (inside : start < msg.length)
    : SafeFrom msg dstsiz start ↔ Sound msg start dstsiz ⟨start, [], -1, 0⟩ := by
  simp only [SafeFrom, Sound, Ends, nsNameUnpack2, if_neg (not_le.mpr inside)]
  constructor
  · rintro ⟨rounds, result, ended, fine⟩
    exact ⟨result, ⟨rounds, ended⟩, fine⟩
  · rintro ⟨result, ⟨rounds, ended⟩, fine⟩
    exact ⟨rounds, result, ended, fine⟩

/-- A step that ends with a fault. -/
theorem not_sound_of_fault {s : Unpacking} (step : unpackStep msg src dstsiz s = .ends .fault)
    : ¬ Sound msg src dstsiz s := by
  rintro ⟨result, ended, fine⟩
  rw [ends_unique ended (Ends.last step)] at fine
  exact fine

theorem not_safeFrom_of_bits (last : msg.getLast? = some bitstringType)
    : ∃ start, start < msg.length ∧ ¬ SafeFrom msg dstsiz start := by
  have positive : msg ≠ [] := by
    rintro rfl
    cases last
  have length := List.length_pos_of_ne_nil positive
  rw [List.getLast?_eq_getElem?] at last
  have tail : msg.drop (msg.length - 1) = [bitstringType] := by
    obtain ⟨inside, same⟩ := List.getElem?_eq_some_iff.mp last
    rw [List.drop_eq_getElem_cons inside, same, List.drop_of_length_le (by omega)]
  refine ⟨msg.length - 1, by omega, ?_⟩
  rw [safeFrom_iff (by omega)]
  refine not_sound_of_fault ?_
  rw [unpackStep]
  simp only
  rw [last]
  simp only
  rw [if_neg (by decide), if_pos (by decide), unpackLabel, Nat.add_sub_cancel, tail]
  rfl

theorem not_safeFrom_of_empty (root : 0 ∈ msg)
    : ∃ start, start < msg.length ∧ ¬ SafeFrom msg 0 start := by
  obtain ⟨start, inside, here⟩ := List.mem_iff_getElem.mp root
  refine ⟨start, inside, ?_⟩
  rw [safeFrom_iff inside]
  refine not_sound_of_fault ?_
  rw [unpackStep]
  simp only
  rw [List.getElem?_eq_getElem inside, here]
  simp only [if_true]
  rw [unpackRoot, if_neg (Nat.not_lt_zero _)]

/-- A cycle of pointers is followed for ever, since an even count never gets to the size of a message
that is too long for an `int`.
-/
theorem unpackLoop_cycle (long : 2 ^ 31 - 1 ≤ msg.length) (rounds : Nat) {s : Unpacking}
    (cycle : TransGen (PointsTo msg) s.srcp s.srcp) (even : s.checked % 2 = 0)
    : unpackLoop msg src dstsiz rounds s = none := by
  induction rounds generalizing s with
  | zero => rfl
  | succ rounds ih =>
      obtain ⟨j, points, back⟩ := TransGen.head'_iff.mp cycle
      have cycle' : TransGen (PointsTo msg) j j := TransGen.tail' back points
      obtain ⟨n, b, here, flags, second, rfl, inside⟩ := points
      have even' : wrapInt (s.checked + 2) % 2 = 0 := by
        rw [wrapInt, Int.bmod_def]
        split <;> omega
      have high := (wrapInt_bounds (s.checked + 2)).2
      rw [unpackLoop, unpackStep_pointer here flags second inside (by omega)]
      exact ih cycle' even'

theorem not_safeFrom_of_cycle (long : 2 ^ 31 - 1 ≤ msg.length) {i : Nat}
    (cycle : TransGen (PointsTo msg) i i)
    : i < msg.length ∧ ¬ SafeFrom msg dstsiz i := by
  obtain ⟨j, -, points⟩ := TransGen.tail'_iff.mp cycle
  refine ⟨points.inside, ?_⟩
  rw [safeFrom_iff points.inside]
  rintro ⟨result, ⟨rounds, ended⟩, -⟩
  rw [unpackLoop_cycle long rounds cycle rfl] at ended
  cases ended

-----------------------------------------------------------------------------------------
-- The messages that are safe
-----------------------------------------------------------------------------------------

end BSDLibC.Nameser
