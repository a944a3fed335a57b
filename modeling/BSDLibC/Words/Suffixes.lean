import Mathlib.Algebra.Order.Ring.Nat
import Mathlib.Data.List.Basic
import Mathlib.Tactic.Common

/-! The order of the suffixes of a word, and the periods of a word. A suffix is given by the place
where it starts.
-/

namespace BSDLibC.Words

variable {α : Type*}

/-- A strict order of the letters. -/
structure StrictOrder (lt : α → α → Prop) : Prop where
  irrefl (a : α) : ¬ lt a a
  trans (a b c : α) : lt a b → lt b c → lt a c

/-- The order of the letters, with the end of the word before all of them. -/
def Earlier (lt : α → α → Prop) : Option α → Option α → Prop
  | none, some _ => True
  | some a, some b => lt a b
  | _, none => False

/-- One suffix comes before another in the order of a dictionary. -/
def SuffixLt (lt : α → α → Prop) (n : List α) (s t : Nat) : Prop :=
  ∃ q, (∀ j < q, n[s + j]? = n[t + j]?) ∧ Earlier lt n[s + q]? n[t + q]?

/-- The suffix that comes after all others. -/
def MaximalAt (lt : α → α → Prop) (n : List α) (c : Nat) : Prop := ∀ s, s ≠ c → SuffixLt lt n s c

section

variable {lt : α → α → Prop} (order : StrictOrder lt) {n : List α} {x y z : Option α} {s t u : Nat}

include order

theorem Earlier.ne (earlier : Earlier lt x y) : x ≠ y := by
  rintro rfl
  cases x with
  | none => exact earlier
  | some a => exact order.irrefl a earlier

theorem Earlier.trans (first : Earlier lt x y) (second : Earlier lt y z) : Earlier lt x z := by
  cases x <;> cases y <;> cases z <;> simp only [Earlier] at *
  exact order.trans _ _ _ first second

theorem SuffixLt.trans (first : SuffixLt lt n s t) (second : SuffixLt lt n t u)
    : SuffixLt lt n s u := by
  obtain ⟨q, same, less⟩ := first
  obtain ⟨q', same', less'⟩ := second
  rcases Nat.lt_trichotomy q q' with before | rfl | after
  · refine ⟨q, fun j inside => ?_, same' q before ▸ less⟩
    exact (same j inside).trans (same' j (by omega))
  · exact ⟨q, fun j inside => (same j inside).trans (same' j inside), less.trans order less'⟩
  · refine ⟨q', fun j inside => ?_, (same q' after).symm ▸ less'⟩
    exact (same j (by omega)).trans (same' j inside)

theorem SuffixLt.irrefl : ¬ SuffixLt lt n s s := by
  rintro ⟨q, _, less⟩
  exact less.ne order rfl

theorem SuffixLt.asymm (first : SuffixLt lt n s t) : ¬ SuffixLt lt n t s :=
  fun second => SuffixLt.irrefl order (first.trans order second)

end

-----------------------------------------------------------------------------------------
-- Periods
-----------------------------------------------------------------------------------------

/-- Letters at a distance `r` are the same, from the place `c` on. -/
def PeriodFrom (n : List α) (c r : Nat) : Prop :=
  ∀ i, c + r ≤ i → i < n.length → n[i]? = n[i - r]?

/-- The letters at a distance `r` across the place `c` are the same. -/
def LocalPeriod (n : List α) (c r : Nat) : Prop :=
  ∀ i, c ≤ i → i < c + r → r ≤ i → i < n.length → n[i]? = n[i - r]?

section

variable {n : List α} {c c' r p : Nat}

theorem PeriodFrom.local (period : PeriodFrom n 0 r) : LocalPeriod n c r := by
  intro i _ _ first last
  exact period i (by omega) last

theorem PeriodFrom.mono (period : PeriodFrom n 0 r) : PeriodFrom n c r := by
  intro i first last
  exact period i (by omega) last

/-- A period of the suffix that is less than one of the word makes a local period of what is left. -/
theorem PeriodFrom.sub (period : PeriodFrom n 0 r) (suffix : PeriodFrom n c p) (less : p < r)
    (inside : c + r ≤ n.length)
    : LocalPeriod n c (r - p) := by
  intro i low high first last
  have across := period (i - (r - p) + r) (by omega) (by omega)
  have within := suffix (i + p) (by omega) (by omega)
  rw [Nat.add_sub_cancel] at across within
  rw [← within, ← across]
  congr 1
  omega

variable {lt : α → α → Prop} (order : StrictOrder lt)

include order

theorem StrictOrder.reverse : StrictOrder (fun a b => lt b a) :=
  ⟨order.irrefl, fun a b c first second => order.trans c b a second first⟩

/-- Letters that are ordered in both ways are none: the word ends there. -/
theorem Earlier.none_of_both {x y : Option α} (first : Earlier lt x y)
    (second : Earlier (fun a b => lt b a) x y)
    : x = none := by
  cases x <;> cases y <;> simp only [Earlier] at *
  exact absurd (order.trans _ _ _ first second) (order.irrefl _)

variable (max : MaximalAt lt n c) (inside : c < n.length) (pos : 0 < r)

include max inside pos

/-- Across the start of the suffix that comes last, a local period is longer than what stands before
it.
-/
theorem LocalPeriod.long (localPeriod : LocalPeriod n c r) : c < r := by
  by_contra short
  have short : r ≤ c := Nat.le_of_not_lt short
  have moved := max (c - r) (by omega)
  by_cases fits : c + r < n.length
  · obtain ⟨q, same, less⟩ := moved
    have far : r ≤ q := by
      by_contra near
      refine less.ne order ?_
      rw [localPeriod (c + q) (by omega) (by omega) (by omega) (by omega)]
      congr 1
      omega
    refine (max (c + r) (by omega)).asymm order ⟨q - r, fun j before => ?_, ?_⟩
    · have here := same (j + r) (by omega)
      rw [(by omega : c - r + (j + r) = c + j)] at here
      rw [here]
      congr 1
      omega
    · rw [(by omega : c - r + q = c + (q - r))] at less
      rwa [(by omega : c + r + (q - r) = c + q)]
  · refine moved.asymm order ⟨n.length - c, fun j before => ?_, ?_⟩
    · rw [localPeriod (c + j) (by omega) (by omega) (by omega) (by omega)]
      congr 1
      omega
    · rw [List.getElem?_eq_none (by omega), List.getElem?_eq_getElem (by omega)]
      trivial

/-- The critical factorisation: across the later of the suffixes that come last in an order and in its
reverse, a local period is a period of the word.
-/
theorem LocalPeriod.period (max' : MaximalAt (fun a b => lt b a) n c') (later : c' ≤ c)
    (localPeriod : LocalPeriod n c r)
    : PeriodFrom n 0 r := by
  have long := localPeriod.long order max inside pos
  intro i first last
  by_cases across : i < c + r
  · exact localPeriod i (by omega) across (by omega) last
  obtain ⟨q, same, less⟩ := max (c + r) (by omega)
  obtain ⟨q', same', less'⟩ := max' (c' + r) (by omega)
  have ne := less.ne order
  have ne' := less'.ne order.reverse
  -- Both comparisons meet the same first difference.
  have far : c - c' ≤ q' := by
    by_contra near
    refine ne' ?_
    rw [localPeriod (c' + r + q') (by omega) (by omega) (by omega) (by omega)]
    congr 1
    omega
  have meet : c' + q' = c + q := by
    rcases Nat.lt_trichotomy (c' + q') (c + q) with before | together | after
    · have here := same (c' + q' - c) (by omega)
      rw [(by omega : c + r + (c' + q' - c) = c' + r + q'),
        (by omega : c + (c' + q' - c) = c' + q')] at here
      exact absurd here ne'
    · exact together
    · have here := same' (c + q - c') (by omega)
      rw [(by omega : c' + r + (c + q - c') = c + r + q),
        (by omega : c' + (c + q - c') = c + q)] at here
      exact absurd here ne
  rw [meet, (by omega : c' + r + q' = c + r + q)] at less'
  have ended := List.getElem?_eq_none_iff.mp (less.none_of_both order less')
  have here := same (i - (c + r)) (by omega)
  rw [(by omega : c + r + (i - (c + r)) = i)] at here
  rw [here]
  congr 1
  omega

end

end BSDLibC.Words
