import BSDLibC.Memmem.Search
import BSDLibC.Words.MaximalSuffix

/-! The maximal suffixes that `memmem` looks for, and its plan for the search. -/

namespace BSDLibC.Memmem
open BSDLibC.Words

variable {w : Nat} {n : List UInt8}

/-- The value of `ip` and `ms` for a suffix that starts at the place `i`. -/
def back (w i : Nat) : Nat := if i = 0 then 2 ^ w - 1 else i - 1

theorem sum_eq {a b : Nat} (fits : a + b < 2 ^ w) : sum w a b = some (a + b) := if_pos fits

theorem diff_eq {a b : Nat} (le : b ≤ a) : diff a b = some (a - b) := if_pos le

theorem wrapSum_back {i k : Nat} (some : 0 < k) (fits : i + k ≤ 2 ^ w)
    : wrapSum w (back w i) k = i + k - 1 := by
  rw [wrapSum, back]
  split
  next zero =>
    subst zero
    rw [(by omega : 2 ^ w - 1 + k = k - 1 + 2 ^ w), Nat.add_mod_right, Nat.mod_eq_of_lt (by omega)]
    omega
  next =>
    rw [Nat.mod_eq_of_lt (by omega)]
    omega

theorem wrapDiff_back {i j : Nat} (le : i ≤ j + 1) (fits : j + 1 < 2 ^ w)
    : wrapDiff w j (back w i) = j + 1 - i := by
  rw [wrapDiff, back]
  split
  next zero =>
    subst zero
    rw [(by omega : j + (2 ^ w - (2 ^ w - 1)) = j + 1), Nat.mod_eq_of_lt fits]
    rfl
  next =>
    rw [(by omega : j + (2 ^ w - (i - 1)) = j + 1 - i + 2 ^ w), Nat.add_mod_right,
      Nat.mod_eq_of_lt (by omega)]

/-- The variables of the loop while the scan is at its place `jp + k`, in a block that has begun
behind `jp`.
-/
structure Scan.At (w : Nat) (lt : UInt8 → UInt8 → Prop) (n : List UInt8) (scan : Scan) (i t : Nat)
    : Prop where
  ip : scan.ip = back w i
  some : 0 < t
  jp : scan.jp + 1 = i + t * scan.p
  first : 0 < scan.k
  last : scan.k ≤ scan.p
  scanned : Scanned lt n i (scan.jp + scan.k) scan.p

section

variable {lt : UInt8 → UInt8 → Prop} (above : UInt8 → UInt8 → Bool) (order : StrictOrder lt)
  (agree : ∀ a b, above a b = true ↔ lt b a) (total : ∀ a b, a ≠ b → ¬ lt b a → lt a b)
  (small : n.length < 2 ^ w)

include order agree total small

/-- The loop ends with the suffix that comes last: each round moves the place or the candidate up. -/
theorem maximalSuffix_spec {bound i t : Nat} {scan : Scan} (h : scan.At w lt n i t)
    (enough : 2 * n.length < i + scan.jp + scan.k + bound)
    : ∃ scan' i', maximalSuffix w above n bound scan = .some scan' ∧ scan'.ip = back w i'
      ∧ Scanned lt n i' n.length scan'.p := by
  induction bound generalizing i t scan with
  | zero =>
      have := h.scanned.inside
      have := h.scanned.block
      have := h.scanned.pos
      omega
  | succ bound ih =>
      obtain ⟨ip, jp, k, p⟩ := scan
      have ⟨hip, begins, hjp, first, last, scanned⟩ := h
      simp only at hip hjp first last scanned enough
      have inside := scanned.inside
      have begun : i + t * p ≤ jp + k := by omega
      have one : p ≤ t * p := Nat.le_mul_of_pos_left p begins
      rw [maximalSuffix, sum_eq (by omega)]
      simp only [Option.bind_eq_bind, Option.bind_some]
      split
      next more =>
        have told := scanned.foretold t begins begun
        rw [hip, wrapSum_back first (by omega), (by omega : i + k - 1 = jp + k - t * p), told]
        have place := List.getElem?_eq_getElem more
        obtain ⟨a, foretold⟩ : ∃ a, n[jp + k - p]? = .some a :=
          ⟨n[jp + k - p], List.getElem?_eq_getElem (by omega)⟩
        rw [foretold, place]
        simp only [Option.bind_some]
        split
        next same =>
          have next := scanned.extend more (by rw [place, foretold, same])
          split
          next whole =>
            rw [sum_eq (by omega), Option.bind_some]
            refine ih (i := i) (t := t + 1) ⟨rfl, Nat.succ_pos t, ?_, Nat.one_pos, ?_, ?_⟩ ?_
            · simp only [Nat.add_mul, Nat.one_mul]
              omega
            · exact scanned.pos
            · simp only [whole] at next ⊢
              exact next
            · simp only
              omega
          next part =>
            rw [sum_eq (by omega), Option.bind_some]
            refine ih (i := i) (t := t) ⟨rfl, begins, hjp, Nat.succ_pos k, ?_, next⟩ ?_
            · simp only
              omega
            · simp only
              omega
        next other =>
          split
          next greater =>
            have next := scanned.grow order more
              (by rw [place, foretold]; exact (agree a _).mp greater)
            rw [wrapDiff_back (by omega) (by omega)]
            refine ih (i := i) (t := 1) ⟨rfl, Nat.one_pos, ?_, Nat.one_pos, ?_, next⟩ ?_
            · simp only
              omega
            · exact next.pos
            · simp only
              omega
          next notGreater =>
            have next := scanned.restart order more begins begun (by omega)
              (by rw [place, foretold]; exact total a _ other fun h => notGreater ((agree a _).mpr h))
            rw [sum_eq (by omega), Option.bind_some]
            refine ih (i := jp + 1) (t := 1) ⟨?_, Nat.one_pos, rfl, Nat.one_pos, Nat.le_refl 1, ?_⟩ ?_
            · simp [back]
            · rw [← hjp] at next
              exact next
            · simp only
              omega
      next done =>
        have ended : jp + k = n.length := by omega
        exact ⟨_, i, rfl, hip, ended ▸ scanned⟩

theorem maximalSuffixOf_spec (nonempty : 0 < n.length)
    : ∃ i p, maximalSuffixOf w above n = .some (back w i, p) ∧ Scanned lt n i n.length p := by
  have start : Scan.At w lt n ⟨2 ^ w - 1, 0, 1, 1⟩ 0 1 :=
    ⟨rfl, Nat.one_pos, rfl, Nat.one_pos, Nat.le_refl 1, Scanned.start nonempty⟩
  obtain ⟨scan, i, loop, ip, scanned⟩ := maximalSuffix_spec above order agree total small start
    (by omega : 2 * n.length < 0 + 0 + 1 + (2 * n.length + 1))
  exact ⟨i, scan.p, by simp [maximalSuffixOf, loop, ip], scanned⟩

end

-----------------------------------------------------------------------------------------
-- The plan
-----------------------------------------------------------------------------------------

/-- What the search needs of its plan, where the needle is divided at the place `c`. -/
structure Plan.Good (w : Nat) (n : List UInt8) (plan : Plan) (c : Nat) : Prop where
  ms : plan.ms = back w c
  inside : c < n.length
  pos : 0 < plan.p
  fits : plan.p ≤ n.length
  long (r : Nat) : 0 < r → LocalPeriod n c r → c < r
  whole (r : Nat) : 0 < r → LocalPeriod n c r → PeriodFrom n 0 r
  least (r : Nat) : 0 < r → PeriodFrom n 0 r → plan.p ≤ r
  memory : plan.mem0 ≠ 0 → plan.mem0 = n.length - plan.p ∧ PeriodFrom n 0 plan.p

/-- Two slices at a distance `p` are the same exactly when the period of the suffix is one of the
word.
-/
theorem slices_eq_iff {c p : Nat} (factored : Factored n c p)
    : (n.drop 0).take c = (n.drop p).take c ↔ PeriodFrom n 0 p := by
  have inside := factored.inside
  constructor
  · intro same i first last
    by_cases late : c + p ≤ i
    · exact factored.suffix i late last
    · have here := congrArg (·[i - p]?) same
      simp only [List.drop_zero, List.getElem?_take, List.getElem?_drop] at here
      rw [if_pos (by omega), if_pos (by omega), (by omega : p + (i - p) = i)] at here
      exact here.symm
  · intro period
    refine List.ext_getElem? fun i => ?_
    simp only [List.drop_zero, List.getElem?_take, List.getElem?_drop]
    split
    next less =>
      rw [period (p + i) (by omega) (by omega)]
      congr 1
      omega
    next => rfl

/-- The test of the period leads to a good plan. -/
theorem periodic_spec {c p : Nat} (factored : Factored n c p) (small : n.length < 2 ^ w)
    : ∃ plan, periodic w n (back w c) p = some plan ∧ plan.Good w n c := by
  have pos := factored.pos
  have inside := factored.inside
  rw [periodic, wrapSum_back Nat.one_pos (by omega), Nat.add_sub_cancel, slice, slice,
    if_pos (by omega), if_pos (by omega)]
  simp only [Option.bind_eq_bind, Option.bind_some]
  split
  next other =>
    have some : c ≠ 0 := by
      rintro rfl
      exact other (by simp)
    have short := factored.no_short_period fun period => other ((slices_eq_iff factored).mpr period)
    have left : back w c = c - 1 := if_neg some
    have right : wrapDiff w (wrapDiff w n.length (back w c)) 1 = n.length - c := by
      rw [wrapDiff, wrapDiff, left,
        (by omega : n.length + (2 ^ w - (c - 1)) = n.length - (c - 1) + 2 ^ w), Nat.add_mod_right,
        Nat.mod_eq_of_lt (by omega : n.length - (c - 1) < 2 ^ w),
        (by omega : n.length - (c - 1) + (2 ^ w - 1) = n.length - c + 2 ^ w), Nat.add_mod_right,
        Nat.mod_eq_of_lt (by omega)]
    rw [right, left, sum_eq (by omega), Option.bind_some]
    refine ⟨_, rfl, ?_⟩
    constructor
    case ms => exact left.symm
    case inside => omega
    case pos => exact Nat.succ_pos _
    case fits => simp only; omega
    case long => exact factored.long
    case whole => exact factored.whole
    case least =>
      intro r some period
      have long := factored.long r some period.local
      have far : ¬ c + r ≤ n.length := fun fits => short r some fits period
      simp only
      omega
    case memory => exact fun absurd => by simp at absurd
  next same =>
    have period := (slices_eq_iff factored).mp (not_not.mp same)
    rw [diff_eq (by omega), Option.bind_some]
    refine ⟨_, rfl, ?_⟩
    constructor
    case ms => rfl
    case inside => omega
    case pos => exact pos
    case fits => simp only; omega
    case long => exact factored.long
    case whole => exact factored.whole
    case least => exact fun r some whole => factored.least r some whole.mono
    case memory => exact fun _ => ⟨rfl, period⟩

theorem strictOrder_lt : StrictOrder (fun a b : UInt8 => a < b) :=
  ⟨UInt8.lt_irrefl, fun _ _ _ => UInt8.lt_trans⟩

/-- The later of the two maximal suffixes divides the needle. -/
theorem prepare_spec (nonempty : 0 < n.length) (small : n.length < 2 ^ w)
    : ∃ plan c, prepare w n = some plan ∧ plan.Good w n c := by
  obtain ⟨i, p, first, scanned⟩ := maximalSuffixOf_spec (fun a b => a > b) strictOrder_lt
    (fun a b => by simp) (fun a b ne not => UInt8.lt_of_le_of_ne (UInt8.not_lt.mp not) ne) small
    nonempty
  obtain ⟨i', p', second, scanned'⟩ := maximalSuffixOf_spec (fun a b => a < b)
    strictOrder_lt.reverse (fun a b => by simp)
    (fun a b ne not => UInt8.lt_of_le_of_ne (UInt8.not_lt.mp not) ne.symm) small nonempty
  have block := scanned.block
  have block' := scanned'.block
  rw [prepare, first, second]
  simp only [Option.bind_eq_bind, Option.bind_some]
  rw [wrapSum_back Nat.one_pos (by omega), wrapSum_back Nat.one_pos (by omega)]
  split
  next later =>
    have factored := scanned'.factored strictOrder_lt.reverse (scanned.maximal rfl) (by omega)
    obtain ⟨plan, made, good⟩ := periodic_spec factored small
    exact ⟨plan, i', made, good⟩
  next =>
    have factored := scanned.factored strictOrder_lt (scanned'.maximal rfl) (by omega)
    obtain ⟨plan, made, good⟩ := periodic_spec factored small
    exact ⟨plan, i, made, good⟩

end BSDLibC.Memmem
