import BSDLibC.Sorting.Arrays
import Mathlib.Data.Nat.Log
import Mathlib.Data.Nat.Factorization.Basic

/-! The galloping search of `mergesort_r` and the copying behind it, from the label `EXPONENTIAL`
to the last element copied. Pointers are byte offsets from the start of a run, and the variable
`i` is a 64-bit word.
-/

namespace BSDLibC.Mergesort
open BSDLibC.Sorting

variable {α : Type*}

/-- `(*cmp)(q, p, cookie) <= sense`, or nothing where no element starts at `p`. -/
def reached (cmp : α → α → Int) (q : α) (sense : Int) (size : Nat) (run : List α) (p : Nat)
    : Option Bool :=
  if p % size = 0 then
    run[p / size]?.map (fun x => decide (cmp q x ≤ sense))
  else
    none

/-- `SLOWCASE`: the value that `b` gets from `t` at `COPY`. -/
def slowcase (reached : Nat → Option Bool) (size : Nat) : Nat → Nat → Nat → Option Nat
  | 0, _, _ => none
  | fuel + 1, b, t =>
      if t > b + size then do
        let i := (((t - b) / size) >>> 1) * size
        let p := b + i
        if ← reached p then
          slowcase reached size fuel b p
        else
          slowcase reached size fuel p t
      else
        some t

/-- `FASTCASE`, where `i` is halved as an `unsigned int`. -/
def fastcase (reached : Nat → Option Bool) (size : Nat) : Nat → Nat → Nat → Nat → Option Nat
  | 0, _, _, _ => none
  | fuel + 1, b, t, i =>
      if i > size then do
        let i := (i % 2 ^ 32) >>> 1
        let p := b + i
        if ← reached p then
          fastcase reached size fuel b p i
        else
          fastcase reached size fuel p t i
      else
        some t

/-- `EXPONENTIAL`: the final `b`, and whether `big` is still set. -/
def exponential (reached : Nat → Option Bool) (size t : Nat)
    : Nat → Nat → Nat → Option (Nat × Bool)
  | 0, _, _ => none
  | fuel + 1, b, i =>
      let p := b + i
      if p ≥ t then do
        let p := t - size
        if p > b then
          if ← reached p then
            return (← slowcase reached size 65 b p, true)
          else
            return (← slowcase reached size 65 p t, true)
        else
          return (← slowcase reached size 65 p t, true)
      else do
        if ← reached p then
          return (← fastcase reached size 65 b p i, i ≠ size)
        else
          exponential reached size t fuel p ((i <<< 1) % 2 ^ 64)

/-- The search from the element with number `first`; 65 rounds of each loop are enough. -/
def gallop (cmp : α → α → Int) (q : α) (sense : Int) (size : Nat) (run : List α) (first : Nat)
    : Option (Nat × Bool) :=
  exponential (reached cmp q sense size run) size (size * run.length) 65 (size * first) size

/-- `ICOPY_LIST` or `CCOPY_LIST`, as the bytes that are copied. -/
def copyList (iflag : Bool) (bytes : List UInt8) (src last : Nat) : List UInt8 :=
  let step := if iflag then 4 else 1
  (bytes.drop src).take step
    ++ if src + step < last then copyList iflag bytes (src + step) last else []
termination_by last - src
decreasing_by split <;> omega

-----------------------------------------------------------------------------------------
-- The loops, between element numbers
-----------------------------------------------------------------------------------------

/-- Looking at element number `k` tells whether the wanted one, `a`, is not behind it. -/
def Locates (reached : Nat → Option Bool) (size n a : Nat) : Prop :=
  (∀ k < n, reached (size * k) = some (decide (a ≤ k)))
  ∧ ∀ p, p % size ≠ 0 → reached p = none

section

variable {reached : Nat → Option Bool} {size n a : Nat} (look : Locates reached size n a)
  (positive : 0 < size)

include look positive

/-- Halving the distance between two element numbers finds the one in between. -/
theorem slowcase_eq {fuel lo hi : Nat} (above : lo < a) (below : a ≤ hi) (inside : hi ≤ n)
    (near : hi - lo ≤ 2 ^ fuel)
    : slowcase reached size (fuel + 1) (size * lo) (size * hi) = some (size * a) := by
  induction fuel generalizing lo hi with
  | zero =>
      obtain rfl : hi = a := by omega
      have next : ¬ size * hi > size * lo + size := by
        rw [← Nat.mul_succ]
        exact Nat.not_lt.mpr (Nat.mul_le_mul_left size (by omega))
      rw [slowcase, if_neg next]
  | succ fuel ih =>
      rw [slowcase]
      have power : 2 ^ (fuel + 1) = 2 * 2 ^ fuel := Nat.pow_succ'
      split
      case isTrue far =>
        rw [← Nat.mul_succ] at far
        have apart := Nat.lt_of_mul_lt_mul_left far
        have middle : size * lo + ((size * hi - size * lo) / size) >>> 1 * size
            = size * (lo + (hi - lo) / 2) := by
          rw [← Nat.mul_sub, Nat.mul_div_cancel_left _ positive, Nat.shiftRight_eq_div_pow,
            Nat.mul_add, Nat.mul_comm size ((hi - lo) / 2)]
        simp only [middle, look.1 _ (show lo + (hi - lo) / 2 < n by omega), Option.bind_eq_bind,
          Option.bind_some, decide_eq_true_eq]
        split
        case isTrue reached => exact ih above reached (by omega) (by omega)
        case isFalse beyond => exact ih (by omega) below inside (by omega)
      case isFalse near =>
        rw [← Nat.mul_succ, not_lt, Nat.mul_le_mul_left_iff positive] at near
        rw [show a = hi by omega]

/-- As long as the distance is a number of bytes below `2 ^ 32`, `FASTCASE` halves it exactly. -/
theorem fastcase_eq {fuel r lo : Nat} (above : lo < a) (below : a ≤ lo + 2 ^ r)
    (inside : lo + 2 ^ r ≤ n) (small : size * 2 ^ r < 2 ^ 32 ∨ r = 0) (enough : r ≤ fuel)
    : fastcase reached size (fuel + 1) (size * lo) (size * (lo + 2 ^ r)) (size * 2 ^ r)
      = some (size * a) := by
  induction fuel generalizing r lo with
  | zero =>
      obtain rfl : r = 0 := by omega
      rw [fastcase, if_neg (by simp), show a = lo + 2 ^ 0 by omega]
  | succ fuel ih =>
      cases r with
      | zero => rw [fastcase, if_neg (by simp), show a = lo + 2 ^ 0 by omega]
      | succ r =>
          have power : 2 ^ (r + 1) = 2 * 2 ^ r := Nat.pow_succ'
          have some := Nat.two_pow_pos r
          have fits : size * 2 ^ (r + 1) < 2 ^ 32 := by omega
          have half : (size * 2 ^ (r + 1) % 2 ^ 32) >>> 1 = size * 2 ^ r := by
            rw [Nat.mod_eq_of_lt fits, Nat.shiftRight_eq_div_pow, power, Nat.mul_left_comm]
            omega
          have less : size * 2 ^ r < 2 ^ 32 := by
            rw [power, Nat.mul_left_comm] at fits
            omega
          have more : size * 2 ^ (r + 1) > size := by
            rw [power, Nat.mul_left_comm]
            have := Nat.le_mul_of_pos_right size some
            omega
          rw [fastcase, if_pos more]
          simp only [half, ← Nat.mul_add, look.1 _ (show lo + 2 ^ r < n by omega),
            Option.bind_eq_bind, Option.bind_some, decide_eq_true_eq]
          split
          case isTrue reached =>
            exact ih above reached (by omega) (Or.inl less) (by omega)
          case isFalse beyond =>
            rw [show lo + 2 ^ (r + 1) = lo + 2 ^ r + 2 ^ r by omega]
            exact ih (by omega) (by omega) (by omega) (Or.inl less) (by omega)

/-- Where the cast leaves nothing of the distance, the search stops at once. -/
theorem fastcase_zero {fuel K lo hi : Nat} (above : lo < a) (inside : lo < n)
    (large : size < size * 2 ^ K) (cut : 2 ^ 32 ∣ size * 2 ^ K)
    : fastcase reached size (fuel + 2) (size * lo) hi (size * 2 ^ K) = some hi := by
  have nothing : (size * 2 ^ K % 2 ^ 32) >>> 1 = 0 := by
    rw [Nat.mod_eq_zero_of_dvd cut]
    rfl
  rw [fastcase, if_pos large]
  simp only [nothing, Nat.add_zero, look.1 lo inside, Option.bind_eq_bind, Option.bind_some,
    decide_eq_true_eq]
  rw [if_neg (by omega), fastcase, if_neg (by omega)]

end

/-- Where the cast leaves a part of the distance only, it leads between two elements. -/
theorem stray {size K : Nat} (some : 0 < K) (large : 2 ^ 32 ≤ size * 2 ^ K)
    (rest : ¬ 2 ^ 32 ∣ size * 2 ^ K)
    : ¬ size ∣ (size * 2 ^ K % 2 ^ 32) >>> 1 := by
  intro whole
  have split := Nat.div_add_mod (size * 2 ^ K) (2 ^ 32)
  have left : size * 2 ^ K % 2 ^ 32 ≠ 0 := fun none => rest (Nat.dvd_of_mod_eq_zero none)
  have even : size * 2 ^ K % 2 ^ 32 = 2 * ((size * 2 ^ K % 2 ^ 32) >>> 1) := by
    obtain ⟨k, rfl⟩ := Nat.exists_eq_succ_of_ne_zero (Nat.ne_of_gt some)
    rw [Nat.shiftRight_eq_div_pow, Nat.pow_succ', Nat.mul_left_comm]
    omega
  -- What the cast cut off is a multiple of the size too, but by less than `2 ^ K`.
  have low : size ∣ size * 2 ^ K % 2 ^ 32 := by
    rw [even]
    exact whole.mul_left 2
  obtain ⟨w, hw⟩ : size ∣ 2 ^ 32 * (size * 2 ^ K / 2 ^ 32) := by
    rw [Nat.dvd_add_iff_left low, split]
    exact Nat.dvd_mul_right _ _
  have fewer : w < 2 ^ K := by
    refine Nat.lt_of_mul_lt_mul_left (a := size) ?_
    omega
  have nonzero : w ≠ 0 := by
    rintro rfl
    have : 0 < size * 2 ^ K / 2 ^ 32 := Nat.div_pos large (by decide)
    omega
  obtain ⟨v, o, odd, rfl⟩ := Nat.exists_eq_two_pow_mul_odd nonzero
  have exponent : v < K := by
    refine (Nat.pow_lt_pow_iff_right (by decide : 1 < 2)).mp (lt_of_le_of_lt ?_ fewer)
    exact Nat.le_mul_of_pos_right _ odd.pos
  have divides : 2 ^ 32 ∣ size * 2 ^ v * o := by
    rw [Nat.mul_assoc, ← hw]
    exact Nat.dvd_mul_right _ _
  have coprime : Nat.Coprime (2 ^ 32) o := Nat.Coprime.pow_left 32 (Nat.coprime_two_left.mpr odd)
  exact rest ((coprime.dvd_of_dvd_mul_right divides).trans
    (Nat.mul_dvd_mul_left size (Nat.pow_dvd_pow 2 exponent.le)))

section

variable {reached : Nat → Option Bool} {size n a : Nat} (look : Locates reached size n a)
  (positive : 0 < size)

include look positive

theorem fastcase_stray {fuel K lo hi : Nat} (some : 0 < K) (large : 2 ^ 32 ≤ size * 2 ^ K)
    (rest : ¬ 2 ^ 32 ∣ size * 2 ^ K)
    : fastcase reached size (fuel + 1) (size * lo) hi (size * 2 ^ K) = none := by
  have more : size * 2 ^ K > size := by
    obtain ⟨k, rfl⟩ := Nat.exists_eq_succ_of_ne_zero (Nat.ne_of_gt some)
    rw [Nat.pow_succ', Nat.mul_left_comm]
    have := Nat.le_mul_of_pos_right size (Nat.two_pow_pos k)
    omega
  have between : (size * lo + (size * 2 ^ K % 2 ^ 32) >>> 1) % size ≠ 0 := by
    rw [Nat.mul_add_mod]
    exact fun whole => stray some large rest (Nat.dvd_of_mod_eq_zero whole)
  rw [fastcase, if_pos more]
  simp only [look.2 _ between, Option.bind_eq_bind, Option.bind_none]

/-- The steps of `EXPONENTIAL` before the one that passes the wanted element. -/
theorem exponential_steps {fuel first k K : Nat} (fits : size * n < 2 ^ 64) (less : k ≤ K)
    (before : first + 2 ^ K ≤ a) (inside : a ≤ n)
    : exponential reached size (size * n) (fuel + (K - k)) (size * (first + 2 ^ k - 1))
        (size * 2 ^ k)
      = exponential reached size (size * n) fuel (size * (first + 2 ^ K - 1)) (size * 2 ^ K) := by
  induction less using Nat.decreasingInduction with
  | self => rw [Nat.sub_self, Nat.add_zero]
  | of_succ k less ih =>
      have power : 2 ^ (k + 1) = 2 * 2 ^ k := Nat.pow_succ'
      have grows : 2 ^ (k + 1) ≤ 2 ^ K := Nat.pow_le_pow_right (by decide) less
      have some := Nat.two_pow_pos k
      have next : size * (first + 2 ^ k - 1) + size * 2 ^ k = size * (first + 2 ^ (k + 1) - 1) := by
        rw [← Nat.mul_add]
        congr 1
        omega
      have short : ¬ size * (first + 2 ^ (k + 1) - 1) ≥ size * n :=
        Nat.not_le.mpr (Nat.mul_lt_mul_of_pos_left (by omega) positive)
      have doubled : (size * 2 ^ k) <<< 1 % 2 ^ 64 = size * 2 ^ (k + 1) := by
        have := Nat.mul_le_mul_left size (show 2 ^ (k + 1) ≤ n by omega)
        rw [Nat.shiftLeft_eq, Nat.mul_assoc, ← Nat.pow_add]
        exact Nat.mod_eq_of_lt (by omega)
      have not : ¬ a ≤ first + 2 ^ (k + 1) - 1 := by omega
      rw [show fuel + (K - k) = fuel + (K - (k + 1)) + 1 by omega, exponential]
      simp only [next, if_neg short, look.1 _ (show first + 2 ^ (k + 1) - 1 < n by omega), not,
        decide_false, Option.bind_eq_bind, Option.bind_some, Bool.false_eq_true, if_false, doubled]
      exact ih

/-- The step that leaves the run searches what is left of it to the end. -/
theorem exponential_slow {fuel first K : Nat} (fits : size * n < 2 ^ 64)
    (before : first + 2 ^ K ≤ a) (inside : a ≤ n) (leaves : n ≤ first + 2 ^ (K + 1) - 1)
    : exponential reached size (size * n) (fuel + 1) (size * (first + 2 ^ K - 1)) (size * 2 ^ K)
      = some (size * a, true) := by
  have some := Nat.two_pow_pos K
  have next : size * (first + 2 ^ K - 1) + size * 2 ^ K = size * (first + 2 ^ (K + 1) - 1) := by
    rw [← Nat.mul_add, Nat.pow_succ']
    congr 1
    omega
  have last : size * n - size = size * (n - 1) := by rw [Nat.mul_sub, Nat.mul_one]
  have few : n ≤ 2 ^ 64 := by
    have := Nat.le_mul_of_pos_left n positive
    omega
  rw [exponential]
  simp only [next, ge_iff_le, if_pos (Nat.mul_le_mul_left size leaves), last,
    look.1 (n - 1) (by omega), Option.bind_eq_bind, Option.bind_some, decide_eq_true_eq]
  split
  case isTrue apart =>
    split
    case isTrue reached =>
      rw [slowcase_eq look positive (by omega) reached (by omega) (by omega)]
      rfl
    case isFalse beyond =>
      rw [slowcase_eq look positive (by omega) inside (Nat.le_refl n) (by omega)]
      rfl
  case isFalse together =>
    have less := Nat.le_of_mul_le_mul_left (Nat.not_lt.mp together) positive
    rw [slowcase_eq look positive (by omega) inside (Nat.le_refl n) (by omega)]
    rfl

/-- The step that passes the wanted element inside the run goes on with `FASTCASE`. -/
theorem exponential_fast {fuel first K : Nat} (passed : a ≤ first + 2 ^ (K + 1) - 1)
    (inside : first + 2 ^ (K + 1) - 1 < n)
    : exponential reached size (size * n) (fuel + 1) (size * (first + 2 ^ K - 1)) (size * 2 ^ K)
      = (fastcase reached size 65 (size * (first + 2 ^ K - 1))
          (size * (first + 2 ^ (K + 1) - 1)) (size * 2 ^ K)).map
            (fun b => (b, decide (size * 2 ^ K ≠ size))) := by
  have next : size * (first + 2 ^ K - 1) + size * 2 ^ K = size * (first + 2 ^ (K + 1) - 1) := by
    have some := Nat.two_pow_pos K
    rw [← Nat.mul_add, Nat.pow_succ']
    congr 1
    omega
  rw [exponential]
  simp only [next, ge_iff_le, if_neg (Nat.not_le.mpr (Nat.mul_lt_mul_of_pos_left inside positive)),
    look.1 _ inside, passed, decide_true, Option.bind_eq_bind, Option.bind_some, if_true]
  rw [Option.map_eq_bind]
  rfl

/-- The search ends at the wanted element exactly if it does not go on with `FASTCASE`, or the
distance is exact there, or nothing of the distance is left and no element is before the wanted.
-/
theorem exponential_iff {first K : Nat} (fits : size * n < 2 ^ 64) (before : first + 2 ^ K ≤ a)
    (passed : a ≤ first + 2 ^ (K + 1) - 1) (inside : a ≤ n)
    : (∃ big, exponential reached size (size * n) 65 (size * first) size = some (size * a, big))
      ↔ (first + 2 ^ (K + 1) - 1 < n
          → size * 2 ^ K < 2 ^ 32 ∨ K = 0
            ∨ (2 ^ 32 ∣ size * 2 ^ K ∧ a = first + 2 ^ (K + 1) - 1)) := by
  have small : K < 64 := by
    have := Nat.le_mul_of_pos_left n positive
    exact (Nat.pow_lt_pow_iff_right (by decide : 1 < 2)).mp (by omega)
  have steps : exponential reached size (size * n) (64 - K + 1 + (K - 0))
        (size * (first + 2 ^ 0 - 1)) (size * 2 ^ 0)
      = exponential reached size (size * n) (64 - K + 1) (size * (first + 2 ^ K - 1))
        (size * 2 ^ K) :=
    exponential_steps look positive fits (Nat.zero_le K) before inside
  rw [show 64 - K + 1 + (K - 0) = 65 by omega, Nat.pow_zero, Nat.mul_one, Nat.add_sub_cancel]
    at steps
  rw [steps]
  rcases Nat.lt_or_ge (first + 2 ^ (K + 1) - 1) n with within | leaves
  · have some := Nat.two_pow_pos K
    have top : first + 2 ^ (K + 1) - 1 = first + 2 ^ K - 1 + 2 ^ K := by
      rw [Nat.pow_succ']
      omega
    rw [exponential_fast look positive passed within]
    simp only [within, forall_const]
    by_cases exact' : size * 2 ^ K < 2 ^ 32 ∨ K = 0
    · refine iff_of_true ?_ (exact'.imp_right Or.inl)
      rw [top, fastcase_eq look positive (by omega) (by omega) (by omega) exact' (by omega)]
      exact ⟨_, rfl⟩
    · rw [not_or, Nat.not_lt] at exact'
      have apart : 0 < K := Nat.pos_of_ne_zero exact'.2
      by_cases cut : 2 ^ 32 ∣ size * 2 ^ K
      · have large : size < size * 2 ^ K := by
          have := Nat.mul_le_mul_left size (Nat.pow_le_pow_right (by decide : 0 < 2) apart)
          omega
        rw [fastcase_zero look positive (by omega) (by omega) large cut]
        simp only [Option.map_some, Option.some.injEq, Prod.mk.injEq, exists_and_left,
          exists_eq', and_true]
        constructor
        · intro same
          exact Or.inr (Or.inr ⟨cut, (Nat.eq_of_mul_eq_mul_left positive same).symm⟩)
        · rintro (less | zero | ⟨-, same⟩)
          · omega
          · omega
          · rw [same]
      · rw [fastcase_stray look positive apart exact'.1 cut]
        refine iff_of_false (by simp) ?_
        rintro (less | zero | ⟨divides, -⟩)
        · omega
        · omega
        · exact cut divides
  · rw [exponential_slow look positive fits before inside leaves]
    refine iff_of_true ⟨_, rfl⟩ (fun within => ?_)
    omega

end

-----------------------------------------------------------------------------------------
-- Elements and their bytes
-----------------------------------------------------------------------------------------

/-- The number of the first element that is reached, or the number of elements. -/
def answer (cmp : α → α → Int) (q : α) (sense : Int) (run : List α) : Nat :=
  run.findIdx (fun x => decide (cmp q x ≤ sense))

variable {cmp : α → α → Int} {q : α} {sense : Int} {size first : Nat} {run : List α}

/-- In a sorted run, elements are reached from some element on. -/
theorem reached_of_le (order : TotalPreorder cmp) (choice : sense = -1 ∨ sense = 0) {x y : α}
    (le : cmp x y ≤ 0) (reached : cmp q x ≤ sense)
    : cmp q y ≤ sense := by
  rcases choice with rfl | rfl
  · by_contra behind
    have back : cmp y q ≤ 0 := order.ge_of_le.mpr (by omega)
    have forth := (order.flip x q).mpr (by omega)
    have := order.trans x y q le back
    omega
  · exact order.trans q x y reached le

/-- Looking at elements locates the answer. -/
theorem reached_locates (order : TotalPreorder cmp) (choice : sense = -1 ∨ sense = 0)
    (sorted : run.Pairwise (fun x y => cmp x y ≤ 0)) (positive : 0 < size)
    : Locates (reached cmp q sense size run) size run.length (answer cmp q sense run) := by
  refine ⟨fun k inside => ?_, fun p between => by rw [reached, if_neg between]⟩
  rw [reached, if_pos (Nat.mul_mod_right size k), Nat.mul_div_cancel_left k positive,
    List.getElem?_eq_getElem inside, Option.map_some, Option.some.injEq, decide_eq_decide]
  constructor
  · intro holds
    by_contra before
    have := List.not_of_lt_findIdx (Nat.not_le.mp before)
    simp [holds] at this
  · intro least
    have found : answer cmp q sense run < run.length := by omega
    have holds : cmp q (run[answer cmp q sense run]) ≤ sense := by
      exact of_decide_eq_true (List.findIdx_getElem (w := found))
    rcases Nat.eq_or_lt_of_le least with same | less
    · simpa only [same] using holds
    · exact reached_of_le order choice (List.pairwise_iff_getElem.mp sorted _ _ found inside less)
        holds

theorem copyList_step {iflag : Bool} {step : Nat} (width : (if iflag then 4 else 1) = step)
    (bytes : List UInt8) (src last : Nat)
    : copyList iflag bytes src last
      = (bytes.drop src).take step
        ++ if src + step < last then copyList iflag bytes (src + step) last else [] := by
  subst width
  rw [copyList]

/-- Copying whole steps copies what lies between the two pointers. -/
theorem copyList_eq {iflag : Bool} {bytes : List UInt8} {src last step steps : Nat}
    (width : (if iflag then 4 else 1) = step) (whole : last = src + step * (steps + 1))
    : copyList iflag bytes src last = (bytes.drop src).take (last - src) := by
  have positive : 0 < step := by
    rw [← width]
    split <;> decide
  induction steps generalizing src with
  | zero =>
      rw [copyList_step width, if_neg (by omega), List.append_nil, whole]
      simp
  | succ steps ih =>
      have rest : last = src + step + step * (steps + 1) := by
        rw [whole, Nat.mul_succ step (steps + 1)]
        omega
      have more : src + step < last := by
        rw [rest]
        exact Nat.lt_add_of_pos_right (Nat.mul_pos positive (Nat.succ_pos steps))
      rw [copyList_step width, if_pos more, ih rest, ← List.drop_drop, ← List.take_add]
      congr 1
      omega

theorem take_flatMap {encode : α → List UInt8} (width : ∀ x, (encode x).length = size) (a : Nat)
    : (run.flatMap encode).take (size * a) = (run.take a).flatMap encode := by
  induction run generalizing a with
  | nil => simp
  | cons x rest ih =>
      cases a with
      | zero => simp
      | succ a =>
          rw [List.flatMap_cons, List.take_succ_cons, List.flatMap_cons, Nat.mul_succ,
            Nat.add_comm, ← width x, List.take_length_add_append, width x, ih]

/-- `iflag`: elements are copied by whole integers. -/
def iflagOf (base size : Nat) : Bool := size % 4 = 0 && base % 4 = 0

/-- The search ends at the first element that is reached, and exactly the elements before it are
copied.
-/
def GallopsExactly (cmp : α → α → Int) (q : α) (sense : Int) (size first base : Nat)
    (encode : α → List UInt8) (run : List α)
    : Prop :=
  (∃ big, gallop cmp q sense size run first = some (size * answer cmp q sense run, big))
  ∧ copyList (iflagOf base size) (run.flatMap encode) 0 (size * answer cmp q sense run)
    = (run.take (answer cmp q sense run)).flatMap encode

theorem copyList_answer {encode : α → List UInt8} (width : ∀ x, (encode x).length = size)
    (positive : 0 < size) {a : Nat} (some : 0 < a) (base : Nat)
    : copyList (iflagOf base size) (run.flatMap encode) 0 (size * a)
      = (run.take a).flatMap encode := by
  have divides : (if iflagOf base size then 4 else 1) ∣ size * a := by
    split
    case isTrue flag =>
      simp only [iflagOf, Bool.and_eq_true, decide_eq_true_eq] at flag
      exact (Nat.dvd_of_mod_eq_zero flag.1).mul_right a
    case isFalse => exact Nat.one_dvd _
  obtain ⟨steps, whole⟩ := divides
  have nonzero : steps ≠ 0 := by
    rintro rfl
    have := Nat.mul_pos positive some
    omega
  obtain ⟨rest, rfl⟩ := Nat.exists_eq_succ_of_ne_zero nonzero
  rw [copyList_eq rfl (by rw [Nat.zero_add]; exact whole), List.drop_zero, Nat.sub_zero,
    take_flatMap width]

/-- Where `EXPONENTIAL` stops at an element inside the run, its distance of `size * 2 ^ K` bytes is
halved exactly: it is below `2 ^ 32`, or it is not halved at all. Otherwise the cast must leave
nothing of it, and the element before must not be reached.
-/
def HalvesExactly (cmp : α → α → Int) (q : α) (sense : Int) (size first : Nat) (run : List α)
    : Prop :=
  ∀ K x y, run[first + 2 ^ K - 1]? = some x → ¬ cmp q x ≤ sense
    → run[first + 2 ^ (K + 1) - 1]? = some y → cmp q y ≤ sense
    → size * 2 ^ K < 2 ^ 32 ∨ K = 0
      ∨ (2 ^ 32 ∣ size * 2 ^ K
        ∧ ∀ z, run[first + 2 ^ (K + 1) - 2]? = some z → ¬ cmp q z ≤ sense)

/-- Whether an element is reached says on which side of it the answer is. -/
theorem reached_iff (look : Locates (reached cmp q sense size run) size run.length
      (answer cmp q sense run)) (positive : 0 < size) {k : Nat} {x : α}
    (found : run[k]? = some x)
    : cmp q x ≤ sense ↔ answer cmp q sense run ≤ k := by
  have here := look.1 k (List.getElem?_eq_some_iff.mp found).1
  rw [reached, if_pos (Nat.mul_mod_right size k), Nat.mul_div_cancel_left k positive, found,
    Option.map_some, Option.some.injEq, decide_eq_decide] at here
  exact here

/-- What the condition says at the one step that can stop inside the run. -/
theorem halvesExactly_iff (look : Locates (reached cmp q sense size run) size run.length
      (answer cmp q sense run)) (positive : 0 < size) {K : Nat}
    (before : first + 2 ^ K ≤ answer cmp q sense run)
    (passed : answer cmp q sense run ≤ first + 2 ^ (K + 1) - 1)
    : HalvesExactly cmp q sense size first run
      ↔ (first + 2 ^ (K + 1) - 1 < run.length
        → size * 2 ^ K < 2 ^ 32 ∨ K = 0
          ∨ (2 ^ 32 ∣ size * 2 ^ K
            ∧ answer cmp q sense run = first + 2 ^ (K + 1) - 1)) := by
  have some := Nat.two_pow_pos K
  have power : 2 ^ (K + 1) = 2 * 2 ^ K := Nat.pow_succ'
  constructor
  · intro halves within
    have low := List.getElem?_eq_getElem (show first + 2 ^ K - 1 < run.length by omega)
    have high := List.getElem?_eq_getElem within
    have last := List.getElem?_eq_getElem (show first + 2 ^ (K + 1) - 2 < run.length by omega)
    refine (halves K _ _ low ?_ high ?_).imp_right (Or.imp_right (And.imp_right ?_))
    · rw [reached_iff look positive low]
      omega
    · rw [reached_iff look positive high]
      exact passed
    · intro none
      have := none _ last
      rw [reached_iff look positive last] at this
      omega
  · intro exact' k x y low notYet high already
    rw [reached_iff look positive low] at notYet
    rw [reached_iff look positive high] at already
    obtain rfl : k = K := by
      have positive' := Nat.two_pow_pos k
      have least : 2 ^ K < 2 ^ (k + 1) := by omega
      have most : 2 ^ k < 2 ^ (K + 1) := by omega
      rw [Nat.pow_lt_pow_iff_right (by decide)] at least most
      omega
    refine (exact' (List.getElem?_eq_some_iff.mp high).1).imp_right
      (Or.imp_right (And.imp_right ?_))
    intro same z found
    rw [reached_iff look positive found]
    omega

/-- The search from an element that is not reached. -/
theorem gallop_iff (order : TotalPreorder cmp) (choice : sense = -1 ∨ sense = 0)
    (sorted : run.Pairwise (fun x y => cmp x y ≤ 0)) (positive : 0 < size)
    (fits : size * run.length < 2 ^ 64) (before : first < answer cmp q sense run)
    : (∃ big, gallop cmp q sense size run first = some (size * answer cmp q sense run, big))
      ↔ HalvesExactly cmp q sense size first run := by
  have look := reached_locates (q := q) order choice sorted positive
  have inside : answer cmp q sense run ≤ run.length := List.findIdx_le_length
  have low := Nat.pow_log_le_self 2 (show answer cmp q sense run - first ≠ 0 by omega)
  have high := Nat.lt_pow_succ_log_self (by decide : 1 < 2) (answer cmp q sense run - first)
  generalize Nat.log 2 (answer cmp q sense run - first) = K at low high
  have least : first + 2 ^ K ≤ answer cmp q sense run := by omega
  have most : answer cmp q sense run ≤ first + 2 ^ (K + 1) - 1 := by
    rw [Nat.succ_eq_add_one] at high
    omega
  rw [halvesExactly_iff look positive least most,
    ← exponential_iff look positive fits least most inside]
  rfl

theorem lt_answer (order : TotalPreorder cmp) (choice : sense = -1 ∨ sense = 0)
    (sorted : run.Pairwise (fun x y => cmp x y ≤ 0)) (positive : 0 < size) {x : α}
    (entry : run[first]? = some x) (before : ¬ cmp q x ≤ sense)
    : first < answer cmp q sense run := by
  rwa [reached_iff (reached_locates order choice sorted positive) positive entry, Nat.not_le]
    at before

/-- The search from an element that is not reached is exact, with the copying behind it, exactly if
the distance is halved exactly.
-/
theorem gallopsExactly_iff (order : TotalPreorder cmp) (choice : sense = -1 ∨ sense = 0)
    (sorted : run.Pairwise (fun x y => cmp x y ≤ 0)) (positive : 0 < size)
    (fits : size * run.length < 2 ^ 64) {x : α} (entry : run[first]? = some x)
    (before : ¬ cmp q x ≤ sense) (base : Nat) {encode : α → List UInt8}
    (width : ∀ x, (encode x).length = size)
    : GallopsExactly cmp q sense size first base encode run
      ↔ HalvesExactly cmp q sense size first run := by
  have less := lt_answer order choice sorted positive entry before
  rw [← gallop_iff order choice sorted positive fits less]
  exact and_iff_left (copyList_answer width positive (by omega) base)

def difference (x y : Int) : Int := x - y

theorem difference_order : TotalPreorder difference where
  flip x y := by
    simp only [difference]
    omega
  trans x y z xy yz := by
    simp only [difference] at *
    omega

/-- An element of eight bytes. -/
def eightBytes (x : Int) : List UInt8 := List.replicate 8 (UInt8.ofInt x)

/-- Five numbers, of which three are before 6. -/
theorem gallopsExactly_five
    : GallopsExactly difference 6 0 8 0 0 eightBytes [1, 3, 5, 7, 9]
      ↔ HalvesExactly difference 6 0 8 0 [1, 3, 5, 7, 9] :=
  gallopsExactly_iff difference_order (Or.inr rfl) (by decide) (by decide) (by decide)
    (x := 1) rfl (by decide) 0 (fun _ => List.length_replicate)

/-- As many zeros as twos, and one more two. -/
def longRun (n : Nat) : List Int := List.replicate n 0 ++ List.replicate (n + 1) 2

theorem length_longRun (n : Nat) : (longRun n).length = 2 * n + 1 := by
  rw [longRun, List.length_append, List.length_replicate, List.length_replicate]
  omega

theorem longRun_zero {n i : Nat} (low : i < n) : (longRun n)[i]? = some 0 := by
  rw [longRun, List.getElem?_append_left (by rwa [List.length_replicate]),
    List.getElem?_replicate_of_lt low]

theorem longRun_two {n i : Nat} (high : n ≤ i) (inside : i ≤ 2 * n) : (longRun n)[i]? = some 2 := by
  rw [longRun, List.getElem?_append_right (by rwa [List.length_replicate]), List.length_replicate,
    List.getElem?_replicate_of_lt (by omega)]

theorem longRun_sorted (n : Nat) : (longRun n).Pairwise (fun x y => difference x y ≤ 0) := by
  rw [longRun, List.pairwise_append]
  refine ⟨List.pairwise_replicate.mpr (Or.inr (by decide)),
    List.pairwise_replicate.mpr (Or.inr (by decide)), fun x left y right => ?_⟩
  rw [List.eq_of_mem_replicate left, List.eq_of_mem_replicate right]
  decide

/-- In a run of `2 ^ 30 + 1` elements of eight bytes, the distance of `2 ^ 32` bytes becomes zero
and the search ends far behind the first element that is reached.
-/
theorem longRun_not_gallopsExactly
    : TotalPreorder difference
      ∧ (longRun (2 ^ 29)).Pairwise (fun x y => difference x y ≤ 0)
      ∧ 8 * (longRun (2 ^ 29)).length < 2 ^ 64
      ∧ (longRun (2 ^ 29))[0]? = some 0
      ∧ ¬ difference 1 0 ≤ 0
      ∧ ¬ GallopsExactly difference 1 0 8 0 0 eightBytes (longRun (2 ^ 29)) := by
  have first : (longRun (2 ^ 29))[0]? = some 0 := longRun_zero (Nat.two_pow_pos 29)
  have fits : 8 * (longRun (2 ^ 29)).length < 2 ^ 64 := by
    rw [length_longRun]
    decide
  have before : ¬ difference 1 0 ≤ 0 := by decide
  refine ⟨difference_order, longRun_sorted _, fits, first, before, fun exact' => ?_⟩
  have less := lt_answer difference_order (Or.inr rfl) (longRun_sorted (2 ^ 29))
    (by decide : 0 < 8) first before
  have halves := (gallop_iff difference_order (Or.inr rfl) (longRun_sorted _) (by decide) fits
    less).mp exact'.1
  rcases halves 29 0 2 (longRun_zero (by decide)) before
      (longRun_two (by decide) (by decide)) (by decide) with small | zero | ⟨-, last⟩
  · exact absurd small (by decide)
  · cases zero
  · exact last 2 (longRun_two (by decide) (by decide)) (by decide)

end BSDLibC.Mergesort
