import BSDLibC.Qsort.Sort

/-! The size of the elements does not matter: on pointers to elements, `qsort_r` does what it does
with elements of one byte on their numbers.
-/

namespace BSDLibC.Qsort
open BSDLibC.Sorting

variable {α κ : Type} {es : Nat} (pos : 0 < es) (cmp : κ → α → α → Int × κ)

/-- A pointer in bytes from the number of an element. -/
def scaleOne (es : Nat) (result : Nat × State α κ) : Nat × State α κ := (es * result.1, result.2)

/-- Two pointers or lengths in bytes from numbers of elements. -/
def scaleTwo (es : Nat) (result : Nat × Nat × State α κ) : Nat × Nat × State α κ :=
  (es * result.1, es * result.2.1, result.2.2)

/-- Bounds in bytes from bounds in elements. -/
def Bounds.scale (es : Nat) (bounds : Bounds) : Bounds :=
  ⟨es * bounds.pa, es * bounds.pb, es * bounds.pc, es * bounds.pd⟩

def scaleBounds (es : Nat) (result : Bounds × State α κ) : Bounds × State α κ :=
  (result.1.scale es, result.2)

include pos

theorem place_scale (i : Nat) : place es (es * i) = place 1 i := by
  simp [place, Nat.mul_div_cancel_left i pos]

theorem down_scale (i : Nat) : down es (es * i) = (down 1 i).map (es * ·) := by
  cases i with
  | zero => simp [down, Nat.ne_of_gt pos]
  | succ i => simp [down, Nat.mul_succ]

theorem compare_scale (i j : Nat) (s : State α κ)
    : compare es cmp (es * i) (es * j) s = compare 1 cmp i j s := by
  simp only [compare, place_scale pos]

theorem swap_scale (i j : Nat) (s : State α κ) : swap es (es * i) (es * j) s = swap 1 i j s := by
  simp only [swap, place_scale pos]

theorem swapcode_scale (count i j : Nat) (s : State α κ)
    : swapcode es count (es * i) (es * j) s = swapcode 1 count i j s := by
  induction count generalizing i j s with
  | zero => rfl
  | succ count ih => simp only [swapcode, swap_scale pos, ← Nat.mul_succ, ih]

theorem vecswap_scale (i j n : Nat) (s : State α κ)
    : vecswap es (es * i) (es * j) (es * n) s = vecswap 1 i j n s := by
  simp only [vecswap, place_scale pos, swapcode_scale pos]

theorem med3_scale (a b c : Nat) (s : State α κ)
    : med3 es cmp (es * a) (es * b) (es * c) s
      = (med3 1 cmp a b c s).map (scaleOne es) := by
  simp only [med3, compare_scale pos]
  rcases compare 1 cmp a b s with _ | ⟨ab, s⟩
  · rfl
  simp only [Option.bind_eq_bind, Option.bind_some]
  rcases compare 1 cmp b c s with _ | ⟨bc, s⟩
  · rfl
  simp only [Option.bind_some]
  split
  · split
    · rfl
    rcases compare 1 cmp a c s with _ | ⟨ac, s⟩
    · rfl
    simp only [Option.bind_some]
    split <;> rfl
  · split
    · rfl
    rcases compare 1 cmp a c s with _ | ⟨ac, s⟩
    · rfl
    simp only [Option.bind_some]
    split <;> rfl

theorem inner_scale (a bound pl : Nat) (s : State α κ)
    : insertion.inner es cmp (es * a) bound (es * pl) s = insertion.inner 1 cmp a bound pl s := by
  induction bound generalizing pl s with
  | zero => rfl
  | succ bound ih =>
      simp only [insertion.inner, gt_iff_lt, Nat.mul_lt_mul_left pos, down_scale pos]
      split
      · rcases down 1 pl with _ | before
        · rfl
        simp only [Option.map_some, Option.bind_eq_bind, Option.bind_some, compare_scale pos,
          swap_scale pos, ih]
      · rfl

theorem outer_scale (a last n bound pm : Nat) (s : State α κ)
    : insertion.outer es cmp (es * a) (es * last) n bound (es * pm) s
      = insertion.outer 1 cmp a last n bound pm s := by
  induction bound generalizing pm s with
  | zero => rfl
  | succ bound ih =>
      simp only [insertion.outer, Nat.mul_lt_mul_left pos, inner_scale pos, ← Nat.mul_succ, ih]

theorem insertion_scale (a n : Nat) (s : State α κ)
    : insertion es cmp (es * a) n s = insertion 1 cmp a n s := by
  have last : es * a + n * es = es * (a + n * 1) := by
    rw [Nat.mul_add, Nat.mul_one, Nat.mul_comm n]
  rw [insertion, last, ← Nat.mul_succ, outer_scale pos]
  rfl

theorem median_scale (a n : Nat) (s : State α κ)
    : median es cmp (es * a) n s = (median 1 cmp a n s).map (scaleOne es) := by
  have up (k l : Nat) : es * k + l * es = es * (k + l * 1) := by
    rw [Nat.mul_add, Nat.mul_one, Nat.mul_comm l]
  have twice (l : Nat) : 2 * (l * es) = es * (2 * (l * 1)) := by
    rw [Nat.mul_one, Nat.mul_comm l, Nat.mul_left_comm]
  have once (l : Nat) : l * es = es * (l * 1) := by
    rw [Nat.mul_one, Nat.mul_comm]
  simp only [median, up, twice]
  simp only [once, ← Nat.mul_add, ← Nat.mul_sub, med3_scale pos]
  split
  · split
    · rcases med3 1 cmp a (a + n / 8 * 1) (a + 2 * (n / 8 * 1)) s with _ | ⟨pl, s⟩
      · rfl
      simp only [Option.map_some, scaleOne, Option.bind_eq_bind, Option.bind_some]
      rcases med3 1 cmp (a + n / 2 * 1 - n / 8 * 1) (a + n / 2 * 1) (a + n / 2 * 1 + n / 8 * 1) s
        with _ | ⟨pm, s⟩
      · rfl
      simp only [Option.map_some, scaleOne, Option.bind_some]
      rcases med3 1 cmp (a + (n - 1) * 1 - 2 * (n / 8 * 1)) (a + (n - 1) * 1 - n / 8 * 1)
        (a + (n - 1) * 1) s with _ | ⟨pn, s⟩
      · rfl
      simp only [Option.map_some, scaleOne, Option.bind_some, med3_scale pos]
    · rfl
  · rfl

theorem up_scale (a pc bound pa pb : Nat) (s : State α κ)
    : partition.up es cmp (es * a) (es * pc) bound (es * pa) (es * pb) s
      = (partition.up 1 cmp a pc bound pa pb s).map (scaleTwo es) := by
  induction bound generalizing pa pb s with
  | zero => rfl
  | succ bound ih =>
      simp only [partition.up, Nat.mul_le_mul_left_iff pos, compare_scale pos]
      split
      · rcases compare 1 cmp pb a s with _ | ⟨result, s⟩
        · rfl
        simp only [Option.bind_eq_bind, Option.bind_some, ← Nat.mul_succ, ih, swap_scale pos]
        split
        · rfl
        split
        · cases swap 1 pa pb s <;> rfl
        · rfl
      · rfl

theorem partition_down_scale (a pb bound pc pd : Nat) (s : State α κ)
    : partition.down es cmp (es * a) (es * pb) bound (es * pc) (es * pd) s
      = (partition.down 1 cmp a pb bound pc pd s).map (scaleTwo es) := by
  induction bound generalizing pc pd s with
  | zero => rfl
  | succ bound ih =>
      simp only [partition.down, Nat.mul_le_mul_left_iff pos, compare_scale pos, down_scale pos]
      split
      · rcases compare 1 cmp pc a s with _ | ⟨result, s⟩
        · rfl
        simp only [Option.bind_eq_bind, Option.bind_some, swap_scale pos]
        split
        · rcases down 1 pc with _ | pc
          · rfl
          simp only [Option.map_some, Option.bind_some, ih]
        split
        · rcases swap 1 pc pd s with _ | s
          · rfl
          rcases down 1 pc with _ | pc
          · rfl
          rcases down 1 pd with _ | pd
          · rfl
          simp only [Option.map_some, Option.bind_some, ih]
        · rfl
      · rfl

theorem partition_scale (a n bound : Nat) (bounds : Bounds) (s : State α κ)
    : partition es cmp (es * a) n bound (bounds.scale es) s
      = (partition 1 cmp a n bound bounds s).map (scaleBounds es) := by
  induction bound generalizing bounds s with
  | zero => rfl
  | succ bound ih =>
      obtain ⟨pa, pb, pc, pd⟩ := bounds
      simp only [Bounds.scale, partition, up_scale pos]
      rcases partition.up 1 cmp a pc n pa pb s with _ | ⟨pa, pb, s⟩
      · rfl
      simp only [Option.map_some, scaleTwo, Option.bind_eq_bind, Option.bind_some,
        partition_down_scale pos]
      rcases partition.down 1 cmp a pb n pc pd s with _ | ⟨pc, pd, s⟩
      · rfl
      simp only [Option.map_some, scaleTwo, Option.bind_some, gt_iff_lt, Nat.mul_lt_mul_left pos,
        swap_scale pos, down_scale pos]
      split
      · rfl
      rcases swap 1 pb pc s with _ | s
      · rfl
      rcases down 1 pc with _ | pc
      · rfl
      simp only [Option.map_some, Option.bind_some, ← Nat.mul_succ]
      exact ih ⟨pa, pb + 1, pc, pd⟩ s

theorem divide_scale (a n : Nat) (s : State α κ)
    : divide es cmp (es * a) n s = (divide 1 cmp a n s).map (scaleTwo es) := by
  have up (k l : Nat) : es * k + l * es = es * (k + l * 1) := by
    rw [Nat.mul_add, Nat.mul_one, Nat.mul_comm l]
  simp only [divide, median_scale pos, up, ← Nat.mul_succ]
  rcases median 1 cmp a n s with _ | ⟨pm, s⟩
  · rfl
  simp only [Option.map_some, scaleOne, Option.bind_eq_bind, Option.bind_some, swap_scale pos]
  rcases swap 1 a pm s with _ | s
  · rfl
  simp only [Option.bind_some]
  have parted := partition_scale pos cmp a n (n + 1)
    ⟨a + 1, a + 1, a + (n - 1) * 1, a + (n - 1) * 1⟩ s
  simp only [Bounds.scale] at parted
  rw [parted]
  rcases partition 1 cmp a n (n + 1) ⟨a + 1, a + 1, a + (n - 1) * 1, a + (n - 1) * 1⟩ s
    with _ | ⟨⟨pa, pb, pc, pd⟩, s⟩
  · rfl
  have last (k : Nat) : es * k - es = es * (k - 1) := by rw [Nat.mul_sub, Nat.mul_one]
  simp only [Option.map_some, scaleBounds, Bounds.scale, Option.bind_some, ← Nat.mul_sub,
    Nat.mul_min_mul_left, last, vecswap_scale pos]
  rcases vecswap 1 a (pb - min (pa - a) (pb - pa)) (min (pa - a) (pb - pa)) s with _ | s
  · rfl
  simp only [Option.bind_some]
  rcases vecswap 1 pb (a + n * 1 - min (pd - pc) (a + n * 1 - pd - 1))
    (min (pd - pc) (a + n * 1 - pd - 1)) s with _ | s
  · rfl
  rfl

/-- `qsort_r` on elements of any size is `qsort_r` on their numbers. -/
theorem qsortR_scale (depth a n : Nat) (s : State α κ)
    : qsortR es cmp depth (es * a) n s = qsortR 1 cmp depth a n s := by
  induction depth generalizing a n s with
  | zero => rfl
  | succ depth ih =>
      have up (k l : Nat) : es * k + l * es = es * (k + l * 1) := by
        rw [Nat.mul_add, Nat.mul_one, Nat.mul_comm l]
      have one (k : Nat) : es < es * k ↔ 1 < k := by
        simpa using Nat.mul_lt_mul_left pos (b := 1) (c := k)
      simp only [qsortR, insertion_scale pos, divide_scale pos, up]
      split
      · rfl
      rcases divide 1 cmp a n s with _ | ⟨r, size, s⟩
      · rfl
      simp only [Option.map_some, scaleTwo, Option.bind_eq_bind, Option.bind_some, gt_iff_lt,
        Nat.mul_lt_mul_left pos, one, Nat.mul_div_cancel_left _ pos, Nat.div_one, ← Nat.mul_sub, ih]

end BSDLibC.Qsort
