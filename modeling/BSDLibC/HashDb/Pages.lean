import BSDLibC.HashDb.Bits
import Mathlib.Data.Nat.Log

/-! The numbers of the pages of buckets and of overflow addresses, and the invariant that keeps them
apart. The overflow pages are counted from 1 on through all split points, and the count of a page is
one more than the number of its bit.
-/

namespace BSDLibC.HashDb

variable {h h' : Header} {a b s o : Nat} {alloc : Nat → Prop}

theorem splitNum_eq (a : Nat) : splitNum a = a / 2048 := by
  rw [splitNum, splitShift, Nat.shiftRight_eq_div_pow]

theorem oPageNum_eq (a : Nat) : oPageNum a = a % 2048 :=
  Nat.and_two_pow_sub_one_eq_mod a 11

theorem oaddrOf_eq (s o : Nat) : oaddrOf s o = s * 2048 + o := by
  rw [oaddrOf, splitShift, Nat.shiftLeft_eq]

theorem splitNum_oaddrOf (low : o < 2048) : splitNum (oaddrOf s o) = s := by
  rw [splitNum_eq, oaddrOf_eq]
  omega

theorem oPageNum_oaddrOf (low : o < 2048) : oPageNum (oaddrOf s o) = o := by
  rw [oPageNum_eq, oaddrOf_eq]
  omega

/-- An address has 16 bits. -/
theorem oaddrOf_mod (few : s < 32) (low : o < 2048) : oaddrOf s o % 2 ^ 16 = oaddrOf s o := by
  rw [oaddrOf_eq]
  omega

theorem mapBits_eq (h : Header) : h.mapBits = 8 * 2 ^ h.bshift := by
  rw [Header.mapBits, Header.bsize, Nat.shiftLeft_eq, Nat.mul_comm]

-----------------------------------------------------------------------------------------
-- `__log2`
-----------------------------------------------------------------------------------------

theorem log2_loop_eq {num k turns i : Nat} (exceeds : ∀ i, i < k → 2 ^ i - 1 < num) (under : num ≤ 2 ^ k - 1)
    (begun : i ≤ k) (enough : k ≤ i + turns)
    : log2.loop num turns (2 ^ i - 1) i = k := by
  induction turns generalizing i with
  | zero => exact (show i = k by omega)
  | succ turns ih =>
      rw [log2.loop]
      by_cases here : i = k
      · subst here
        exact if_neg (by omega)
      · rw [if_pos (exceeds i (by omega))]
        have positive := Nat.two_pow_pos i
        have next : (2 ^ i - 1) * 2 + 1 = 2 ^ (i + 1) - 1 := by
          rw [Nat.pow_succ]
          omega
        rw [next]
        exact ih (by omega) (by omega)

/-- A bucket lies between two powers of two. -/
theorem log2_succ {j : Nat} (few : j < 31) (low : 2 ^ j ≤ b) (high : b < 2 ^ (j + 1)) : log2 (b + 1) = j + 1 := by
  rw [log2, if_neg (by omega), Nat.add_sub_cancel]
  refine log2_loop_eq (i := 0) (fun i less => ?_) (by omega) (by omega) (by omega)
  have positive := Nat.two_pow_pos i
  have := Nat.pow_le_pow_right (show 0 < 2 by decide) (show i ≤ j by omega)
  omega

theorem exists_power (positive : 0 < b) : ∃ j, 2 ^ j ≤ b ∧ b < 2 ^ (j + 1) :=
  ⟨Nat.log 2 b, Nat.pow_log_le_self 2 (by omega), Nat.lt_pow_succ_log_self (by decide) b⟩

-----------------------------------------------------------------------------------------
-- Page numbers
-----------------------------------------------------------------------------------------

theorem bucketToPage_eq {j : Nat} (few : j < 31) (low : 2 ^ j ≤ b) (high : b < 2 ^ (j + 1))
    : bucketToPage h b = (b + h.hdrpages + h.spares j) % 2 ^ 32 := by
  have positive := Nat.two_pow_pos j
  rw [bucketToPage, if_neg (by omega), log2_succ few low high, Nat.add_sub_cancel]

theorem bucketToPage_last (few : s < 32)
    : bucketToPage h (2 ^ s - 1) = (2 ^ s - 1 + h.hdrpages + h.before s) % 2 ^ 32 := by
  cases s with
  | zero => rfl
  | succ j =>
      have positive := Nat.two_pow_pos j
      have double : 2 ^ (j + 1) = 2 ^ j * 2 := Nat.pow_succ 2 j
      rw [bucketToPage_eq (j := j) (by omega) (by omega) (by omega), Header.before, if_neg (by omega),
        Nat.add_sub_cancel]

/-- The count of the page with an address. -/
def Header.pageIndex (h : Header) (a : Nat) : Nat := h.before (splitNum a) + oPageNum a

theorem oaddrToPage_eq (few : splitNum a < 32)
    : oaddrToPage h a = (2 ^ splitNum a - 1 + h.hdrpages + h.pageIndex a) % 2 ^ 32 := by
  rw [oaddrToPage, Nat.shiftLeft_eq, Nat.one_mul, bucketToPage_last few, Nat.mod_add_mod, Header.pageIndex,
    Nat.add_assoc (2 ^ splitNum a - 1 + h.hdrpages)]

/-- The address is one of the pages that a split point has. -/
structure Valid (h : Header) (a : Nat) : Prop where
  split : splitNum a ≤ h.ovflPoint
  first : 1 ≤ oPageNum a
  last : h.pageIndex a ≤ h.spares (splitNum a)

def Header.isSet (h : Header) (bit : Nat) : Prop :=
  ∃ map, h.mapp (bit / h.mapBits) = some map ∧ map.bit (bit % h.mapBits) = true

/-- Every page that is given out has its bit set, and so have the pages of the maps, each of which is
the first page of its own map. The free pages are those with a bit that is clear, and they are
among the pages of the split points.
-/
structure Wf (h : Header) (alloc : Nat → Prop) : Prop where
  small : 6 ≤ h.bshift
  large : h.bshift ≤ 16
  hdr : h.hdrpages ≤ 8
  point : h.ovflPoint < 32
  mono : ∀ i, i < h.ovflPoint → h.spares i ≤ h.spares (i + 1)
  buckets : h.maxBucket < 2 ^ (h.ovflPoint + 1)
  ints : h.maxBucket < 2 ^ 31
  last : h.lastFreed < max (h.spares h.ovflPoint) 3
  maps : ∀ k, h.mapp k ≠ none ↔ k < h.nmaps
  someMap : 0 < h.nmaps
  fewMaps : h.nmaps ≤ 32
  bound : h.spares h.ovflPoint ≤ h.nmaps * h.mapBits + 1
  clear : ∀ k map b, h.mapp k = some map → b < h.mapBits → map.bit b = false
    → b ≠ 0 ∧ k * h.mapBits + b < h.spares h.ovflPoint
  bitmap : ∀ k, k < h.nmaps → Valid h (h.bitmaps k) ∧ h.pageIndex (h.bitmaps k) = k * h.mapBits + 1
  allocated : ∀ a, alloc a
    → Valid h a ∧ (h.pageIndex a - 1) % h.mapBits ≠ 0 ∧ h.isSet (h.pageIndex a - 1)

theorem Wf.spares_le (wf : Wf h alloc) {i j : Nat} (le : i ≤ j) (low : j ≤ h.ovflPoint)
    : h.spares i ≤ h.spares j := by
  induction j with
  | zero =>
      have zero : i = 0 := by omega
      rw [zero]
  | succ j ih =>
      by_cases same : i = j + 1
      · rw [same]
      · exact (ih (by omega) (by omega)).trans (wf.mono j (by omega))

theorem Wf.mapBits_le (wf : Wf h alloc) : 512 ≤ h.mapBits ∧ h.mapBits ≤ 2 ^ 19 := by
  have low := Nat.pow_le_pow_right (show 0 < 2 by decide) wf.small
  have high := Nat.pow_le_pow_right (show 0 < 2 by decide) wf.large
  rw [mapBits_eq]
  omega

theorem Wf.spares_lt (wf : Wf h alloc) {i : Nat} (low : i ≤ h.ovflPoint) : h.spares i ≤ 2 ^ 24 + 1 := by
  have top := wf.spares_le low le_rfl
  have few := Nat.mul_le_mul wf.fewMaps wf.mapBits_le.2
  have bound := wf.bound
  omega

theorem Wf.first_spare (wf : Wf h alloc) : 1 ≤ h.spares h.ovflPoint := by
  obtain ⟨valid, index⟩ := wf.bitmap 0 wf.someMap
  have le := wf.spares_le valid.split le_rfl
  have := valid.last
  omega

theorem Valid.index_le (wf : Wf h alloc) (valid : Valid h a) : h.pageIndex a ≤ h.spares h.ovflPoint :=
  valid.last.trans (wf.spares_le valid.split le_rfl)

theorem Valid.before_lt (valid : Valid h a) : h.before (splitNum a) < h.pageIndex a := by
  have := valid.first
  rw [Header.pageIndex]
  omega

theorem Wf.le_before (wf : Wf h alloc) {s t : Nat} (less : s < t) (low : t ≤ h.ovflPoint)
    : h.spares s ≤ h.before t := by
  rw [Header.before, if_neg (by omega)]
  exact wf.spares_le (by omega) (by omega)

/-- Addresses of a later split point have greater counts. -/
theorem Valid.index_lt (wf : Wf h alloc) (atA : Valid h a) (atB : Valid h b) (less : splitNum a < splitNum b)
    : h.pageIndex a < h.pageIndex b :=
  calc h.pageIndex a ≤ h.spares (splitNum a) := atA.last
    _ ≤ h.before (splitNum b) := wf.le_before less atB.split
    _ < h.pageIndex b := atB.before_lt

theorem Valid.injective (wf : Wf h alloc) (atA : Valid h a) (atB : Valid h b)
    (same : h.pageIndex a = h.pageIndex b)
    : a = b := by
  have split : splitNum a = splitNum b := by
    rcases Nat.lt_trichotomy (splitNum a) (splitNum b) with less | equal | more
    · have := atA.index_lt wf atB less
      omega
    · exact equal
    · have := atB.index_lt wf atA more
      omega
  have page : oPageNum a = oPageNum b := by
    simp only [Header.pageIndex, split] at same
    omega
  rw [splitNum_eq, splitNum_eq] at split
  rw [oPageNum_eq, oPageNum_eq] at page
  omega

-----------------------------------------------------------------------------------------
-- Pages are not shared
-----------------------------------------------------------------------------------------

/-- What a page of the file is for. -/
inductive Use
  | bucket (b : Nat)
  | bitmap (k : Nat)
  | overflow (addr : Nat)

def Use.page (h : Header) : Use → Nat
  | .bucket b => bucketToPage h b
  | .bitmap k => oaddrToPage h (h.bitmaps k)
  | .overflow addr => oaddrToPage h addr

def Use.Active (h : Header) (alloc : Nat → Prop) : Use → Prop
  | .bucket b => b ≤ h.maxBucket
  | .bitmap k => k < h.nmaps
  | .overflow addr => alloc addr

/-- Two things that use a page of the file use different ones. -/
def PagesDiffer (h : Header) (alloc : Nat → Prop) : Prop :=
  ∀ u v : Use, u.Active h alloc → v.Active h alloc → u.page h = v.page h → u = v

/-- The spare pages in front of a bucket. -/
theorem Wf.bucket_page (wf : Wf h alloc) (low : b ≤ h.maxBucket)
    : ∃ spare, bucketToPage h b = b + h.hdrpages + spare
      ∧ (b = 0 ∧ spare = 0 ∨ ∃ j, j ≤ h.ovflPoint ∧ 2 ^ j ≤ b ∧ b < 2 ^ (j + 1) ∧ spare = h.spares j) := by
  have ints := wf.ints
  have hdr := wf.hdr
  rcases Nat.eq_zero_or_pos b with rfl | positive
  · refine ⟨0, ?_, Or.inl ⟨rfl, rfl⟩⟩
    rw [bucketToPage, if_pos rfl]
    omega
  · obtain ⟨j, from_, until_⟩ := exists_power positive
    have few : j < 31 := by
      by_contra many
      have := Nat.pow_le_pow_right (show 0 < 2 by decide) (show 31 ≤ j by omega)
      omega
    have point : j ≤ h.ovflPoint := by
      by_contra beyond
      have := Nat.pow_le_pow_right (show 0 < 2 by decide) (show h.ovflPoint + 1 ≤ j by omega)
      have := wf.buckets
      omega
    refine ⟨h.spares j, ?_, Or.inr ⟨j, point, from_, until_, rfl⟩⟩
    have := wf.spares_lt point
    rw [bucketToPage_eq few from_ until_]
    omega

theorem Wf.overflow_page (wf : Wf h alloc) (valid : Valid h a)
    : oaddrToPage h a = 2 ^ splitNum a - 1 + h.hdrpages + h.pageIndex a := by
  have few := lt_of_le_of_lt valid.split wf.point
  have high := Nat.pow_le_pow_right (show 0 < 2 by decide) (show splitNum a ≤ 31 by omega)
  have hdr := wf.hdr
  have index := valid.index_le wf
  have := wf.spares_lt le_rfl
  rw [oaddrToPage_eq few]
  omega

theorem Wf.overflow_differ (wf : Wf h alloc) (atA : Valid h a) (atB : Valid h b)
    (same : oaddrToPage h a = oaddrToPage h b)
    : a = b := by
  rw [wf.overflow_page atA, wf.overflow_page atB] at same
  refine atA.injective wf atB ?_
  rcases Nat.lt_trichotomy (splitNum a) (splitNum b) with less | equal | more
  · have := atA.index_lt wf atB less
    have := Nat.pow_le_pow_right (show 0 < 2 by decide) less.le
    omega
  · rw [equal] at same
    omega
  · have := atB.index_lt wf atA more
    have := Nat.pow_le_pow_right (show 0 < 2 by decide) more.le
    omega

theorem Wf.bucket_differ (wf : Wf h alloc) (low : a ≤ h.maxBucket) (low' : b ≤ h.maxBucket)
    (same : bucketToPage h a = bucketToPage h b)
    : a = b := by
  have less {a b : Nat} (low : a ≤ h.maxBucket) (low' : b ≤ h.maxBucket) (less : a < b)
      : bucketToPage h a < bucketToPage h b := by
    obtain ⟨spare, page, place⟩ := wf.bucket_page low
    obtain ⟨spare', page', place'⟩ := wf.bucket_page low'
    have le : spare ≤ spare' := by
      rcases place with ⟨-, rfl⟩ | ⟨j, -, from_, -, rfl⟩
      · exact Nat.zero_le _
      · rcases place' with ⟨rfl, -⟩ | ⟨j', point', -, until_, rfl⟩
        · omega
        · refine wf.spares_le ?_ point'
          by_contra beyond
          have := Nat.pow_le_pow_right (show 0 < 2 by decide) (show j' + 1 ≤ j by omega)
          omega
    omega
  rcases Nat.lt_trichotomy a b with smaller | equal | greater
  · have := less low low' smaller
    omega
  · exact equal
  · have := less low' low greater
    omega

theorem Wf.apart (wf : Wf h alloc) (low : b ≤ h.maxBucket) (valid : Valid h a)
    : bucketToPage h b ≠ oaddrToPage h a := by
  obtain ⟨spare, page, place⟩ := wf.bucket_page low
  rw [page, wf.overflow_page valid]
  have positive := Nat.two_pow_pos (splitNum a)
  have first := valid.before_lt
  rcases place with ⟨rfl, rfl⟩ | ⟨j, point, from_, until_, rfl⟩
  · omega
  · rcases Nat.lt_or_ge j (splitNum a) with less | ge
    · -- the pages of a later split point come after the bucket
      have := Nat.pow_le_pow_right (show 0 < 2 by decide) (show j + 1 ≤ splitNum a by omega)
      have := wf.le_before less valid.split
      omega
    · have := Nat.pow_le_pow_right (show 0 < 2 by decide) ge
      have := valid.last.trans (wf.spares_le ge point)
      omega

theorem Wf.pagesDiffer (wf : Wf h alloc) : PagesDiffer h alloc := by
  have notMap {a k : Nat} (given : alloc a) (low : k < h.nmaps) : a ≠ h.bitmaps k := by
    rintro rfl
    obtain ⟨-, index⟩ := wf.bitmap k low
    obtain ⟨-, inner, -⟩ := wf.allocated _ given
    rw [index, Nat.add_sub_cancel, Nat.mul_mod_left] at inner
    exact inner rfl
  have mapsDiffer {k k' : Nat} (low : k < h.nmaps) (low' : k' < h.nmaps) (same : h.bitmaps k = h.bitmaps k')
      : k = k' := by
    obtain ⟨-, index⟩ := wf.bitmap k low
    obtain ⟨-, index'⟩ := wf.bitmap k' low'
    rw [same, index'] at index
    have positive : 0 < h.mapBits := by
      have := wf.mapBits_le
      omega
    exact (Nat.eq_of_mul_eq_mul_right positive (by omega)).symm
  rintro (b | k | a) (b' | k' | a') active active' same
  · rw [wf.bucket_differ active active' same]
  · exact absurd same (wf.apart active (wf.bitmap k' active').1)
  · exact absurd same (wf.apart active (wf.allocated a' active').1)
  · exact absurd same.symm (wf.apart active' (wf.bitmap k active).1)
  · rw [mapsDiffer active active' (wf.overflow_differ (wf.bitmap k active).1 (wf.bitmap k' active').1 same)]
  · exact absurd (wf.overflow_differ (wf.bitmap k active).1 (wf.allocated a' active').1 same).symm
      (notMap active' active)
  · exact absurd same.symm (wf.apart active' (wf.allocated a active).1)
  · exact absurd (wf.overflow_differ (wf.allocated a active).1 (wf.bitmap k' active').1 same)
      (notMap active active')
  · rw [wf.overflow_differ (wf.allocated a active).1 (wf.allocated a' active').1 same]

end BSDLibC.HashDb
