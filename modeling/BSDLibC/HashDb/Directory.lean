import BSDLibC.HashDb.Address

/-! The directory of the segments of buckets, which `__expand_table` makes larger. Its size is the
field `DSIZE`, and `entries` is what has been allocated.
-/

namespace BSDLibC.HashDb

def DEF_SEGSIZE : Nat := 256
def DEF_SEGSIZE_SHIFT : Nat := 8
def DEF_DIRSIZE : Nat := 256

/-- `sizeof(SEGMENT *)` -/
def sizeofSegment : Nat := 8

structure Directory where
  dsize : Nat
  nsegs : Nat
  entries : Nat

/-- Whether `hash_realloc` and the allocation of a segment get memory. -/
structure Memory where
  directory : Bool
  segment : Bool

/-- `hash_realloc` for a block of `held` bytes, and the size of the new one if there is memory. The
result is `none` when more is copied than the block holds.
-/
def hashRealloc (malloc : Bool) (held oldsize newsize : Nat) : Option (Option Nat) :=
  if !malloc then some none else if held < oldsize then none else some (some newsize)

/-- A larger directory, or nothing without memory. -/
def growDirectory (malloc : Bool) (d : Directory) : Option (Option Directory) := do
  let dirsize := d.dsize * sizeofSegment
  match ← hashRealloc malloc (d.entries * sizeofSegment) dirsize (dirsize <<< 1) with
  | none => return none
  | some newsize =>
      let dirsize := dirsize <<< 1
      return some { d with dsize := dirsize % 2 ^ 32, entries := newsize / sizeofSegment }

/-- The segment is written to the directory before it is compared with `NULL`. -/
def addSegment (calloc : Bool) (newSegnum : Nat) (d : Directory) : Option (Bool × Directory) :=
  if d.entries ≤ newSegnum then none
  else if calloc then some (true, { d with nsegs := d.nsegs + 1 })
  else some (false, d)

/-- The part of `__expand_table` that provides the segment of the new bucket, and whether there was
memory for it.
-/
def provideSegment (memory : Memory) (newSegnum : Nat) (d : Directory) : Option (Bool × Directory) := do
  if newSegnum < d.nsegs then
    return (true, d)
  else if newSegnum < d.dsize then
    addSegment memory.segment newSegnum d
  else
    match ← growDirectory memory.directory d with
    | none => return (false, d)
    | some d => addSegment memory.segment newSegnum d

structure Table where
  header : Header
  dir : Directory

/-- `__expand_table` up to `__split_page`. -/
def Table.expand (memory : Memory) (t : Table) : Option Table := do
  let (grown, dir) ← provideSegment memory ((t.header.maxBucket + 1) >>> DEF_SEGSIZE_SHIFT) t.dir
  let (_, header) ← expandTable grown t.header
  return { header, dir }

/-- The end of `init_htab` with `alloc_segs`. -/
def initSegments (h : Header) : Table :=
  let nsegs := (h.maxBucket + 1 - 1) / DEF_SEGSIZE + 1
  let nsegs := 1 <<< log2 nsegs
  let dsize := if nsegs > DEF_DIRSIZE then nsegs else DEF_DIRSIZE
  { header := h, dir := { dsize, nsegs, entries := dsize } }

/-- Calls of `__expand_table`. The result is `none` after an access outside of the directory. -/
def Table.run (calls : List Memory) (t : Table) : Option Table := calls.foldlM (fun t memory => t.expand memory) t

/-- `DSIZE` is not more than has been allocated, and the segments of all buckets have an entry. -/
def Table.InBounds (t : Table) : Prop :=
  t.dir.dsize ≤ t.dir.entries ∧ ∀ addr ≤ t.header.maxBucket, addr >>> DEF_SEGSIZE_SHIFT < t.dir.entries

variable {t t' : Table} {d d' : Directory} {memory : Memory} {grown ok : Bool} {i k bshift ffactor nelem : Nat} {h : Header}

theorem segnum_eq (b : Nat) : b >>> DEF_SEGSIZE_SHIFT = b / 256 := Nat.shiftRight_eq_div_pow b 8

-----------------------------------------------------------------------------------------
-- One call
-----------------------------------------------------------------------------------------

/-- The directory is as it was made, or its size is counted wrongly. -/
def Directory.Counted (dsize : Nat) (d : Directory) : Prop :=
  d.dsize = dsize ∧ d.entries = dsize ∨ d.entries < d.dsize

theorem addSegment_sizes (run : addSegment ok i d = some (grown, d')) : d'.dsize = d.dsize ∧ d'.entries = d.entries := by
  rw [addSegment] at run
  split at run
  · cases run
  · split at run
    all_goals
      cases run
      exact ⟨rfl, rfl⟩

/-- A directory that has become larger counts sixteen entries for each that it had, and has two. -/
theorem growDirectory_sizes {malloc : Bool} (run : growDirectory malloc d = some (some d'))
    : d.dsize ≤ d.entries ∧ d'.dsize = d.dsize * 16 % 2 ^ 32 ∧ d'.entries = d.dsize * 2 := by
  rw [growDirectory, hashRealloc] at run
  cases malloc with
  | false => cases run
  | true =>
      by_cases short : d.entries * sizeofSegment < d.dsize * sizeofSegment
      · simp [short] at run
      · simp only [Bool.not_true, Bool.false_eq_true, if_false, if_neg short, Option.bind_eq_bind, Option.bind_some,
          Option.pure_def, Option.some.injEq] at run
        cases run
        simp only [sizeofSegment, Nat.shiftLeft_eq] at short ⊢
        omega

theorem provideSegment_counted {dsize : Nat} (counted : d.Counted dsize) (positive : 0 < dsize)
    (small : dsize * 16 < 2 ^ 32) (run : provideSegment memory i d = some (ok, d'))
    : d'.Counted dsize := by
  rw [provideSegment] at run
  split at run
  · cases run
    exact counted
  · split at run
    · obtain ⟨sizes, entries⟩ := addSegment_sizes run
      rw [Directory.Counted, sizes, entries]
      exact counted
    · cases grown : growDirectory memory.directory d with
      | none =>
          rw [grown] at run
          cases run
      | some larger =>
          rw [grown] at run
          cases larger with
          | none =>
              cases run
              exact counted
          | some d₁ =>
              obtain ⟨before, sizes, entries⟩ := growDirectory_sizes grown
              obtain ⟨sizes', entries'⟩ := addSegment_sizes run
              right
              obtain ⟨here, -⟩ | wrong := counted <;> omega

/-- As long as the directory has an entry for the segment, nothing is wrong. -/
theorem provideSegment_inside (sizes : d.entries = d.dsize) (inside : i < d.dsize)
    : ∃ ok d', provideSegment memory i d = some (ok, d') ∧ d'.dsize = d.dsize ∧ d'.entries = d.entries := by
  rw [provideSegment]
  by_cases present : i < d.nsegs
  · rw [if_pos present]
    exact ⟨true, d, rfl, rfl, rfl⟩
  · rw [if_neg present, if_pos inside, addSegment, if_neg (by omega)]
    cases memory.segment
    · exact ⟨false, d, rfl, rfl, rfl⟩
    · exact ⟨true, { d with nsegs := d.nsegs + 1 }, rfl, rfl, rfl⟩

-----------------------------------------------------------------------------------------
-- Runs
-----------------------------------------------------------------------------------------

theorem Table.expand_cases (run : t.expand memory = some t')
    : ∃ ok, provideSegment memory ((t.header.maxBucket + 1) >>> DEF_SEGSIZE_SHIFT) t.dir = some (ok, t'.dir)
      ∧ t'.header.maxBucket = t.header.maxBucket + 1 := by
  rw [Table.expand] at run
  cases segment : provideSegment memory ((t.header.maxBucket + 1) >>> DEF_SEGSIZE_SHIFT) t.dir with
  | none => simp [segment] at run
  | some found =>
      cases expanded : expandTable found.1 t.header with
      | none => simp [segment, expanded] at run
      | some result =>
          simp only [segment, expanded, Option.bind_eq_bind, Option.bind_some, Option.pure_def, Option.some.injEq] at run
          subst run
          obtain ⟨-, last, -⟩ := expandTable_cases expanded
          exact ⟨found.1, rfl, last⟩

theorem Table.run_counted {dsize : Nat} (calls : List Memory) (counted : t.dir.Counted dsize) (positive : 0 < dsize)
    (small : dsize * 16 < 2 ^ 32) (run : t.run calls = some t')
    : t'.dir.Counted dsize ∧ t'.header.maxBucket = t.header.maxBucket + calls.length := by
  induction calls generalizing t with
  | nil =>
      cases run
      exact ⟨counted, rfl⟩
  | cons memory rest ih =>
      simp only [Table.run, List.foldlM_cons] at run ih
      cases step : t.expand memory with
      | none => simp [step] at run
      | some t₁ =>
          rw [step] at run
          obtain ⟨ok, segment, last⟩ := t.expand_cases step
          obtain ⟨counted', last'⟩ := ih (provideSegment_counted counted positive small segment) run
          exact ⟨counted', by rw [last', last, List.length_cons]; omega⟩

/-- While the buckets fit into the directory, all calls stay inside of it. -/
theorem Table.run_inside {dsize : Nat} (calls : List Memory) (sizes : t.dir.dsize = dsize ∧ t.dir.entries = dsize)
    (inside : t.header.maxBucket + calls.length < 256 * dsize) (ints : 256 * dsize ≤ 2 ^ 31)
    : ∃ t', t.run calls = some t' ∧ t'.dir.dsize = dsize ∧ t'.dir.entries = dsize := by
  induction calls generalizing t with
  | nil => exact ⟨t, rfl, sizes⟩
  | cons memory rest ih =>
      rw [List.length_cons] at inside
      obtain ⟨ok, d, segment, size, entries⟩ := @provideSegment_inside t.dir memory _
        (sizes.2.trans sizes.1.symm) (show (t.header.maxBucket + 1) >>> DEF_SEGSIZE_SHIFT < t.dir.dsize by rw [segnum_eq]; omega)
      obtain ⟨result, expanded⟩ : ∃ result, expandTable ok t.header = some result := by
        simp only [expandTable, guard, if_pos (show t.header.maxBucket + 1 < 2 ^ 31 by omega)]
        cases ok
        · exact ⟨_, rfl⟩
        · exact ⟨_, rfl⟩
      have step : t.expand memory = some { header := result.2, dir := d } := by
        rw [Table.expand, segment]
        simp only [Option.bind_eq_bind, Option.bind_some, expanded, Option.pure_def]
      obtain ⟨-, last, -⟩ := @expandTable_cases t.header result.2 result.1 ok expanded
      obtain ⟨t', run, final⟩ := ih (t := { header := result.2, dir := d }) ⟨size.trans sizes.1, entries.trans sizes.2⟩
        (by simp only [last]; omega)
      exact ⟨t', by rw [Table.run, List.foldlM_cons, step]; exact run, final⟩

-----------------------------------------------------------------------------------------
-- A new table
-----------------------------------------------------------------------------------------

theorem log2_two_pow (few : k < 31) : log2 (2 ^ k) = k := by
  cases k with
  | zero => decide
  | succ j =>
      have positive := Nat.two_pow_pos j
      have double : 2 ^ (j + 1) = 2 ^ j * 2 := Nat.pow_succ 2 j
      have found := log2_succ (b := 2 ^ (j + 1) - 1) (j := j) (by omega) (by omega) (by omega)
      rwa [Nat.sub_add_cancel (by omega)] at found

theorem initSegments_sizes (few : k < 30)
    : (initSegments (newHeader bshift k)).dir.entries = (initSegments (newHeader bshift k)).dir.dsize
      ∧ 256 ≤ (initSegments (newHeader bshift k)).dir.dsize
      ∧ (initSegments (newHeader bshift k)).dir.dsize ≤ 2 ^ 22 := by
  have segments : ∃ j, j < 22 ∧ ((newHeader bshift k).maxBucket + 1 - 1) / DEF_SEGSIZE + 1 = 2 ^ j := by
    change ∃ j, j < 22 ∧ (2 ^ k - 1 + 1 - 1) / 256 + 1 = 2 ^ j
    have positive := Nat.two_pow_pos k
    by_cases one : k < 8
    · have small : 2 ^ k ≤ 2 ^ 7 := Nat.pow_le_pow_right (by decide) (by omega)
      exact ⟨0, by decide, by omega⟩
    · have many : 2 ^ k = 256 * 2 ^ (k - 8) := by
        rw [show 256 = 2 ^ 8 from rfl, ← Nat.pow_add, show 8 + (k - 8) = k by omega]
      have positive' := Nat.two_pow_pos (k - 8)
      exact ⟨k - 8, by omega, by omega⟩
  obtain ⟨j, low, count⟩ := segments
  have bound : 2 ^ j ≤ 2 ^ 22 := Nat.pow_le_pow_right (by decide) (by omega)
  have size : (initSegments (newHeader bshift k)).dir.dsize = if 2 ^ j > 256 then 2 ^ j else 256 := by
    simp only [initSegments, count, log2_two_pow (show j < 31 by omega), Nat.one_shiftLeft, DEF_DIRSIZE]
  refine ⟨rfl, ?_, ?_⟩ <;> rw [size] <;> split <;> omega

/-- The calls stay inside of the directory exactly until it would have to become larger. -/
theorem run_inBounds_iff (new : initHtab bshift ffactor nelem = some h) (calls : List Memory)
    : (∃ t', (initSegments h).run calls = some t' ∧ t'.InBounds)
      ↔ h.maxBucket + calls.length < DEF_SEGSIZE * (initSegments h).dir.dsize := by
  obtain ⟨k, few, rfl⟩ := initHtab_eq new
  obtain ⟨entries, low, high⟩ := @initSegments_sizes k bshift few
  constructor
  · rintro ⟨t', run, sizes, inside⟩
    obtain ⟨counted, last⟩ := Table.run_counted calls (Or.inl ⟨rfl, entries⟩) (by omega) (by omega) run
    obtain ⟨-, same⟩ | wrong := counted
    · have final := inside t'.header.maxBucket le_rfl
      rw [segnum_eq, last, same] at final
      change (newHeader bshift k).maxBucket + calls.length < 256 * _
      change ((newHeader bshift k).maxBucket + calls.length) / 256 < _ at final
      omega
    · omega
  · intro inside
    obtain ⟨t', run, size, entries'⟩ := Table.run_inside calls ⟨rfl, entries⟩ inside (by omega)
    obtain ⟨-, last⟩ := Table.run_counted calls (Or.inl ⟨rfl, entries⟩) (by omega) (by omega) run
    refine ⟨t', run, by omega, fun addr bucket => ?_⟩
    rw [last] at bucket
    rw [segnum_eq, entries']
    change addr ≤ (newHeader bshift k).maxBucket + calls.length at bucket
    change (newHeader bshift k).maxBucket + calls.length < 256 * _ at inside
    omega

/-- Witness: one expansion of a table with two buckets. -/
theorem run_inBounds_iff_one
    : (∃ t', (initSegments (newHeader 12 1)).run [⟨true, true⟩] = some t' ∧ t'.InBounds)
      ↔ (newHeader 12 1).maxBucket + [Memory.mk true true].length
        < DEF_SEGSIZE * (initSegments (newHeader 12 1)).dir.dsize :=
  run_inBounds_iff (show initHtab 12 65536 1 = some (newHeader 12 1) from rfl) [⟨true, true⟩]

/-- Counterexample: a table with 65536 buckets has used the 256 entries of its directory. The next call
allocates 512 entries and counts 4096.
-/
theorem expansion_overcounts_directory
    : ∃ h t, initHtab 12 1 65536 = some h
      ∧ (initSegments h).run [⟨true, true⟩] = some t
      ∧ t.dir.dsize = 4096
      ∧ t.dir.entries = 512
      ∧ ¬ t.InBounds := by
  refine ⟨newHeader 12 16, _, rfl, rfl, by decide, by decide, fun inside => ?_⟩
  exact absurd inside.1 (by decide)

end BSDLibC.HashDb
