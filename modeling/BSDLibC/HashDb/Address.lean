import BSDLibC.HashDb.PageRuns

/-! Linear hashing: the bucket of a hash value, and what an expansion of the table does with the keys
that are stored. A call that gets no memory for a new segment has counted the new bucket already.
-/

namespace BSDLibC.HashDb

/-- `__call_hash`, where `n` is what the hash function returns. The comparison is a signed one. -/
def callHash (h : Header) (n : BitVec 32) : Nat :=
  let bucket := n &&& BitVec.ofNat 32 h.highMask
  let bucket := if bucket.toInt > h.maxBucket then bucket &&& BitVec.ofNat 32 h.lowMask else bucket
  bucket.toNat

/-- The hash values of the keys in each bucket. -/
abbrev Contents := Nat → List (BitVec 32)

/-- The keys that `__split_page` moves are those that no longer belong to the old bucket. -/
def splitPage (h : Header) (obucket nbucket : Nat) (contents : Contents) : Contents :=
  let stay := (contents obucket).filter (fun n => callHash h n = obucket)
  let moved := (contents obucket).filter (fun n => callHash h n ≠ obucket)
  Function.update (Function.update contents nbucket (contents nbucket ++ moved)) obucket stay

/-- The end of `__expand_table`, which a call without memory does not reach. -/
def relocate (h : Header) (buckets : Option (Nat × Nat)) (contents : Contents) : Contents :=
  match buckets with
  | none => contents
  | some (obucket, nbucket) => splitPage h obucket nbucket contents

/-- Calls of `__expand_table`, each with or without memory. -/
def expansions (calls : List Bool) (h : Header) : Option Header :=
  calls.foldlM (fun h grown => (expandTable grown h).map Prod.snd) h

def Findable (h : Header) (contents : Contents) : Prop := ∀ b, ∀ n ∈ contents b, callHash h n = b

/-- A call takes keys only from the old bucket, only to the new one, and all of them are found
afterwards where they were found before.
-/
structure KeepsKeys (h : Header) (buckets : Option (Nat × Nat)) (h' : Header) : Prop where
  moved : ∀ n, callHash h' n ≠ callHash h n
    → callHash h n = (h.maxBucket + 1) &&& h.lowMask
      ∧ (callHash h' n = (h.maxBucket + 1) &&& h.lowMask ∨ callHash h' n = h.maxBucket + 1)
  found : ∀ contents, Findable h contents → Findable h' (relocate h' buckets contents)

variable {h h' : Header} {buckets : Option (Nat × Nat)} {grown : Bool} {bshift ffactor nelem k : Nat}

-----------------------------------------------------------------------------------------
-- The range of the buckets
-----------------------------------------------------------------------------------------

/-- What holds of the masks after failures, too. -/
structure Bounded (h : Header) : Prop where
  low : h.lowMask ≤ h.maxBucket
  high : h.highMask < 2 ^ 31
  ints : h.maxBucket < 2 ^ 31

theorem Bounded.callHash_eq (bounded : Bounded h) (n : BitVec 32)
    : callHash h n
      = if h.maxBucket < n.toNat &&& h.highMask then (n.toNat &&& h.highMask) &&& h.lowMask
        else n.toNat &&& h.highMask := by
  have high := bounded.high
  have small : (BitVec.ofNat 32 h.highMask).toNat = h.highMask := by
    rw [BitVec.toNat_ofNat]
    omega
  have lowSmall : (BitVec.ofNat 32 h.lowMask).toNat = h.lowMask := by
    have := bounded.low
    have := bounded.ints
    rw [BitVec.toNat_ofNat]
    omega
  have bucket : (n &&& BitVec.ofNat 32 h.highMask).toNat = n.toNat &&& h.highMask := by
    rw [BitVec.toNat_and, small]
  have bound : n.toNat &&& h.highMask ≤ h.highMask := Nat.and_le_right
  have signed : (n &&& BitVec.ofNat 32 h.highMask).toInt = (n.toNat &&& h.highMask : Nat) := by
    rw [BitVec.toInt_eq_toNat_of_lt (by omega), bucket]
  rw [callHash]
  simp only [signed, gt_iff_lt, Int.ofNat_lt]
  split
  · rw [BitVec.toNat_and, bucket, lowSmall]
  · exact bucket

/-- A bucket is never behind the last one. -/
theorem Bounded.callHash_le (bounded : Bounded h) (n : BitVec 32) : callHash h n ≤ h.maxBucket := by
  rw [bounded.callHash_eq n]
  split
  · exact Nat.and_le_right.trans bounded.low
  · omega

/-- What a call does to the number of buckets and the masks. -/
theorem expandTable_cases (run : expandTable grown h = some (buckets, h'))
    : h.maxBucket + 1 < 2 ^ 31
      ∧ h'.maxBucket = h.maxBucket + 1
      ∧ buckets = (if grown then some ((h.maxBucket + 1) &&& h.lowMask, h.maxBucket + 1) else none)
      ∧ h'.lowMask = (if grown ∧ h.highMask < h.maxBucket + 1 then h.highMask else h.lowMask)
      ∧ h'.highMask
        = (if grown ∧ h.highMask < h.maxBucket + 1 then (h.maxBucket + 1) ||| h.highMask else h.highMask) := by
  by_cases ints : h.maxBucket + 1 < 2 ^ 31
  · refine ⟨ints, ?_⟩
    cases grown with
    | false =>
        simp only [expandTable, guard, if_pos ints] at run
        cases run
        exact ⟨rfl, rfl, rfl, rfl⟩
    | true =>
        simp only [expandTable, guard, if_pos ints] at run
        cases run
        by_cases doubling : h.highMask < h.maxBucket + 1 <;>
          by_cases point : h.ovflPoint < log2 (h.maxBucket + 1 + 1) <;>
          simp [doubling, point]
  · simp only [expandTable, guard, if_neg ints] at run
    cases run

theorem Bounded.step (bounded : Bounded h) (run : expandTable grown h = some (buckets, h')) : Bounded h' := by
  obtain ⟨ints, last, -, low, high⟩ := expandTable_cases run
  have := bounded.low
  have := bounded.high
  refine ⟨?_, ?_, by omega⟩
  · rw [low, last]
    split <;> omega
  · rw [high]
    split
    · exact Nat.or_lt_two_pow ints bounded.high
    · exact bounded.high

theorem newHeader_bounded (few : k < 30) : Bounded (newHeader bshift k) := by
  have double : 2 ^ k * 2 ≤ 2 ^ 30 := by
    rw [← Nat.pow_succ]
    exact Nat.pow_le_pow_right (by decide) few
  refine ⟨le_rfl, ?_, ?_⟩
  · change (2 ^ k <<< 1) - 1 < 2 ^ 31
    rw [Nat.shiftLeft_eq]
    omega
  · change 2 ^ k - 1 < 2 ^ 31
    omega

theorem Bounded.run (bounded : Bounded h) (calls : List Bool) (run : expansions calls h = some h') : Bounded h' := by
  induction calls generalizing h with
  | nil =>
      cases run
      exact bounded
  | cons grown rest ih =>
      simp only [expansions, List.foldlM_cons] at run ih
      cases step : expandTable grown h with
      | none => simp [step] at run
      | some result =>
          rw [step] at run
          exact ih (bounded.step step) run

-----------------------------------------------------------------------------------------
-- What an expansion moves
-----------------------------------------------------------------------------------------

/-- The masks are those of the number of buckets. -/
structure Masks (h : Header) (k : Nat) : Prop where
  low : h.lowMask = 2 ^ k - 1
  high : h.highMask = 2 ^ (k + 1) - 1
  many : h.lowMask ≤ h.maxBucket
  few : h.maxBucket ≤ h.highMask
  ints : k + 1 ≤ 31

theorem Masks.bounded (masks : Masks h k) : Bounded h := by
  have power : 2 ^ (k + 1) ≤ 2 ^ 31 := Nat.pow_le_pow_right (by decide) masks.ints
  have high := masks.high
  have few := masks.few
  exact ⟨masks.many, by omega, by omega⟩

theorem Masks.callHash_eq (masks : Masks h k) (n : BitVec 32)
    : callHash h n
      = if h.maxBucket < n.toNat % 2 ^ (k + 1) then n.toNat % 2 ^ k else n.toNat % 2 ^ (k + 1) := by
  rw [masks.bounded.callHash_eq n, masks.high, masks.low, Nat.and_two_pow_sub_one_eq_mod, Nat.and_two_pow_sub_one_eq_mod,
    Nat.mod_mod_of_dvd _ (Nat.pow_dvd_pow 2 (Nat.le_succ k))]

theorem newHeader_masks (few : k < 30) : Masks (newHeader bshift k) k := by
  have double : 2 ^ (k + 1) = 2 ^ k * 2 := Nat.pow_succ 2 k
  refine ⟨rfl, ?_, le_rfl, ?_, by omega⟩
  · change (2 ^ k <<< 1) - 1 = _
    rw [Nat.shiftLeft_eq, double]
  · change 2 ^ k - 1 ≤ (2 ^ k <<< 1) - 1
    rw [Nat.shiftLeft_eq]
    omega

/-- The masks follow the number of buckets as long as there is memory. -/
theorem Masks.step (masks : Masks h k) (run : expandTable true h = some (buckets, h')) : ∃ k', Masks h' k' := by
  obtain ⟨ints, last, -, low, high⟩ := expandTable_cases run
  have positive := Nat.two_pow_pos k
  have double : 2 ^ (k + 1) = 2 ^ k * 2 := Nat.pow_succ 2 k
  have lowEq := masks.low
  have highEq := masks.high
  have many := masks.many
  have few := masks.few
  by_cases doubling : h.highMask < h.maxBucket + 1
  · rw [if_pos ⟨rfl, doubling⟩] at low high
    have power : h.maxBucket + 1 = 2 ^ (k + 1) := by omega
    have less : k + 1 < 31 := (Nat.pow_lt_pow_iff_right (show 1 < 2 by decide)).mp (power ▸ ints)
    have next : 2 ^ (k + 1 + 1) = 2 ^ (k + 1) * 2 := Nat.pow_succ 2 (k + 1)
    have disjoint : (h.maxBucket + 1) ||| h.highMask = 2 ^ (k + 1) + h.highMask := by
      rw [power]
      simpa using (Nat.two_pow_add_eq_or_of_lt (show h.highMask < 2 ^ (k + 1) by omega) 1).symm
    exact ⟨k + 1, by omega, by omega, by omega, by omega, by omega⟩
  · rw [if_neg fun both => doubling both.2] at low high
    exact ⟨k, by omega, by omega, by omega, by omega, masks.ints⟩

theorem Masks.run (masks : Masks h k) (calls : List Bool) (memory : ∀ grown ∈ calls, grown = true)
    (run : expansions calls h = some h')
    : ∃ k', Masks h' k' := by
  induction calls generalizing h k with
  | nil =>
      cases run
      exact ⟨k, masks⟩
  | cons grown rest ih =>
      obtain rfl := memory grown List.mem_cons_self
      simp only [expansions, List.foldlM_cons] at run ih
      cases step : expandTable true h with
      | none => simp [step] at run
      | some result =>
          rw [step] at run
          obtain ⟨k', masks'⟩ := masks.step step
          exact ih masks' (fun grown inside => memory grown (List.mem_cons_of_mem _ inside)) run

/-- The old bucket is the new one without its highest bit. -/
theorem Masks.oldBucket_eq (masks : Masks h k) : (h.maxBucket + 1) &&& h.lowMask = (h.maxBucket + 1) % 2 ^ k := by
  rw [masks.low, Nat.and_two_pow_sub_one_eq_mod]

/-- With memory a key moves only if its hash value selects the new bucket, and it was in the old one. -/
theorem Masks.moved (masks : Masks h k) (run : expandTable true h = some (buckets, h')) (n : BitVec 32)
    : callHash h' n = callHash h n
      ∨ callHash h n = (h.maxBucket + 1) &&& h.lowMask ∧ callHash h' n = h.maxBucket + 1 := by
  obtain ⟨k', masks'⟩ := masks.step run
  obtain ⟨-, last, -, low, high⟩ := expandTable_cases run
  rw [masks.callHash_eq, masks'.callHash_eq, masks.oldBucket_eq, last]
  have positive := Nat.two_pow_pos k
  have double : 2 ^ (k + 1) = 2 ^ k * 2 := Nat.pow_succ 2 k
  have half : n.toNat % 2 ^ (k + 1) % 2 ^ k = n.toNat % 2 ^ k := Nat.mod_mod_of_dvd _ (Nat.pow_dvd_pow 2 (Nat.le_succ k))
  have lowEq := masks.low
  have highEq := masks.high
  have lowEq' := masks'.low
  have few := masks.few
  have same (j : Nat) (h₁ : 2 ^ j - 1 = 2 ^ k' - 1) : j = k' := by
    have := Nat.two_pow_pos j
    have := Nat.two_pow_pos k'
    exact Nat.pow_right_injective (le_refl 2) (show 2 ^ j = 2 ^ k' by omega)
  by_cases doubling : h.highMask < h.maxBucket + 1
  · rw [if_pos ⟨rfl, doubling⟩] at low
    obtain rfl := same (k + 1) (by omega)
    have power : h.maxBucket + 1 = 2 ^ (k + 1) := by omega
    have whole : n.toNat % 2 ^ (k + 1 + 1) % 2 ^ (k + 1) = n.toNat % 2 ^ (k + 1) :=
      Nat.mod_mod_of_dvd _ (Nat.pow_dvd_pow 2 (Nat.le_succ (k + 1)))
    have bound : n.toNat % 2 ^ (k + 1) < 2 ^ (k + 1) := Nat.mod_lt _ (by omega)
    rw [power, if_neg (show ¬ h.maxBucket < n.toNat % 2 ^ (k + 1) by omega)]
    by_cases new : n.toNat % 2 ^ (k + 1 + 1) = 2 ^ (k + 1)
    · right
      rw [new, if_neg (lt_irrefl _)]
      rw [new, Nat.mod_self] at whole
      rw [← whole, double, Nat.mul_mod_right]
      exact ⟨rfl, rfl⟩
    · left
      split
      · rfl
      · rw [← whole]
        exact (Nat.mod_eq_of_lt (by omega)).symm
  · rw [if_neg fun both => doubling both.2] at low
    obtain rfl := same k (by omega)
    by_cases new : n.toNat % 2 ^ (k + 1) = h.maxBucket + 1
    · right
      rw [new, if_pos (Nat.lt_succ_self _), if_neg (lt_irrefl _), ← new, half]
      exact ⟨rfl, rfl⟩
    · left
      split <;> split <;> first | rfl | omega

/-- Before a call there are no keys in the bucket that it adds. -/
theorem Findable.nothing_behind {contents : Contents} (findable : Findable h contents) (bounded : Bounded h)
    : contents (h.maxBucket + 1) = [] := by
  refine List.eq_nil_iff_forall_not_mem.mpr fun n inside => ?_
  have := bounded.callHash_le n
  have := findable _ n inside
  omega

/-- With memory all keys are found again. -/
theorem Masks.keepsKeys (masks : Masks h k) (run : expandTable true h = some (buckets, h')) : KeepsKeys h buckets h' := by
  have moved := masks.moved run
  refine ⟨fun n changed => ?_, fun contents findable b n inside => ?_⟩
  · obtain same | ⟨before, after⟩ := moved n
    · exact absurd same changed
    · exact ⟨before, Or.inr after⟩
  · obtain ⟨-, -, rfl, -⟩ := expandTable_cases run
    have empty := findable.nothing_behind masks.bounded
    rw [if_pos rfl, relocate, splitPage] at inside
    by_cases old : b = (h.maxBucket + 1) &&& h.lowMask
    · rw [old, Function.update_self] at inside
      rw [old]
      simpa using (List.mem_filter.mp inside).2
    · rw [Function.update_of_ne old] at inside
      by_cases new : b = h.maxBucket + 1
      · rw [new, Function.update_self, empty, List.nil_append, List.mem_filter] at inside
        rw [new]
        have before := findable _ n inside.1
        obtain same | ⟨-, after⟩ := moved n
        · have away : callHash h' n ≠ (h.maxBucket + 1) &&& h.lowMask := by simpa using inside.2
          exact absurd (same.trans before) away
        · exact after
      · rw [Function.update_of_ne new] at inside
        have before := findable b n inside
        obtain same | ⟨origin, -⟩ := moved n
        · exact same.trans before
        · exact absurd (before.symm.trans origin) old

/-- Without memory the last bucket is counted but not filled, and a key that selects it is lost unless
the masks do not reach it yet.
-/
theorem Masks.keepsKeys_failed (masks : Masks h k) (run : expandTable false h = some (buckets, h'))
    : KeepsKeys h buckets h' ↔ h.maxBucket = h.highMask := by
  obtain ⟨ints, last, rfl, low, high⟩ := expandTable_cases run
  rw [if_neg fun both => Bool.false_ne_true both.1] at low high
  have bounded := masks.bounded
  have bounded' := bounded.step run
  have positive := Nat.two_pow_pos k
  have double : 2 ^ (k + 1) = 2 ^ k * 2 := Nat.pow_succ 2 k
  have lowEq := masks.low
  have highEq := masks.high
  have many := masks.many
  have few := masks.few
  constructor
  · intro keeps
    by_contra less
    have value : (BitVec.ofNat 32 (h.maxBucket + 1)).toNat = h.maxBucket + 1 := by
      rw [BitVec.toNat_ofNat]
      omega
    have selects : (h.maxBucket + 1) % 2 ^ (k + 1) = h.maxBucket + 1 := Nat.mod_eq_of_lt (by omega)
    have before : callHash h (BitVec.ofNat 32 (h.maxBucket + 1)) = (h.maxBucket + 1) % 2 ^ k := by
      rw [masks.callHash_eq, value, selects, if_pos (Nat.lt_succ_self _)]
    have after : callHash h' (BitVec.ofNat 32 (h.maxBucket + 1)) = h.maxBucket + 1 := by
      rw [bounded'.callHash_eq, value, high, last, highEq, Nat.and_two_pow_sub_one_eq_mod, selects,
        if_neg (lt_irrefl _)]
    have lost := keeps.found
      (Function.update (fun _ => []) ((h.maxBucket + 1) % 2 ^ k) [BitVec.ofNat 32 (h.maxBucket + 1)]) ?_
      ((h.maxBucket + 1) % 2 ^ k) (BitVec.ofNat 32 (h.maxBucket + 1)) (by simp [relocate])
    · rw [after] at lost
      have := Nat.mod_lt (h.maxBucket + 1) positive
      omega
    · intro b n inside
      by_cases here : b = (h.maxBucket + 1) % 2 ^ k
      · rw [here, Function.update_self, List.mem_singleton] at inside
        rw [inside, before, here]
      · rw [Function.update_of_ne here] at inside
        cases inside
  · intro full
    have same (n : BitVec 32) : callHash h' n = callHash h n := by
      have bound : n.toNat &&& h.highMask ≤ h.highMask := Nat.and_le_right
      rw [bounded'.callHash_eq, bounded.callHash_eq, high, last, if_neg (by omega), if_neg (by omega)]
    refine ⟨fun n changed => absurd (same n) changed, fun contents findable b n inside => ?_⟩
    rw [same n]
    exact findable b n (by simpa [relocate] using inside)

-----------------------------------------------------------------------------------------
-- Runs
-----------------------------------------------------------------------------------------

/-- In every run all buckets are in range. As long as all calls have got their memory, a call moves
keys as linear hashing has to, exactly when it gets its memory too or no hash value selects its new
bucket yet.
-/
theorem expansions_keep_keys (new : initHtab bshift ffactor nelem = some h)
    : (∀ calls h', expansions calls h = some h' → ∀ n, callHash h' n ≤ h'.maxBucket)
      ∧ ∀ calls h₁, (∀ grown ∈ calls, grown = true) → expansions calls h = some h₁
        → ∀ grown buckets h', expandTable grown h₁ = some (buckets, h')
          → (KeepsKeys h₁ buckets h' ↔ grown = true ∨ h₁.maxBucket = h₁.highMask) := by
  obtain ⟨k, few, rfl⟩ := initHtab_eq new
  refine ⟨fun calls h' run => ((newHeader_bounded few).run calls run).callHash_le, ?_⟩
  intro calls h₁ memory run grown buckets h' step
  obtain ⟨k', masks⟩ := (newHeader_masks few).run calls memory run
  cases grown with
  | true => exact iff_of_true (masks.keepsKeys step) (Or.inl rfl)
  | false =>
      rw [masks.keepsKeys_failed step]
      simp

/-- Witness: the expansions of a table with two buckets. -/
theorem expansions_keep_keys_two
    : (∀ calls h', expansions calls (newHeader 12 1) = some h' → ∀ n, callHash h' n ≤ h'.maxBucket)
      ∧ ∀ calls h₁, (∀ grown ∈ calls, grown = true) → expansions calls (newHeader 12 1) = some h₁
        → ∀ grown buckets h', expandTable grown h₁ = some (buckets, h')
          → (KeepsKeys h₁ buckets h' ↔ grown = true ∨ h₁.maxBucket = h₁.highMask) :=
  expansions_keep_keys (show initHtab 12 65536 1 = some (newHeader 12 1) from rfl)

/-- Counterexample: a table with 256 buckets needs a new segment for the next one and gets none. A key
with the hash value 256 stays in bucket 0, and is looked for in bucket 256.
-/
theorem failed_expansion_loses_key
    : ∃ h h', initHtab 12 1 256 = some h
      ∧ expandTable false h = some (none, h')
      ∧ callHash h 256#32 = 0
      ∧ callHash h' 256#32 = 256
      ∧ ¬ KeepsKeys h none h' := by
  have few : 8 < 30 := by decide
  refine ⟨newHeader 12 8, { newHeader 12 8 with maxBucket := 256 }, rfl, rfl, rfl, rfl, fun keeps => ?_⟩
  have masks : Masks (newHeader 12 8) 8 := newHeader_masks few
  have found := (masks.keepsKeys_failed rfl).mp keeps
  exact absurd found (by decide)

end BSDLibC.HashDb
