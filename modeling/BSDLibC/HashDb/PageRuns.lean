import BSDLibC.HashDb.Extension

/-! Runs of the calls that change the header, from a new table on. -/

namespace BSDLibC.HashDb

/-- The outcomes of the memory allocations in a call are part of it. -/
inductive Call
  | overflowPage (malloc : Bool)
  | freeOvflpage (addr : Nat)
  | expandTable (grown : Bool)

/-- The address that is returned, or 0. -/
def Call.apply (h : Header) : Call → Option (Nat × Header)
  | .overflowPage malloc => HashDb.overflowPage malloc h
  | .freeOvflpage addr => (HashDb.freeOvflpage h addr).map (fun h => (0, h))
  | .expandTable grown => (HashDb.expandTable grown h).map (fun r => (0, r.2))

/-- The addresses that are allocated after a call. -/
def Call.update (alloc : Nat → Prop) (result : Nat) : Call → Nat → Prop
  | .overflowPage _ => Given result alloc
  | .freeOvflpage addr => fun a => a ≠ addr ∧ alloc a
  | .expandTable _ => alloc

/-- Only pages that are allocated are freed. -/
def Call.Allowed (alloc : Nat → Prop) : Call → Prop
  | .freeOvflpage addr => alloc addr
  | _ => True

/-- An address that is returned was not allocated. -/
def Call.Fresh (alloc : Nat → Prop) (result : Nat) : Call → Prop
  | .overflowPage _ => result ≠ 0 → ¬ alloc result
  | _ => True

/-- In all states of a run no page is shared, and no address is returned twice. -/
def PagesApart : Header → (Nat → Prop) → List Call → Prop
  | h, alloc, [] => PagesDiffer h alloc
  | h, alloc, call :: rest =>
      PagesDiffer h alloc
      ∧ ∀ result h', call.apply h = some (result, h')
        → call.Fresh alloc result ∧ PagesApart h' (call.update alloc result) rest

def AllowedCalls : Header → (Nat → Prop) → List Call → Prop
  | _, _, [] => True
  | h, alloc, call :: rest =>
      call.Allowed alloc
      ∧ ∀ result h', call.apply h = some (result, h') → AllowedCalls h' (call.update alloc result) rest

/-- The two conditions on the header before a call: `overflow_page` does not have to put a new map on
the last page of a split point, and the next bucket is not two split points further, where it can
only be after failures to allocate a segment.
-/
def Call.Safe (h : Header) : Call → Prop
  | .overflowPage malloc => ¬ Skips malloc h
  | .freeOvflpage _ => True
  | .expandTable _ => h.maxBucket + 1 < 2 ^ (h.ovflPoint + 1)

def SafeCalls : Header → List Call → Prop
  | _, [] => True
  | h, call :: rest => call.Safe h ∧ ∀ result h', call.apply h = some (result, h') → SafeCalls h' rest

variable {h h' : Header} {alloc : Nat → Prop} {bshift ffactor nelem : Nat}

/-- One call. -/
theorem Call.apply_spec (wf : Wf h alloc) (call : Call) (allowed : call.Allowed alloc) (safe : call.Safe h)
    {result : Nat} (run : call.apply h = some (result, h'))
    : Wf h' (call.update alloc result) ∧ call.Fresh alloc result := by
  cases call with
  | overflowPage malloc => exact overflowPage_spec wf safe run
  | freeOvflpage addr =>
      obtain ⟨h₁, freed, wf₁⟩ := freeOvflpage_spec wf allowed
      rw [Call.apply, freed] at run
      cases run
      exact ⟨wf₁, trivial⟩
  | expandTable grown =>
      obtain ⟨⟨buckets, h₁⟩, expanded, same⟩ := Option.map_eq_some_iff.mp run
      cases same
      exact ⟨expandTable_spec wf safe expanded, trivial⟩

theorem Wf.pagesApart (wf : Wf h alloc) (calls : List Call) (allowed : AllowedCalls h alloc calls)
    (safe : SafeCalls h calls)
    : PagesApart h alloc calls := by
  induction calls generalizing h alloc with
  | nil => exact wf.pagesDiffer
  | cons call rest ih =>
      refine ⟨wf.pagesDiffer, fun result h' run => ?_⟩
      obtain ⟨wf', fresh⟩ := call.apply_spec wf allowed.1 safe.1 run
      exact ⟨fresh, ih wf' (allowed.2 result h' run) (safe.2 result h' run)⟩

/-- The header of a new table with `2 ^ l2` buckets. -/
def newHeader (bshift l2 : Nat) : Header where
  bshift
  hdrpages := ((512 - 1) >>> bshift) + 1
  ovflPoint := l2
  lastFreed := 2
  maxBucket := 2 ^ l2 - 1
  lowMask := 2 ^ l2 - 1
  highMask := (2 ^ l2 <<< 1) - 1
  spares := Function.update (Function.update (fun _ => 0) l2 (l2 + 1)) (l2 + 1) (l2 + 1)
  bitmaps := Function.update (fun _ => 0) 0 (oaddrOf l2 1 % 2 ^ 16)
  mapp := Function.update (fun _ => none) 0 (some (ibitmap.words (l2 + 1)))
  nmaps := 1

theorem initHtab_eq (new : initHtab bshift ffactor nelem = some h) : ∃ l2, l2 < 30 ∧ h = newHeader bshift l2 := by
  rw [initHtab] at new
  generalize log2 (max (((nelem - 1) / ffactor + 1) % 2 ^ 32) 2) = l2 at new
  by_cases few : l2 < 30
  · simp only [guard, if_pos few, Nat.shiftLeft_eq 1, Nat.one_mul] at new
    cases new
    exact ⟨l2, few, rfl⟩
  · simp only [guard, if_neg few] at new
    cases new

theorem newHeader_spares (bshift l2 i : Nat)
    : (newHeader bshift l2).spares i = if i = l2 ∨ i = l2 + 1 then l2 + 1 else 0 := by
  by_cases next : i = l2 + 1
  · simp [newHeader, next]
  · by_cases here : i = l2 <;> simp [newHeader, next, here]

theorem newHeader_before (bshift l2 : Nat) : (newHeader bshift l2).before l2 = 0 := by
  rw [Header.before]
  split
  · rfl
  · rw [newHeader_spares, if_neg (by omega)]

theorem newHeader_wf {l2 : Nat} (small : 6 ≤ bshift) (large : bshift ≤ 16) (few : l2 < 30)
    : Wf (newHeader bshift l2) (fun _ => False) := by
  have power : 2 ^ 6 ≤ 2 ^ bshift := Nat.pow_le_pow_right (by decide) small
  have bits : 512 ≤ (newHeader bshift l2).mapBits := by
    rw [mapBits_eq]
    exact (show 512 ≤ 8 * 2 ^ bshift by omega)
  have buckets : 2 ^ l2 < 2 ^ (l2 + 1) := Nat.pow_lt_pow_right (by decide) (by omega)
  have ints : 2 ^ (l2 + 1) ≤ 2 ^ 31 := Nat.pow_le_pow_right (by decide) (by omega)
  have spare : (newHeader bshift l2).spares (newHeader bshift l2).ovflPoint = l2 + 1 :=
    (newHeader_spares bshift l2 l2).trans (if_pos (Or.inl rfl))
  have last : (newHeader bshift l2).maxBucket = 2 ^ l2 - 1 := rfl
  have point : (newHeader bshift l2).ovflPoint = l2 := rfl
  refine ⟨small, large, ?_, by omega, fun i low => ?_, by rw [last, point]; omega, by omega, ?_, fun k => ?_,
    Nat.one_pos, (show 1 ≤ 32 by decide), ?_, fun k map b here inside clear => ?_, fun k low => ?_, fun a given => given.elim⟩
  · have pages : (newHeader bshift l2).hdrpages = (512 - 1) / 2 ^ bshift + 1 :=
      congrArg (· + 1) (Nat.shiftRight_eq_div_pow _ _)
    rw [pages]
    exact Nat.succ_le_succ (Nat.div_le_div_left power (by decide))
  · rw [newHeader_spares, if_neg (by omega)]
    exact Nat.zero_le _
  · rw [spare]
    exact (show 2 < max (l2 + 1) 3 by omega)
  · change Function.update (fun _ => none) 0 (some (ibitmap.words (l2 + 1))) k ≠ none ↔ k < 1
    by_cases first : k = 0 <;> simp [first]
  · rw [spare]
    exact (show l2 + 1 ≤ 1 * (newHeader bshift l2).mapBits + 1 by omega)
  · replace here : Function.update (fun _ => none) 0 (some (ibitmap.words (l2 + 1))) k = some map := here
    by_cases first : k = 0
    · rw [first, Function.update_self, Option.some.injEq] at here
      rw [← here] at clear
      obtain ⟨notFirst, less⟩ := words_clear (Nat.succ_pos l2) clear
      rw [spare, first]
      exact ⟨notFirst, by omega⟩
    · rw [Function.update_of_ne first] at here
      cases here
  · have first : k = 0 := Nat.lt_one_iff.mp low
    have map : (newHeader bshift l2).bitmaps k = oaddrOf l2 1 := by
      rw [first]
      change Function.update (fun _ => 0 : Nat → Nat) 0 (oaddrOf l2 1 % 2 ^ 16) 0 = _
      rw [Function.update_self]
      exact oaddrOf_mod (by omega) (by decide)
    have before := newHeader_before bshift l2
    obtain ⟨valid, index, -⟩ := valid_oaddrOf (h := newHeader bshift l2) (s := l2) (o := 1) le_rfl le_rfl
      (by decide) (by rw [before, newHeader_spares, if_pos (Or.inl rfl)]; omega)
    rw [map, first]
    exact ⟨valid, by omega⟩

/-- Every run of a new table whose calls are safe keeps the pages apart. -/
theorem pagesApart_of_safe (small : 6 ≤ bshift) (large : bshift ≤ 16)
    (new : initHtab bshift ffactor nelem = some h) (calls : List Call)
    (allowed : AllowedCalls h (fun _ => False) calls) (safe : SafeCalls h calls)
    : PagesApart h (fun _ => False) calls := by
  obtain ⟨l2, few, rfl⟩ := initHtab_eq new
  exact (newHeader_wf small large few).pagesApart calls allowed safe

/-- Witness: two pages are given out, before and after an expansion, and the first one is freed. -/
theorem pagesApart_of_safe_two
    : PagesApart (newHeader 6 1) (fun _ => False)
        [.overflowPage true, .expandTable true, .overflowPage true, .freeOvflpage 2050] := by
  refine pagesApart_of_safe (by decide) (by decide) (show initHtab 6 65536 1 = some (newHeader 6 1) from rfl) _ ?_ ?_
  · refine ⟨trivial, fun result h run => ?_⟩
    cases run
    refine ⟨trivial, fun result h run => ?_⟩
    cases run
    refine ⟨trivial, fun result h run => ?_⟩
    cases run
    exact ⟨Or.inr (Or.inl ⟨by decide, rfl⟩), fun _ _ _ => trivial⟩
  · refine ⟨?_, fun result h run => ?_⟩
    · rintro ⟨-, -, -, -, -, far⟩
      cases far
    cases run
    refine ⟨(show 1 + 1 < 2 ^ (1 + 1) by decide), fun result h run => ?_⟩
    cases run
    refine ⟨?_, fun result h run => ?_⟩
    · rintro ⟨-, -, -, -, -, far⟩
      cases far
    exact ⟨trivial, fun _ _ _ => trivial⟩

-----------------------------------------------------------------------------------------
-- A run that shares a page
-----------------------------------------------------------------------------------------

/-- A table with pages of 64 bytes and three buckets, of which all overflow pages are in use. -/
structure Full (h : Header) (pages : Nat) : Prop where
  size : h.mapBits = 512
  point : h.ovflPoint = 2
  bucket : h.maxBucket = 2
  first : h.spares 1 = 2
  total : h.spares 2 = pages
  last : h.lastFreed < max pages 3
  maps : h.nmaps = (pages - 1) / 512 + 1
  full : ∀ k, k ≤ (pages - 1) / 512 → ∃ map, h.mapp k = some map ∧ ∀ j, map j = allSet

variable {pages : Nat}

theorem scan_full {freep : Bitmap} (full : ∀ j, freep j = allSet) (inUseBits turns j : Nat)
    : overflowPage.scan freep inUseBits turns j = none := by
  induction turns generalizing j with
  | zero => rfl
  | succ turns ih =>
      rw [overflowPage.scan]
      split
      · rw [if_neg (by simp [full j])]
        exact ih (j + 1)
      · rfl

theorem search_full {freePage freeBit firstPage turns k : Nat} {last : Option Bitmap} (few : freePage < nCached)
    (full : ∀ k, k ≤ freePage → ∃ map, h.mapp k = some map ∧ ∀ j, map j = allSet)
    (begun : k ≤ freePage + 1) (enough : freePage + 1 < k + turns)
    : ∃ freep, overflowPage.search h freePage freeBit firstPage turns k last = some (.exhausted freep) := by
  induction turns generalizing k last with
  | zero => omega
  | succ turns ih =>
      rw [overflowPage.search]
      by_cases inside : k ≤ freePage
      · obtain ⟨map, here, allBits⟩ := full k inside
        rw [if_pos inside, if_neg (by omega), here]
        simp only [scan_full allBits]
        exact ih (by omega) (by omega)
      · rw [if_neg inside]
        exact ⟨last, rfl⟩

section
variable (full : Full h pages) (few : pages ≤ 2048)
include full

theorem Full.freePage_eq : h.freePage = (pages - 1) / 512 := by
  rw [Header.freePage, full.point, full.total, full.size]

theorem Full.freeBit_eq : h.freeBit = (pages - 1) % 512 := by
  rw [Header.freeBit, full.point, full.total, full.size]

theorem Full.total_eq : h.spares h.ovflPoint = pages := by rw [full.point, full.total]

theorem Full.before_eq : h.before h.ovflPoint = 2 := by
  rw [full.point, Header.before, if_neg (by decide)]
  exact full.first

include few

/-- No page is free. -/
theorem Full.exhausted
    : ∃ map, overflowPage true h = overflowPage.fresh true h (some map)
      ∧ h.mapp ((pages - 1) / 512) = some map ∧ ∀ j, map j = allSet := by
  have begun := firstPage_le full.size.ge (by rw [full.point, full.total]; exact full.last)
  have page := full.freePage_eq
  obtain ⟨freep, start⟩ : ∃ freep, overflowPage.start h = some (.exhausted freep) := by
    rw [overflowPage.start]
    refine search_full ?_ (fun k low => full.full k (by omega)) (by omega)
      (lt_of_lt_of_le (Nat.lt_succ_self _) (Nat.le_add_left _ _))
    rw [page, nCached]
    omega
  obtain ⟨map, rfl, here⟩ := exhausted_map begun start
  rw [page] at here
  obtain ⟨map', there, allBits⟩ := full.full _ le_rfl
  rw [here, Option.some.injEq] at there
  refine ⟨map, ?_, here, fun j => by rw [there, allBits]⟩
  rw [overflowPage, start]
  rfl

/-- One more page. -/
theorem Full.step (inner : pages % 512 ≠ 0) (positive : 0 < pages)
    : ∃ result h', overflowPage true h = some (result, h') ∧ Full h' (pages + 1) := by
  obtain ⟨map, run, here, allBits⟩ := full.exhausted few
  have bits : h.oneMore.mapBits = 512 := full.size
  have point := full.point
  rw [run, fresh_eq, full.freePage_eq, full.freeBit_eq, full.before_eq, full.total_eq,
    if_neg (by rw [splitMask]; omega), overflowPage.extend, bits, if_neg (by omega)]
  refine ⟨_, _, rfl, full.size, full.point, full.bucket, ?_, ?_, ?_, ?_, fun k low => ?_⟩
  · exact (oneMore_spares h 1).trans ((if_neg (by omega)).trans full.first)
  · refine (oneMore_spares h 2).trans ((if_pos (by omega)).trans ?_)
    rw [point, full.total]
  · change h.spares h.ovflPoint < _
    rw [point, full.total]
    omega
  · exact full.maps.trans (by omega)
  · change ∃ map', Function.update h.mapp ((pages - 1) / 512) _ k = some map' ∧ ∀ j, map' j = allSet
    by_cases last : k = (pages - 1) / 512
    · refine ⟨_, by rw [last, Function.update_self], fun j => ?_⟩
      have ones (x : BitVec 32) : allSet ||| x = allSet := BitVec.allOnes_or
      rw [setBit]
      by_cases word : j = ((pages - 1) % 512 + 1) / 32
      · rw [word, Function.update_self, allBits, ones]
      · rw [Function.update_of_ne word, allBits]
    · rw [Function.update_of_ne last]
      exact full.full k (by omega)

/-- The page of a new map. -/
theorem Full.extend_eq (outer : pages % 512 = 0) (positive : 0 < pages)
    : overflowPage true h
      = if splitMask < pages then
          some (oaddrOf 3 0 % 2 ^ 16, (h.oneMore.newMap (oaddrOf 2 (pages - 1) % 2 ^ 16)).nextSplit 2)
        else
          some (oaddrOf 2 pages % 2 ^ 16, h.oneMore.newMap (oaddrOf 2 (pages - 1) % 2 ^ 16)) := by
  obtain ⟨map, run, here, allBits⟩ := full.exhausted few
  have bits : h.oneMore.mapBits = 512 := full.size
  have point : h.oneMore.ovflPoint = 2 := full.point
  have nmaps : (pages - 1) / 512 + 1 = h.oneMore.nmaps := full.maps.symm
  have offset : pages + 1 - 2 = pages - 1 := by omega
  have next : pages - 1 + 1 = pages := by omega
  rw [run, fresh_eq, full.freePage_eq, full.freeBit_eq, full.before_eq, full.total_eq, full.point, offset,
    if_neg (by rw [splitMask]; omega), overflowPage.extend, bits, if_pos (by omega),
    if_neg (by rw [nCached]; omega), nmaps, next]
  simp only [ibitmap, if_true]
  rw [Header.newMap, point]
  rfl

theorem Full.stepMap (outer : pages % 512 = 0) (positive : 0 < pages) (room : pages < 2048)
    : ∃ result h', overflowPage true h = some (result, h') ∧ Full h' (pages + 2) := by
  have point := full.point
  rw [full.extend_eq few outer positive, if_neg (by rw [splitMask]; omega)]
  refine ⟨_, _, rfl, full.size, full.point, full.bucket, ?_, ?_, ?_, ?_, fun k low => ?_⟩
  · rw [newMap_spares, if_neg (by rw [show h.oneMore.ovflPoint = 2 from point]; decide), oneMore_spares,
      if_neg (by omega), full.first]
  · rw [newMap_spares, if_pos (show 2 = h.oneMore.ovflPoint from point.symm), oneMore_spares,
      if_pos (show h.oneMore.ovflPoint = h.ovflPoint from rfl), full.total_eq]
  · change h.spares h.ovflPoint < _
    rw [full.total_eq]
    omega
  · exact (congrArg (· + 1) full.maps).trans (by omega)
  · change ∃ map', Function.update h.mapp h.nmaps _ k = some map' ∧ ∀ j, map' j = allSet
    have maps := full.maps
    by_cases last : k = h.nmaps
    · exact ⟨_, by rw [last, Function.update_self], words_one_word⟩
    · rw [Function.update_of_ne last]
      exact full.full k (by omega)

end

/-- All pages of the split point are given out. -/
theorem Full.fill {n : Nat} {rest : List Call} (full : Full h pages) (several : 2 ≤ pages)
    (few : pages ≤ 2048) (between : pages % 512 ≠ 1) (count : n + pages = 2045 + (pages - 1) / 512)
    (apart : PagesApart h alloc (List.replicate n (.overflowPage true) ++ rest))
    : ∃ h' alloc', Full h' 2048 ∧ PagesApart h' alloc' rest := by
  induction n generalizing h pages alloc with
  | zero =>
      have all : pages = 2048 := by omega
      exact ⟨h, alloc, all ▸ full, apart⟩
  | succ n ih =>
      have more {h' : Header} {result : Nat} (run : overflowPage true h = some (result, h')) :=
        (apart.2 result h' run).2
      by_cases outer : pages % 512 = 0
      · obtain ⟨result, h', run, full'⟩ := full.stepMap few outer (by omega) (by omega)
        exact ih full' (by omega) (by omega) (by omega) (by omega) (more run)
      · obtain ⟨result, h', run, full'⟩ := full.step few outer (by omega)
        exact ih full' (by omega) (by omega) (by omega) (by omega) (more run)

/-- The next page has the number 0 of its split point. -/
theorem Full.skip (full : Full h 2048)
    : ∃ h', overflowPage true h = some (6144, h') ∧ h'.maxBucket = 2 := by
  rw [full.extend_eq le_rfl rfl (by decide), if_pos (by decide)]
  exact ⟨_, rfl, full.bucket⟩

theorem apart_expand {rest : List Call} (few : h.maxBucket + 1 < 2 ^ 31)
    (apart : PagesApart h alloc (.expandTable true :: rest))
    : ∃ h', h'.maxBucket = h.maxBucket + 1 ∧ PagesApart h' alloc rest := by
  obtain ⟨result, h', run, bucket⟩ : ∃ result h', expandTable true h = some (result, h')
      ∧ h'.maxBucket = h.maxBucket + 1 := by
    simp only [expandTable, guard, if_pos few]
    refine ⟨_, _, rfl, ?_⟩
    split <;> split <;> rfl
  refine ⟨h', bucket, (apart.2 0 h' ?_).2⟩
  rw [Call.apply, run]
  rfl

/-- The address with the number 0 is the last page of the buckets before. -/
theorem shares_bucket (buckets : 7 ≤ h.maxBucket) (given : alloc 6144) : ¬ PagesDiffer h alloc := by
  intro differ
  have page : oaddrToPage h 6144 = bucketToPage h 7 := by
    change (bucketToPage h 7 + 0) % 2 ^ 32 = bucketToPage h 7
    rw [Nat.add_zero, bucketToPage, Nat.mod_mod]
  have same := differ (.bucket 7) (.overflow 6144) buckets given page.symm
  cases same

/-- A table with three buckets, and its first free page given out. -/
theorem full_start {rest : List Call}
    (apart : PagesApart (newHeader 6 1) alloc (.expandTable true :: .overflowPage true :: rest))
    : ∃ h alloc', Full h 2 ∧ PagesApart h alloc' rest := by
  have expanded := (apart.2 0 _ rfl).2
  have given := (expanded.2 2050 _ rfl).2
  refine ⟨_, _, ⟨rfl, rfl, rfl, rfl, rfl, by decide, rfl, fun k low => ?_⟩, given⟩
  have first : k = 0 := Nat.le_zero.mp low
  subst first
  refine ⟨_, rfl, fun j => ?_⟩
  by_cases zero : j = 0
  · subst zero
    decide
  · have words : (setBit (ibitmap.words 2) 1) j = allSet := by
      simp [setBit, ibitmap.words, zero]
    exact words

theorem allowedCalls_of_noFree {calls : List Call} (noFree : ∀ call ∈ calls, ∀ alloc, call.Allowed alloc)
    : AllowedCalls h alloc calls := by
  induction calls generalizing h alloc with
  | nil => trivial
  | cons call rest ih =>
      exact ⟨noFree call (by simp) alloc, fun _ _ _ => ih fun call inside => noFree call (by simp [inside])⟩

/-- After an expansion of a table with pages of 64 bytes, 2045 overflow pages and five more expansions
bucket 7 shares a page with the last of the overflow pages.
-/
theorem new_map_skips
    : initHtab 6 65536 1 = some (newHeader 6 1)
      ∧ AllowedCalls (newHeader 6 1) (fun _ => False)
          (.expandTable true :: (List.replicate 2045 (.overflowPage true)
            ++ List.replicate 5 (.expandTable true)))
      ∧ ¬ PagesApart (newHeader 6 1) (fun _ => False)
          (.expandTable true :: (List.replicate 2045 (.overflowPage true)
            ++ List.replicate 5 (.expandTable true))) := by
  refine ⟨rfl, allowedCalls_of_noFree fun call inside alloc => ?_, fun apart => ?_⟩
  · rcases List.mem_cons.mp inside with rfl | inside
    · trivial
    · rcases List.mem_append.mp inside with inside | inside <;>
        rw [List.eq_of_mem_replicate inside] <;> trivial
  · rw [show 2045 = 2043 + 1 + 1 from rfl, List.replicate_succ, List.replicate_succ', List.cons_append,
      List.append_assoc] at apart
    obtain ⟨h, alloc, full, apart⟩ := full_start apart
    obtain ⟨h, alloc, full, apart⟩ := full.fill (by decide) (by decide) (by decide) (by decide) apart
    obtain ⟨h, run, bucket⟩ := full.skip
    have apart := (apart.2 6144 h run).2
    obtain ⟨h₁, bucket₁, apart⟩ := apart_expand (by omega) apart
    obtain ⟨h₂, bucket₂, apart⟩ := apart_expand (by omega) apart
    obtain ⟨h₃, bucket₃, apart⟩ := apart_expand (by omega) apart
    obtain ⟨h₄, bucket₄, apart⟩ := apart_expand (by omega) apart
    obtain ⟨h₅, bucket₅, apart⟩ := apart_expand (by omega) apart
    exact shares_bucket (by omega) (Or.inl ⟨by decide, rfl⟩) apart

end BSDLibC.HashDb
