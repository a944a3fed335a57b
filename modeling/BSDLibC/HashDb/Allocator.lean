import BSDLibC.HashDb.Pages

/-! The calls that change the header keep its invariant, apart from one way through `overflow_page`. -/

namespace BSDLibC.HashDb

variable {h h' : Header} {a addr s o i j k : Nat} {alloc : Nat → Prop} {map freep : Bitmap} {malloc : Bool}

/-- More pages belong to the split points, and those there were are where they have been. -/
structure Extends (h h' : Header) : Prop where
  point : h.ovflPoint ≤ h'.ovflPoint
  fixed : ∀ i, i < h.ovflPoint → h'.spares i = h.spares i
  more : h.spares h.ovflPoint ≤ h'.spares h.ovflPoint

theorem Extends.before_eq (ext : Extends h h') (low : s ≤ h.ovflPoint) : h'.before s = h.before s := by
  rw [Header.before, Header.before]
  by_cases zero : s = 0
  · simp [zero]
  · rw [if_neg zero, if_neg zero, ext.fixed (s - 1) (by omega)]

theorem Extends.index_eq (ext : Extends h h') (low : splitNum a ≤ h.ovflPoint) : h'.pageIndex a = h.pageIndex a := by
  rw [Header.pageIndex, Header.pageIndex, ext.before_eq low]

theorem Extends.valid (ext : Extends h h') (valid : Valid h a) : Valid h' a := by
  refine ⟨valid.split.trans ext.point, valid.first, ?_⟩
  rw [ext.index_eq valid.split]
  refine valid.last.trans ?_
  rcases Nat.lt_or_eq_of_le valid.split with less | equal
  · rw [ext.fixed _ less]
  · rw [equal]
    exact ext.more

/-- The same maps, in a header with more pages. -/
theorem Wf.extend (wf : Wf h alloc) (ext : Extends h h') (size : h'.bshift = h.bshift)
    (hdr : h'.hdrpages = h.hdrpages) (mapp : h'.mapp = h.mapp) (nmaps : h'.nmaps = h.nmaps)
    (bitmaps : h'.bitmaps = h.bitmaps) (point : h'.ovflPoint < 32)
    (mono : ∀ i, i < h'.ovflPoint → h'.spares i ≤ h'.spares (i + 1))
    (buckets : h'.maxBucket < 2 ^ (h'.ovflPoint + 1)) (ints : h'.maxBucket < 2 ^ 31)
    (last : h'.lastFreed < max (h'.spares h'.ovflPoint) 3)
    (more : h.spares h.ovflPoint ≤ h'.spares h'.ovflPoint)
    (bound : h'.spares h'.ovflPoint ≤ h.nmaps * h.mapBits + 1)
    : Wf h' alloc := by
  have bits : h'.mapBits = h.mapBits := by rw [mapBits_eq, mapBits_eq, size]
  refine ⟨?_, ?_, ?_, point, mono, buckets, ints, last, ?_, ?_, ?_, ?_, ?_, ?_, ?_⟩
  · rw [size]
    exact wf.small
  · rw [size]
    exact wf.large
  · rw [hdr]
    exact wf.hdr
  · rw [mapp, nmaps]
    exact wf.maps
  · rw [nmaps]
    exact wf.someMap
  · rw [nmaps]
    exact wf.fewMaps
  · rwa [nmaps, bits]
  · rw [mapp, bits]
    intro k map b here low clear
    obtain ⟨notFirst, less⟩ := wf.clear k map b here low clear
    exact ⟨notFirst, lt_of_lt_of_le less more⟩
  · rw [nmaps, bitmaps, bits]
    intro k low
    obtain ⟨valid, index⟩ := wf.bitmap k low
    exact ⟨ext.valid valid, (ext.index_eq valid.split).trans index⟩
  · intro a given
    obtain ⟨valid, inner, set⟩ := wf.allocated a given
    refine ⟨ext.valid valid, ?_, ?_⟩
    · rwa [ext.index_eq valid.split, bits]
    · rw [ext.index_eq valid.split, Header.isSet, mapp, bits]
      exact set

-----------------------------------------------------------------------------------------
-- Bits
-----------------------------------------------------------------------------------------

/-- Another map, and another place to search from. -/
def Header.withMap (h : Header) (k : Nat) (map : Bitmap) (lastFreed : Nat) : Header :=
  { h with mapp := Function.update h.mapp k (some map), lastFreed := lastFreed }

theorem withMap_valid {last : Nat} : Valid (h.withMap k map last) a ↔ Valid h a :=
  ⟨fun ⟨split, first, last⟩ => ⟨split, first, last⟩, fun ⟨split, first, last⟩ => ⟨split, first, last⟩⟩

/-- A map is exchanged for one that still has the bits of the pages that are given out. -/
theorem Wf.withMap {alloc' : Nat → Prop} (wf : Wf h alloc) (low : k < h.nmaps) {last : Nat}
    (near : last < max (h.spares h.ovflPoint) 3)
    (clear : ∀ b, b < h.mapBits → map.bit b = false → b ≠ 0 ∧ k * h.mapBits + b < h.spares h.ovflPoint)
    (allocated : ∀ a, alloc' a → Valid h a ∧ (h.pageIndex a - 1) % h.mapBits ≠ 0
      ∧ (h.withMap k map last).isSet (h.pageIndex a - 1))
    : Wf (h.withMap k map last) alloc' := by
  refine ⟨wf.small, wf.large, wf.hdr, wf.point, wf.mono, wf.buckets, wf.ints, near, fun k' => ?_,
    wf.someMap, wf.fewMaps, wf.bound, fun k' map' b here inside isClear => ?_, fun k' inside => ?_, fun a given => ?_⟩
  · rw [Header.withMap]
    by_cases here : k' = k
    · simp [here, low]
    · simp only [Function.update_of_ne here]
      exact wf.maps k'
  · rw [Header.withMap] at here
    by_cases same : k' = k
    · subst same
      simp only [Function.update_self, Option.some.injEq] at here
      subst here
      exact clear b inside isClear
    · simp only [Function.update_of_ne same] at here
      exact wf.clear k' map' b here inside isClear
  · obtain ⟨valid, index⟩ := wf.bitmap k' inside
    exact ⟨withMap_valid.mpr valid, index⟩
  · obtain ⟨valid, inner, set⟩ := allocated a given
    exact ⟨withMap_valid.mpr valid, inner, set⟩

theorem isSet_withMap {last bit : Nat} (other : bit / h.mapBits ≠ k ∧ h.isSet bit
    ∨ bit / h.mapBits = k ∧ map.bit (bit % h.mapBits) = true)
    : (h.withMap k map last).isSet bit := by
  have bits : (h.withMap k map last).mapBits = h.mapBits := rfl
  rw [Header.isSet, bits]
  rcases other with ⟨ne, old, here, set⟩ | ⟨rfl, set⟩
  · exact ⟨old, by rw [Header.withMap]; simpa only [Function.update_of_ne ne] using here, set⟩
  · exact ⟨map, by simp [Header.withMap], set⟩

/-- A page that is given out before is still given out when a bit is set. -/
theorem Wf.keep_set (wf : Wf h alloc) (here : h.mapp k = some map) (bit : Nat) {last : Nat} (given : alloc a)
    : Valid h a ∧ (h.pageIndex a - 1) % h.mapBits ≠ 0
      ∧ (h.withMap k (setBit map bit) last).isSet (h.pageIndex a - 1) := by
  obtain ⟨valid, inner, old, there, set⟩ := wf.allocated a given
  refine ⟨valid, inner, isSet_withMap ?_⟩
  by_cases same : (h.pageIndex a - 1) / h.mapBits = k
  · refine Or.inr ⟨same, ?_⟩
    rw [same, here, Option.some.injEq] at there
    rw [bit_setBit, there, set, Bool.or_true]
  · exact Or.inl ⟨same, old, there, set⟩

/-- A bit is set, and its page is given out. -/
theorem Wf.give (wf : Wf h alloc) (here : h.mapp k = some map) {b last : Nat}
    (near : last < max (h.spares h.ovflPoint) 3) (inside : b < h.mapBits) (inner : b ≠ 0)
    (valid : Valid h addr) (index : h.pageIndex addr = k * h.mapBits + b + 1)
    : Wf (h.withMap k (setBit map b) last) (fun a => a = addr ∨ alloc a) := by
  have low : k < h.nmaps := (wf.maps k).mp (by simp [here])
  refine wf.withMap low near (fun b' inside' isClear => ?_) (fun a given => ?_)
  · rw [bit_setBit, Bool.or_eq_false_iff] at isClear
    exact wf.clear k map b' here inside' isClear.2
  · rcases given with rfl | given
    · have positive : 0 < h.mapBits := by omega
      have quotient : (k * h.mapBits + b) / h.mapBits = k := by
        rw [Nat.mul_comm, Nat.mul_add_div positive, Nat.div_eq_of_lt inside, Nat.add_zero]
      have rest : (k * h.mapBits + b) % h.mapBits = b := by
        rw [Nat.mul_comm, Nat.mul_add_mod, Nat.mod_eq_of_lt inside]
      rw [index, Nat.add_sub_cancel]
      refine ⟨valid, by rw [rest]; exact inner, isSet_withMap (Or.inr ⟨quotient, ?_⟩)⟩
      rw [rest, bit_setBit]
      simp
    · exact wf.keep_set here b given

/-- A bit is set for nothing. -/
theorem Wf.lose (wf : Wf h alloc) (here : h.mapp k = some map) (bit : Nat) {last : Nat}
    (near : last < max (h.spares h.ovflPoint) 3)
    : Wf (h.withMap k (setBit map bit) last) alloc := by
  have low : k < h.nmaps := (wf.maps k).mp (by simp [here])
  refine wf.withMap low near (fun b' inside' isClear => ?_) (fun a given => wf.keep_set here bit given)
  rw [bit_setBit, Bool.or_eq_false_iff] at isClear
  exact wf.clear k map b' here inside' isClear.2

-----------------------------------------------------------------------------------------
-- `__free_ovflpage` and `__expand_table`
-----------------------------------------------------------------------------------------

/-- What is left after a page has been taken back. -/
theorem freeOvflpage_spec (wf : Wf h alloc) (given : alloc addr)
    : ∃ h', freeOvflpage h addr = some h' ∧ Wf h' (fun a => a ≠ addr ∧ alloc a) := by
  obtain ⟨valid, inner, map, here, set⟩ := wf.allocated addr given
  have index : h.before (splitNum addr) + oPageNum addr = h.pageIndex addr := rfl
  have first := valid.before_lt
  have le := valid.index_le wf
  have low : (h.pageIndex addr - 1) / h.mapBits < h.nmaps := (wf.maps _).mp (by simp [here])
  have few := wf.fewMaps
  have positive : 0 < h.mapBits := by
    have := wf.mapBits_le
    omega
  refine ⟨h.withMap ((h.pageIndex addr - 1) / h.mapBits) (clrBit map ((h.pageIndex addr - 1) % h.mapBits))
    (if h.pageIndex addr - 1 < h.lastFreed then h.pageIndex addr - 1 else h.lastFreed), ?_, ?_⟩
  · have inRange : (h.pageIndex addr - 1) / h.mapBits < nCached := by
      rw [nCached]
      omega
    simp only [freeOvflpage, index, here, guard, if_pos inRange]
    rfl
  · refine wf.withMap low ?_ (fun b inside isClear => ?_) (fun a kept => ?_)
    · have := wf.last
      split <;> omega
    · rw [bit_clrBit, Bool.and_eq_false_iff] at isClear
      rcases isClear with same | isClear
      · have same : b = (h.pageIndex addr - 1) % h.mapBits := by simpa using same
        subst same
        have whole := Nat.div_add_mod (h.pageIndex addr - 1) h.mapBits
        rw [Nat.mul_comm] at whole
        exact ⟨inner, by omega⟩
      · exact wf.clear _ map b here inside isClear
    · obtain ⟨ne, kept⟩ := kept
      obtain ⟨validA, innerA, old, there, setA⟩ := wf.allocated a kept
      refine ⟨validA, innerA, isSet_withMap ?_⟩
      by_cases same : (h.pageIndex a - 1) / h.mapBits = (h.pageIndex addr - 1) / h.mapBits
      · refine Or.inr ⟨same, ?_⟩
        rw [same, here, Option.some.injEq] at there
        rw [bit_clrBit, there, setA, Bool.and_true]
        have differ : (h.pageIndex a - 1) % h.mapBits ≠ (h.pageIndex addr - 1) % h.mapBits := by
          intro rest
          refine ne (validA.injective wf valid ?_)
          have wholeA := Nat.div_add_mod (h.pageIndex a - 1) h.mapBits
          have whole := Nat.div_add_mod (h.pageIndex addr - 1) h.mapBits
          rw [same, rest] at wholeA
          have := validA.before_lt
          omega
        simp [differ]
      · exact Or.inl ⟨same, old, there, setA⟩

/-- The masks say nothing about pages. -/
theorem Wf.masks (wf : Wf h alloc) (low high : Nat) : Wf { h with lowMask := low, highMask := high } alloc :=
  wf.extend ⟨le_rfl, fun _ _ => rfl, le_rfl⟩ rfl rfl rfl rfl rfl wf.point wf.mono wf.buckets wf.ints wf.last
    le_rfl wf.bound

theorem Wf.moreBuckets (wf : Wf h alloc) {b : Nat} (buckets : b < 2 ^ (h.ovflPoint + 1)) (ints : b < 2 ^ 31)
    : Wf { h with maxBucket := b } alloc :=
  wf.extend ⟨le_rfl, fun _ _ => rfl, le_rfl⟩ rfl rfl rfl rfl rfl wf.point wf.mono buckets ints wf.last
    le_rfl wf.bound

/-- The split point of a new bucket. -/
theorem Wf.newPoint (wf : Wf h alloc) (point : h.ovflPoint + 1 < 32)
    : Wf { h with spares := Function.update h.spares (h.ovflPoint + 1) (h.spares h.ovflPoint)
                  ovflPoint := h.ovflPoint + 1 } alloc := by
  have old {i : Nat} (low : i ≤ h.ovflPoint)
      : Function.update h.spares (h.ovflPoint + 1) (h.spares h.ovflPoint) i = h.spares i :=
    Function.update_of_ne (by omega) _ _
  have double := Nat.pow_le_pow_right (show 0 < 2 by decide) (show h.ovflPoint + 1 ≤ h.ovflPoint + 1 + 1 by omega)
  refine wf.extend ⟨Nat.le_succ _, fun i low => old low.le, ?_⟩ rfl rfl rfl rfl rfl point (fun i low => ?_)
    (lt_of_lt_of_le wf.buckets double) wf.ints ?_ ?_ ?_
  · exact (old le_rfl).ge
  · have low : i < h.ovflPoint + 1 := low
    change Function.update h.spares (h.ovflPoint + 1) (h.spares h.ovflPoint) i
      ≤ Function.update h.spares (h.ovflPoint + 1) (h.spares h.ovflPoint) (i + 1)
    rw [old (by omega)]
    by_cases last : i = h.ovflPoint
    · rw [last, Function.update_self]
    · rw [old (by omega)]
      exact wf.mono i (by omega)
  · simpa only [Function.update_self] using wf.last
  · simp only [Function.update_self, le_refl]
  · simpa only [Function.update_self] using wf.bound

/-- The new bucket is at most one split point further. -/
theorem expandTable_spec (wf : Wf h alloc) {grown : Bool} {result : Option (Nat × Nat)}
    (safe : h.maxBucket + 1 < 2 ^ (h.ovflPoint + 1)) (run : expandTable grown h = some (result, h'))
    : Wf h' alloc := by
  by_cases ints : h.maxBucket + 1 < 2 ^ 31
  · have wf₁ := wf.moreBuckets safe ints
    obtain ⟨j, from_, until_⟩ := exists_power (show 0 < h.maxBucket + 1 by omega)
    have few : j < 31 := by
      by_contra many
      have := Nat.pow_le_pow_right (show 0 < 2 by decide) (show 31 ≤ j by omega)
      omega
    have near : j ≤ h.ovflPoint := by
      by_contra beyond
      have := Nat.pow_le_pow_right (show 0 < 2 by decide) (show h.ovflPoint + 1 ≤ j by omega)
      omega
    have spareNdx : log2 (h.maxBucket + 1 + 1) = j + 1 := log2_succ few from_ until_
    cases grown with
    | false =>
        simp only [expandTable, guard, if_pos ints] at run
        cases run
        exact wf₁
    | true =>
        simp only [expandTable, guard, if_pos ints, spareNdx] at run
        cases run
        by_cases further : h.ovflPoint < j + 1
        · have next : j + 1 = h.ovflPoint + 1 := by omega
          have wf₂ := wf₁.newPoint (show h.ovflPoint + 1 < 32 by omega)
          rw [if_pos further, next]
          split
          · exact wf₂.masks _ _
          · exact wf₂
        · rw [if_neg further]
          split
          · exact wf₁.masks _ _
          · exact wf₁
  · simp only [expandTable, guard, if_neg ints] at run
    cases run

-----------------------------------------------------------------------------------------
-- `overflow_page`: a page that is free
-----------------------------------------------------------------------------------------

/-- The addresses that are given out after a call that has returned `addr`. -/
def Given (addr : Nat) (alloc : Nat → Prop) (a : Nat) : Prop := (addr ≠ 0 ∧ a = addr) ∨ alloc a

theorem given_zero (alloc : Nat → Prop) : Given 0 alloc = alloc := by
  funext a
  simp [Given]

theorem given_ne_zero (ne : addr ≠ 0) (alloc : Nat → Prop) : Given addr alloc = fun a => a = addr ∨ alloc a := by
  funext a
  simp [Given, ne]

/-- A call has left the invariant, and has not returned an address that was in use. -/
def Sound (alloc : Nat → Prop) (result : Nat × Header) : Prop :=
  Wf result.2 (Given result.1 alloc) ∧ (result.1 ≠ 0 → ¬ alloc result.1)

theorem sound_zero (wf : Wf h alloc) : Sound alloc (0, h) := by
  refine ⟨?_, fun ne => absurd rfl ne⟩
  rw [given_zero]
  exact wf

theorem sound_addr (wf : Wf h (fun a => a = addr ∨ alloc a)) (ne : addr ≠ 0) (fresh : ¬ alloc addr)
    : Sound alloc (addr, h) := by
  refine ⟨?_, fun _ => fresh⟩
  rw [given_ne_zero ne]
  exact wf

theorem splitOf_spec (page : Nat) (positive : 0 < page) (last : page ≤ h.spares h.ovflPoint)
    : h.splitOf page ≤ h.ovflPoint ∧ page ≤ h.spares (h.splitOf page) ∧ h.before (h.splitOf page) < page := by
  rw [Header.splitOf]
  have earlier {s : Nat} (beyond : ∀ i, i < s → ¬ page ≤ h.spares i) : h.before s < page := by
    rw [Header.before]
    split
    · exact positive
    · exact not_le.mp (beyond (s - 1) (by omega))
  cases found : (List.range h.ovflPoint).find? (fun i => decide (page ≤ h.spares i)) with
  | none =>
      refine ⟨le_rfl, last, earlier fun i low => ?_⟩
      simpa using List.find?_eq_none.mp found i (List.mem_range.mpr low)
  | some s =>
      obtain ⟨here, inRange, beyond⟩ := List.find?_range_eq_some.mp found
      refine ⟨(List.mem_range.mp inRange).le, by simpa using here, earlier fun i low => ?_⟩
      simpa using beyond i low

/-- An address by its split point and its number there. -/
theorem valid_oaddrOf (split : s ≤ h.ovflPoint) (first : 1 ≤ o) (low : o ≤ splitMask)
    (last : h.before s + o ≤ h.spares s)
    : Valid h (oaddrOf s o) ∧ h.pageIndex (oaddrOf s o) = h.before s + o ∧ oaddrOf s o ≠ 0 := by
  have small : o < 2048 := by
    rw [splitMask] at low
    omega
  have index : h.pageIndex (oaddrOf s o) = h.before s + o := by
    rw [Header.pageIndex, splitNum_oaddrOf small, oPageNum_oaddrOf small]
  refine ⟨⟨?_, ?_, ?_⟩, index, ?_⟩
  · rwa [splitNum_oaddrOf small]
  · rwa [oPageNum_oaddrOf small]
  · rwa [index, splitNum_oaddrOf small]
  · rw [oaddrOf_eq]
    omega

theorem reuse_spec (wf : Wf h alloc) (here : h.mapp i = some freep) (free : freep j ≠ allSet)
    (inUse : 32 * j < h.mapBits)
    : Sound alloc (overflowPage.reuse h i j freep) := by
  obtain ⟨low, isClear⟩ := firstFree_spec free
  set b := 32 * j + firstFree (freep j)
  have clear : freep.bit b = false := by
    rw [Bitmap.bit, show b / 32 = j by omega, show b % 32 = firstFree (freep j) by omega]
    exact isClear
  have inside : b < h.mapBits := by
    have power : (2 : Nat) ^ h.bshift = 2 ^ 2 * 2 ^ (h.bshift - 2) := by
      rw [← Nat.pow_add]
      congr 1
      have := wf.small
      omega
    rw [mapBits_eq, power] at inUse ⊢
    omega
  obtain ⟨inner, less⟩ := wf.clear i freep b here inside clear
  set page := 1 + b + i * h.mapBits
  obtain ⟨split, last, first⟩ := splitOf_spec (h := h) page (by omega) (by omega)
  have near : (if h.lastFreed ≤ page then page - 1 else h.lastFreed) < max (h.spares h.ovflPoint) 3 := by
    have := wf.last
    split <;> omega
  have run : overflowPage.reuse h i j freep
      = if splitMask ≤ page - h.before (h.splitOf page) then
          (0, h.withMap i (setBit freep b) (if h.lastFreed ≤ page then page - 1 else h.lastFreed))
        else
          (oaddrOf (h.splitOf page) (page - h.before (h.splitOf page)) % 2 ^ 16,
            h.withMap i (setBit freep b) (if h.lastFreed ≤ page then page - 1 else h.lastFreed)) := rfl
  rw [run]
  by_cases tooFar : splitMask ≤ page - h.before (h.splitOf page)
  · rw [if_pos tooFar]
    exact sound_zero (wf.lose here b near)
  · rw [if_neg tooFar]
    obtain ⟨valid, index, ne⟩ := valid_oaddrOf split (show 1 ≤ page - h.before (h.splitOf page) by omega)
      (by omega) (by omega)
    rw [oaddrOf_mod (lt_of_le_of_lt split wf.point) (by rw [splitMask] at tooFar; omega)]
    have count : h.pageIndex (oaddrOf (h.splitOf page) (page - h.before (h.splitOf page)))
        = i * h.mapBits + b + 1 := by
      rw [index]
      omega
    refine sound_addr (wf.give here near inside inner valid count) ne fun given => ?_
    -- the page was free, so its bit was clear
    obtain ⟨-, -, map, there, set⟩ := wf.allocated _ given
    have positive : 0 < h.mapBits := by omega
    rw [count, Nat.add_sub_cancel, Nat.mul_comm, Nat.mul_add_div positive, Nat.div_eq_of_lt inside,
      Nat.add_zero, here, Option.some.injEq] at there
    rw [count, Nat.add_sub_cancel, Nat.mul_comm, Nat.mul_add_mod, Nat.mod_eq_of_lt inside, ← there, clear] at set
    cases set

end BSDLibC.HashDb
