import BSDLibC.HashDb.Allocator

/-! `overflow_page` when no page is free: a split point gets one more page, or one for a new map and
another one.
-/

namespace BSDLibC.HashDb

variable {h h' : Header} {addr s o : Nat} {alloc : Nat → Prop} {map : Bitmap} {malloc : Bool}

/-- A page whose bit is set already is given out. -/
theorem Wf.allocate (wf : Wf h alloc) (valid : Valid h addr) (inner : (h.pageIndex addr - 1) % h.mapBits ≠ 0)
    (set : h.isSet (h.pageIndex addr - 1))
    : Wf h (fun a => a = addr ∨ alloc a) := by
  refine { wf with allocated := ?_ }
  rintro a (rfl | given)
  · exact ⟨valid, inner, set⟩
  · exact wf.allocated a given

/-- The page after the last one of the last split point. -/
def Header.oneMore (h : Header) : Header :=
  { h with lastFreed := h.spares h.ovflPoint }.addSpare h.ovflPoint

/-- The same, at the next split point. -/
def Header.oneMoreNext (h : Header) : Header := h.oneMore.nextSplit h.ovflPoint

theorem oneMore_spares (h : Header) (i : Nat)
    : h.oneMore.spares i = if i = h.ovflPoint then h.spares h.ovflPoint + 1 else h.spares i := by
  by_cases here : i = h.ovflPoint <;> simp [Header.oneMore, Header.addSpare, here]

theorem oneMoreNext_spares (h : Header) (i : Nat)
    : h.oneMoreNext.spares i = if i = h.ovflPoint + 1 then h.spares h.ovflPoint + 1 else h.spares i := by
  rw [Header.oneMoreNext, Header.nextSplit, oneMore_spares, if_pos rfl]
  by_cases here : i = h.ovflPoint
  · simp [here]
  · by_cases next : i = h.ovflPoint + 1
    · simp [next]
    · simp [here, next, oneMore_spares]

theorem oneMore_before (h : Header) : h.oneMore.before h.ovflPoint = h.before h.ovflPoint := by
  rw [Header.before, Header.before]
  split
  · rfl
  · rw [oneMore_spares, if_neg (by omega)]

theorem oneMoreNext_before (h : Header) : h.oneMoreNext.before (h.ovflPoint + 1) = h.spares h.ovflPoint := by
  rw [Header.before, if_neg (by omega), Nat.add_sub_cancel, oneMoreNext_spares, if_neg (by omega)]

section
variable (wf : Wf h alloc) (room : h.spares h.ovflPoint ≤ h.nmaps * h.mapBits)
include wf room

theorem Wf.oneMore : Wf h.oneMore alloc := by
  have here : h.oneMore.spares h.oneMore.ovflPoint = h.spares h.ovflPoint + 1 :=
    (oneMore_spares h h.ovflPoint).trans (if_pos rfl)
  refine wf.extend ⟨le_rfl, fun i low => ?_, ?_⟩ rfl rfl rfl rfl rfl wf.point (fun i low => ?_) wf.buckets wf.ints
    ?_ ?_ ?_
  · rw [oneMore_spares, if_neg (by omega)]
  · rw [oneMore_spares, if_pos rfl]
    omega
  · have low : i < h.ovflPoint := low
    have mono := wf.mono i low
    rw [oneMore_spares, oneMore_spares, if_neg (by omega)]
    split
    next last =>
      rw [last] at mono
      omega
    next => exact mono
  · rw [here]
    exact lt_of_lt_of_le (Nat.lt_succ_self _) (le_max_left _ _)
  · rw [here]
    omega
  · rw [here]
    omega

theorem Wf.oneMoreNext (point : h.ovflPoint + 1 < 32) : Wf h.oneMoreNext alloc := by
  have here : h.oneMoreNext.spares h.oneMoreNext.ovflPoint = h.spares h.ovflPoint + 1 :=
    (oneMoreNext_spares h (h.ovflPoint + 1)).trans (if_pos rfl)
  have double := Nat.pow_le_pow_right (show 0 < 2 by decide) (show h.ovflPoint + 1 ≤ h.ovflPoint + 1 + 1 by omega)
  refine wf.extend ⟨Nat.le_succ _, fun i low => ?_, ?_⟩ rfl rfl rfl rfl rfl point (fun i low => ?_)
    (lt_of_lt_of_le wf.buckets double) wf.ints ?_ ?_ ?_
  · rw [oneMoreNext_spares, if_neg (by omega)]
  · rw [oneMoreNext_spares, if_neg (by omega)]
  · have low : i < h.ovflPoint + 1 := low
    rw [oneMoreNext_spares, oneMoreNext_spares, if_neg (by omega)]
    split
    next last =>
      rw [show i = h.ovflPoint by omega]
      omega
    next => exact wf.mono i (by omega)
  · rw [here]
    exact lt_of_lt_of_le (Nat.lt_succ_self _) (le_max_left _ _)
  · rw [here]
    omega
  · rw [here]
    omega

end

-----------------------------------------------------------------------------------------
-- A new map
-----------------------------------------------------------------------------------------

/-- A map for the pages from the last one on, and one page more. -/
def Header.newMap (h : Header) (pnum : Nat) : Header :=
  { h with
    nmaps := h.nmaps + 1
    bitmaps := Function.update h.bitmaps h.nmaps pnum
    mapp := Function.update h.mapp h.nmaps (some (ibitmap.words 1)) }.addSpare h.ovflPoint

theorem newMap_spares (h : Header) (pnum i : Nat)
    : (h.newMap pnum).spares i = if i = h.ovflPoint then h.spares h.ovflPoint + 1 else h.spares i := by
  by_cases here : i = h.ovflPoint <;> simp [Header.newMap, Header.addSpare, here]

theorem newMap_before (h : Header) (pnum : Nat) : (h.newMap pnum).before h.ovflPoint = h.before h.ovflPoint := by
  rw [Header.before, Header.before]
  split
  · rfl
  · rw [newMap_spares, if_neg (by omega)]

theorem newMap_extends (h : Header) (pnum : Nat) : Extends h (h.newMap pnum) := by
  refine ⟨le_rfl, fun i low => ?_, ?_⟩
  · rw [newMap_spares, if_neg (by omega)]
  · rw [newMap_spares, if_pos rfl]
    omega

theorem Wf.newMap (wf : Wf h alloc) (few : h.nmaps < 32) (full : h.spares h.ovflPoint = h.nmaps * h.mapBits + 1)
    {pnum : Nat} (valid : Valid h pnum) (index : h.pageIndex pnum = h.nmaps * h.mapBits + 1)
    (last : h.lastFreed < h.spares h.ovflPoint)
    : Wf (h.newMap pnum) alloc := by
  have here : (h.newMap pnum).spares (h.newMap pnum).ovflPoint = h.spares h.ovflPoint + 1 :=
    (newMap_spares h pnum h.ovflPoint).trans (if_pos rfl)
  have ext := newMap_extends h pnum
  have bits : (h.newMap pnum).mapBits = h.mapBits := rfl
  have many := wf.mapBits_le
  refine ⟨wf.small, wf.large, wf.hdr, wf.point, fun i low => ?_, wf.buckets, wf.ints, ?_, fun k => ?_,
    Nat.succ_pos _, few, ?_, fun k map b there inside clear => ?_, fun k low => ?_, fun a given => ?_⟩
  · have low : i < h.ovflPoint := low
    have mono := wf.mono i low
    rw [newMap_spares, newMap_spares, if_neg (by omega)]
    split
    next atEnd =>
      rw [atEnd] at mono
      omega
    next => exact mono
  · rw [here]
    exact lt_of_lt_of_le (last.trans (Nat.lt_succ_self _)) (le_max_left _ _)
  · change Function.update h.mapp h.nmaps (some (ibitmap.words 1)) k ≠ none ↔ k < h.nmaps + 1
    by_cases new : k = h.nmaps
    · simp [new]
    · rw [Function.update_of_ne new, wf.maps k]
      omega
  · rw [here, bits, full]
    change _ ≤ (h.nmaps + 1) * h.mapBits + 1
    rw [Nat.add_mul]
    omega
  · rw [here, bits]
    replace there : Function.update h.mapp h.nmaps (some (ibitmap.words 1)) k = some map := there
    by_cases new : k = h.nmaps
    · rw [new, Function.update_self, Option.some.injEq] at there
      rw [← there, words_one] at clear
      cases clear
    · rw [Function.update_of_ne new] at there
      obtain ⟨notFirst, less⟩ := wf.clear k map b there inside clear
      exact ⟨notFirst, less.trans (Nat.lt_succ_self _)⟩
  · replace low : k < h.nmaps + 1 := low
    rw [bits]
    change Valid (h.newMap pnum) (Function.update h.bitmaps h.nmaps pnum k)
      ∧ (h.newMap pnum).pageIndex (Function.update h.bitmaps h.nmaps pnum k) = k * h.mapBits + 1
    by_cases new : k = h.nmaps
    · rw [new, Function.update_self]
      exact ⟨ext.valid valid, (ext.index_eq valid.split).trans index⟩
    · rw [Function.update_of_ne new]
      obtain ⟨old, count⟩ := wf.bitmap k (by omega)
      exact ⟨ext.valid old, (ext.index_eq old.split).trans count⟩
  · obtain ⟨old, inner, map, there, set⟩ := wf.allocated a given
    rw [ext.index_eq old.split, bits]
    refine ⟨ext.valid old, inner, map, ?_, set⟩
    have notNew : (h.pageIndex a - 1) / h.mapBits ≠ h.nmaps := by
      have := (wf.maps ((h.pageIndex a - 1) / h.mapBits)).mp (by simp [there])
      omega
    exact (Function.update_of_ne notNew _ _).trans there

-----------------------------------------------------------------------------------------
-- The address of the page
-----------------------------------------------------------------------------------------

/-- The pages before the new one are all in the maps, and the new one is the last of its split point. -/
structure Grown (h : Header) (alloc : Nat → Prop) (pages offset : Nat) : Prop where
  wf : Wf h alloc
  total : h.spares h.ovflPoint = pages + 1
  positive : 0 < pages
  last : h.lastFreed = pages
  older : ∀ a, alloc a → h.pageIndex a ≤ pages
  room : pages ≤ h.nmaps * h.mapBits
  needed : (h.nmaps - 1) * h.mapBits < pages
  first : 1 ≤ offset
  low : offset ≤ splitMask
  place : h.before h.ovflPoint + offset = pages + 1

variable {pages offset : Nat}

theorem Grown.address (grown : Grown h alloc pages offset)
    : Valid h (oaddrOf h.ovflPoint offset) ∧ h.pageIndex (oaddrOf h.ovflPoint offset) = pages + 1
      ∧ oaddrOf h.ovflPoint offset ≠ 0 ∧ ¬ alloc (oaddrOf h.ovflPoint offset)
      ∧ oaddrOf h.ovflPoint offset % 2 ^ 16 = oaddrOf h.ovflPoint offset := by
  have place := grown.place
  have total := grown.total
  have low := grown.low
  rw [splitMask] at low
  obtain ⟨valid, index, ne⟩ := valid_oaddrOf le_rfl grown.first grown.low (show _ ≤ h.spares h.ovflPoint by omega)
  refine ⟨valid, index.trans place, ne, fun given => ?_, oaddrOf_mod grown.wf.point (by omega)⟩
  have := grown.older _ given
  omega

/-- The map is full exactly when the pages fill all maps. -/
theorem Grown.nmaps_eq (grown : Grown h alloc pages offset) (fullMap : (pages - 1) % h.mapBits = h.mapBits - 1)
    : (pages - 1) / h.mapBits + 1 = h.nmaps ∧ pages = h.nmaps * h.mapBits := by
  have many := grown.wf.mapBits_le
  have positive := grown.positive
  have whole := Nat.div_add_mod (pages - 1) h.mapBits
  have filled : pages = ((pages - 1) / h.mapBits + 1) * h.mapBits := by
    rw [Nat.add_mul, Nat.one_mul, Nat.mul_comm ((pages - 1) / h.mapBits)]
    omega
  have le : (pages - 1) / h.mapBits + 1 ≤ h.nmaps := by
    refine Nat.le_of_mul_le_mul_right ?_ (show 0 < h.mapBits by omega)
    rw [← filled]
    exact grown.room
  have ge : h.nmaps - 1 < (pages - 1) / h.mapBits + 1 := by
    refine Nat.lt_of_mul_lt_mul_right (a := h.mapBits) ?_
    rw [← filled]
    exact grown.needed
  have same : (pages - 1) / h.mapBits + 1 = h.nmaps := by omega
  rw [same] at filled
  exact ⟨same, filled⟩

theorem extend_spec (grown : Grown h alloc pages offset) {freep : Option Bitmap} {result : Nat × Header}
    (here : ∀ map, freep = some map → h.mapp ((pages - 1) / h.mapBits) = some map)
    (safe : ¬ (malloc = true ∧ (pages - 1) % h.mapBits = h.mapBits - 1
      ∧ (pages - 1) / h.mapBits + 1 < nCached ∧ h.ovflPoint + 1 < nCached ∧ offset = splitMask))
    (run : overflowPage.extend malloc h freep ((pages - 1) / h.mapBits) ((pages - 1) % h.mapBits) h.ovflPoint
      offset = some result)
    : Sound alloc result := by
  obtain ⟨valid, index, ne, fresh, mod⟩ := grown.address
  have many := grown.wf.mapBits_le
  rw [overflowPage.extend] at run
  by_cases fullMap : (pages - 1) % h.mapBits = h.mapBits - 1
  · obtain ⟨page, filled⟩ := grown.nmaps_eq fullMap
    rw [if_pos fullMap] at run
    by_cases limit : nCached ≤ (pages - 1) / h.mapBits + 1
    · rw [if_pos limit] at run
      cases run
      exact sound_zero grown.wf
    · rw [if_neg limit] at run
      cases malloc with
      | false =>
          cases run
          exact sound_zero grown.wf
      | true =>
          have few : h.nmaps < 32 := by
            rw [nCached] at limit
            omega
          have total := grown.total
          have wf₁ := grown.wf.newMap few (by omega) valid (by omega) (by rw [grown.last]; omega)
          have map : ibitmap true h (oaddrOf h.ovflPoint offset) 1 ((pages - 1) / h.mapBits + 1)
              = some { h with
                nmaps := h.nmaps + 1
                bitmaps := Function.update h.bitmaps h.nmaps (oaddrOf h.ovflPoint offset)
                mapp := Function.update h.mapp h.nmaps (some (ibitmap.words 1)) } := by
            rw [ibitmap, if_pos rfl, page, mod]
          rw [map] at run
          by_cases exceeds : splitMask < offset + 1
          · simp only [if_pos exceeds] at run
            have atEnd : offset = splitMask := by
              have := grown.low
              omega
            by_cases points : nCached ≤ h.ovflPoint + 1
            · rw [if_pos points] at run
              cases run
              exact sound_zero wf₁
            · exact absurd ⟨rfl, fullMap, not_le.mp limit, not_le.mp points, atEnd⟩ safe
          · simp only [if_neg exceeds] at run
            cases run
            have low : offset + 1 < 2048 := by
              rw [splitMask] at exceeds
              omega
            have place := grown.place
            have spares : (h.newMap (oaddrOf h.ovflPoint offset)).spares h.ovflPoint = h.spares h.ovflPoint + 1 :=
              (newMap_spares h _ h.ovflPoint).trans (if_pos rfl)
            have before := newMap_before h (oaddrOf h.ovflPoint offset)
            obtain ⟨valid', index', ne'⟩ := valid_oaddrOf (h := h.newMap (oaddrOf h.ovflPoint offset))
              (s := h.ovflPoint) le_rfl (show 1 ≤ offset + 1 by omega) (by omega)
              (by rw [before, spares]; omega)
            have count : (h.newMap (oaddrOf h.ovflPoint offset)).pageIndex (oaddrOf h.ovflPoint (offset + 1)) - 1
                = h.nmaps * h.mapBits + 1 := by
              rw [index', before]
              omega
            have rest : (h.nmaps * h.mapBits + 1) % h.mapBits = 1 := by
              rw [Nat.mul_comm, Nat.mul_add_mod, Nat.mod_eq_of_lt (by omega)]
            have quotient : (h.nmaps * h.mapBits + 1) / h.mapBits = h.nmaps := by
              rw [Nat.mul_comm, Nat.mul_add_div (by omega), Nat.div_eq_of_lt (by omega), Nat.add_zero]
            rw [oaddrOf_mod grown.wf.point low]
            refine sound_addr (wf₁.allocate valid' ?_ ?_) ne' fun given => ?_
            · rw [count]
              change (h.nmaps * h.mapBits + 1) % h.mapBits ≠ 0
              rw [rest]
              decide
            · rw [count]
              refine ⟨ibitmap.words 1, ?_, words_one _⟩
              change Function.update h.mapp h.nmaps _ ((h.nmaps * h.mapBits + 1) / h.mapBits) = _
              rw [quotient, Function.update_self]
            · have old := grown.older _ given
              have split := (grown.wf.allocated _ given).1.split
              rw [← (newMap_extends h (oaddrOf h.ovflPoint offset)).index_eq split] at old
              omega
  · rw [if_neg fullMap] at run
    cases freep with
    | none => cases run
    | some map =>
        cases run
        have positive := grown.positive
        have inside := Nat.mod_lt (pages - 1) (show 0 < h.mapBits by omega)
        have whole := Nat.div_add_mod (pages - 1) h.mapBits
        rw [Nat.mul_comm] at whole
        rw [mod]
        have near : h.lastFreed < max (h.spares h.ovflPoint) 3 := grown.wf.last
        exact sound_addr (grown.wf.give (here map rfl) near (by omega) (by omega) valid (by omega)) ne fresh

/-- The search has seen the map of the last page. -/
theorem exhausted_map {freep : Option Bitmap} (begun : h.lastFreed / h.mapBits ≤ h.freePage)
    (start : overflowPage.start h = some (.exhausted freep))
    : ∃ map, freep = some map ∧ h.mapp h.freePage = some map := by
  rw [overflowPage.start] at start
  cases freep with
  | none =>
      have := (search_seen start).2
      omega
  | some map => exact ⟨map, rfl, search_exhausted start (fun same => by omega) (by omega)⟩

theorem firstPage_le (many : 512 ≤ h.mapBits) (last : h.lastFreed < max (h.spares h.ovflPoint) 3)
    : h.lastFreed / h.mapBits ≤ h.freePage := by
  rw [Header.freePage]
  rcases Nat.lt_or_ge h.lastFreed 3 with small | large
  · rw [Nat.div_eq_of_lt (by omega)]
    exact Nat.zero_le _
  · exact Nat.div_le_div_right (by omega)

theorem Wf.exhausted (wf : Wf h alloc) {freep : Option Bitmap}
    (start : overflowPage.start h = some (.exhausted freep))
    : ∃ map, freep = some map ∧ h.mapp h.freePage = some map ∧ h.freePage < h.nmaps := by
  obtain ⟨map, same, there⟩ := exhausted_map (firstPage_le wf.mapBits_le.1 wf.last) start
  exact ⟨map, same, there, (wf.maps _).mp (by simp [there])⟩

theorem Wf.room (wf : Wf h alloc) (seen : h.freePage < h.nmaps) : h.spares h.ovflPoint ≤ h.nmaps * h.mapBits := by
  have many := wf.mapBits_le
  rw [Header.freePage, Nat.div_lt_iff_lt_mul (by omega)] at seen
  omega

/-- The last map has its first page among those that are there. -/
theorem Wf.needed (wf : Wf h alloc) : (h.nmaps - 1) * h.mapBits < h.spares h.ovflPoint := by
  have some_ := wf.someMap
  obtain ⟨valid, index⟩ := wf.bitmap (h.nmaps - 1) (by omega)
  have := valid.index_le wf
  omega

section
variable (wf : Wf h alloc) (seen : h.freePage < h.nmaps)
include wf seen

theorem Wf.grown_here (low : h.spares h.ovflPoint + 1 - h.before h.ovflPoint ≤ splitMask)
    (under : h.before h.ovflPoint ≤ h.spares h.ovflPoint)
    : Grown h.oneMore alloc (h.spares h.ovflPoint) (h.spares h.ovflPoint + 1 - h.before h.ovflPoint) := by
  have room := wf.room seen
  have ext : Extends h h.oneMore := by
    refine ⟨le_rfl, fun i low => ?_, ?_⟩
    · rw [oneMore_spares, if_neg (by omega)]
    · rw [oneMore_spares, if_pos rfl]
      omega
  have before : h.oneMore.before h.oneMore.ovflPoint = h.before h.ovflPoint := oneMore_before h
  refine ⟨wf.oneMore room, (oneMore_spares h _).trans (if_pos rfl), wf.first_spare, rfl, fun a given => ?_, room,
    wf.needed, by omega, low, by omega⟩
  have valid := (wf.allocated a given).1
  rw [ext.index_eq valid.split]
  exact valid.index_le wf

theorem Wf.grown_next (point : h.ovflPoint + 1 < 32) : Grown h.oneMoreNext alloc (h.spares h.ovflPoint) 1 := by
  have room := wf.room seen
  have ext : Extends h h.oneMoreNext := by
    refine ⟨Nat.le_succ _, fun i low => ?_, ?_⟩
    · rw [oneMoreNext_spares, if_neg (by omega)]
    · rw [oneMoreNext_spares, if_neg (by omega)]
  have before : h.oneMoreNext.before h.oneMoreNext.ovflPoint = h.spares h.ovflPoint := oneMoreNext_before h
  refine ⟨wf.oneMoreNext room point, (oneMoreNext_spares h _).trans (if_pos rfl), wf.first_spare, rfl,
    fun a given => ?_, room, wf.needed, le_rfl, by decide, by omega⟩
  have valid := (wf.allocated a given).1
  rw [ext.index_eq valid.split]
  exact valid.index_le wf

end

theorem fresh_eq (malloc : Bool) (h : Header) (freep : Option Bitmap)
    : overflowPage.fresh malloc h freep
      = if splitMask < h.spares h.ovflPoint + 1 - h.before h.ovflPoint then
          if nCached ≤ h.ovflPoint + 1 then some (0, h.oneMore)
          else overflowPage.extend malloc h.oneMoreNext freep h.freePage h.freeBit (h.ovflPoint + 1) 1
        else
          overflowPage.extend malloc h.oneMore freep h.freePage h.freeBit h.ovflPoint
            (h.spares h.ovflPoint + 1 - h.before h.ovflPoint) := by
  have spares : h.oneMore.spares h.ovflPoint = h.spares h.ovflPoint + 1 :=
    (oneMore_spares h _).trans (if_pos rfl)
  rw [← oneMore_before h, ← spares]
  rfl

/-- What `overflow_page` does when no page is free. -/
theorem fresh_spec (wf : Wf h alloc) {freep : Option Bitmap} {result : Nat × Header}
    (start : overflowPage.start h = some (.exhausted freep))
    (safe : ¬ (malloc = true ∧ h.freeBit = h.mapBits - 1 ∧ h.freePage + 1 < nCached
      ∧ h.ovflPoint + 1 < nCached ∧ h.spares h.ovflPoint + 1 - h.before h.ovflPoint = splitMask))
    (run : overflowPage.fresh malloc h freep = some result)
    : Sound alloc result := by
  obtain ⟨map, rfl, there, seen⟩ := wf.exhausted start
  have here (map' : Bitmap) (same : some map = some map') : h.mapp h.freePage = some map' := there.trans same
  rw [fresh_eq] at run
  by_cases exceeds : splitMask < h.spares h.ovflPoint + 1 - h.before h.ovflPoint
  · rw [if_pos exceeds] at run
    by_cases limit : nCached ≤ h.ovflPoint + 1
    · rw [if_pos limit] at run
      cases run
      exact sound_zero (wf.oneMore (wf.room seen))
    · rw [if_neg limit] at run
      refine extend_spec (wf.grown_next seen (by rw [nCached] at limit; omega)) here ?_ run
      rintro ⟨-, -, -, -, one⟩
      cases one
  · rw [if_neg exceeds] at run
    have under : h.before h.ovflPoint ≤ h.spares h.ovflPoint := by
      rw [Header.before]
      split
      · exact Nat.zero_le _
      · exact wf.spares_le (by omega) le_rfl
    exact extend_spec (wf.grown_here seen (by omega) under) here safe run

/-- The branch of `overflow_page` that is not right: the page of a new map is the last one of its split
point, and there is a next split point.
-/
def Skips (malloc : Bool) (h : Header) : Prop :=
  (∃ freep, overflowPage.start h = some (.exhausted freep))
  ∧ malloc = true ∧ h.freeBit = h.mapBits - 1 ∧ h.freePage + 1 < nCached
  ∧ h.ovflPoint + 1 < nCached ∧ h.spares h.ovflPoint + 1 - h.before h.ovflPoint = splitMask

theorem overflowPage_spec (wf : Wf h alloc) (safe : ¬ Skips malloc h) {result : Nat × Header}
    (run : overflowPage malloc h = some result)
    : Sound alloc result := by
  rw [overflowPage] at run
  cases start : overflowPage.start h with
  | none =>
      rw [start] at run
      cases run
  | some search =>
      rw [start] at run
      cases search with
      | noMap =>
          cases run
          exact sound_zero wf
      | found i j freep =>
          cases run
          obtain ⟨-, here, free, inUse⟩ := search_found start
          refine reuse_spec wf here free ?_
          have many := wf.mapBits_le
          have bit := Nat.mod_lt (h.spares h.ovflPoint - 1) (show 0 < h.mapBits by omega)
          split at inUse
          · rw [Header.freeBit] at inUse
            omega
          · omega
      | exhausted freep => exact fresh_spec wf start (fun bad => safe ⟨⟨freep, start⟩, bad⟩) run

end BSDLibC.HashDb
