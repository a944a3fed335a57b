import BSDLibC.Btree.Cursor

/-! The sizes that `__bt_open` accepts, and the size from which `__bt_put` uses overflow pages. -/

namespace BSDLibC.Btree

def MINPSIZE : Nat := 512

def DEFMINKEYPAGE : Nat := 2

/-- The bytes of a page number and a size. -/
def NOVFLSIZE : Nat := 8

/-- `((n) + sizeof(pgno_t) - 1) & ~(sizeof(pgno_t) - 1)` -/
def BTLALIGN (n : Nat) : Nat := (n + 3) / 4 * 4

def NBINTERNAL (len : Nat) : Nat := BTLALIGN (4 + 4 + 1 + len) % 2 ^ 32

def NBLEAFDBT (ksize dsize : Nat) : Nat := BTLALIGN (4 + 4 + 1 + ksize + dsize) % 2 ^ 32

/-- The fields of `BTREEINFO` for the sizes. -/
structure BtreeInfo where
  psize : Nat
  minkeypage : Nat

/-- The tests of a page size. -/
def wrongPsize (psize : Nat) : Bool :=
  psize < MINPSIZE || psize > MAX_PAGE_OFFSET + 1 || psize &&& (sizeofIndx - 1) ≠ 0

/-- The page size and the number of keys that `__bt_open` uses, for the page size of a file that is
there and the block size of a new one.
-/
def openSizes (openinfo : Option BtreeInfo) (stored : Option Nat) (blksize : Nat)
    : Option (Nat × Nat) :=
  let b := openinfo.getD ⟨0, 0⟩
  if b.psize ≠ 0 && wrongPsize b.psize then none
  else if b.minkeypage ≠ 0 && b.minkeypage < 2 then none
  else
    let minkeypage := if b.minkeypage = 0 then DEFMINKEYPAGE else b.minkeypage
    match stored with
    | some psize => if wrongPsize psize then none else some (psize, minkeypage)
    | none =>
        if b.psize = 0 then
          some (if blksize < MINPSIZE then MINPSIZE
            else if blksize > MAX_PAGE_OFFSET + 1 then MAX_PAGE_OFFSET + 1 else blksize, minkeypage)
        else some (b.psize, minkeypage)

/-- `bt_ovflsize`, which has 16 bits, where `temp` is a `size_t`. -/
def ovflsize (psize minkeypage : Nat) : Nat :=
  let temp := ((psize - BTDATAOFF) / minkeypage + 2 ^ 64 - (sizeofIndx + NBLEAFDBT 0 0)) % 2 ^ 64
  let least := NBLEAFDBT NOVFLSIZE NOVFLSIZE + sizeofIndx
  if temp % 2 ^ 16 < least then least % 2 ^ 16 else temp % 2 ^ 16

/-- The sizes of a pair on its page, after `__bt_put` has put the key or the data on overflow pages. -/
def storedSizes (ovflsize key data : Nat) : Nat × Nat :=
  if key + data > ovflsize then
    let key := if key > ovflsize then NOVFLSIZE else key
    let data := if key + data > ovflsize then NOVFLSIZE else data
    (if key + data > ovflsize then NOVFLSIZE else key, data)
  else (key, data)

-----------------------------------------------------------------------------------------
-- What the threshold is for
-----------------------------------------------------------------------------------------

/-- Two pairs fit on a leaf page, with their slots. -/
def PairsFit (psize ovflsize : Nat) : Prop :=
  ∀ k₁ d₁ k₂ d₂, k₁ + d₁ ≤ ovflsize → k₂ + d₂ ≤ ovflsize
    → BTDATAOFF + (NBLEAFDBT k₁ d₁ + sizeofIndx) + (NBLEAFDBT k₂ d₂ + sizeofIndx) ≤ psize

/-- Two keys fit on an internal page, with their slots. -/
def KeysFit (psize ovflsize : Nat) : Prop :=
  ∀ k₁ k₂, k₁ ≤ ovflsize → k₂ ≤ ovflsize
    → BTDATAOFF + (NBINTERNAL k₁ + sizeofIndx) + (NBINTERNAL k₂ + sizeofIndx) ≤ psize

/-- The bytes of items with their slots. -/
def bytesOf {ι : Type} (measure : Measure ι) (items : List ι) : Nat :=
  (items.map fun item => measure.nbytes item + sizeofIndx).sum

/-- The bytes of a page, where an open slot has no item. -/
def pageBytes {ι : Type} (measure : Measure ι) (slots : List (Option ι)) : Nat :=
  BTDATAOFF + (slots.map fun slot => slot.elim 0 measure.nbytes + sizeofIndx).sum

/-- The items of a leaf or an internal page that the threshold admits. -/
def Admitted {ι : Type} (measure : Measure ι) (ovflsize : Nat) (item : ι) : Prop :=
  ∃ key data, key + data ≤ ovflsize
    ∧ (measure.nbytes item = NBLEAFDBT key data ∨ measure.nbytes item = NBINTERNAL key)

/-- No put writes outside of a page: a pair is stored in an admitted size, and an admitted item goes
to pages that have room for it.
-/
def PutsFit (psize ovflsize : Nat) : Prop :=
  (∀ key data, (storedSizes ovflsize key data).1 + (storedSizes ovflsize key data).2 ≤ ovflsize)
  ∧ ∀ (ι : Type) (measure : Measure ι) (root last : Bool) (hpgno lnpg npg : Nat) (items : List ι)
      (item : ι) (idx : Nat) (c : Cursor),
      (∀ x ∈ item :: items, Admitted measure ovflsize x) → pageBytes measure (items.map some) ≤ psize
      → idx ≤ items.length
      → ∀ page ∈ (btAdd measure psize root last hpgno lnpg npg items item idx c).pages,
        pageBytes measure page.2 ≤ psize

-----------------------------------------------------------------------------------------
-- The threshold
-----------------------------------------------------------------------------------------

theorem wrongPsize_eq_false {size : Nat} (fine : wrongPsize size = false)
    : 512 ≤ size ∧ size ≤ 65536 := by
  simp only [wrongPsize, Bool.or_eq_false_iff, decide_eq_false_iff_not] at fine
  exact ⟨not_lt.mp fine.1.1, not_lt.mp fine.1.2⟩

theorem openSizes_bounds {openinfo : Option BtreeInfo} {stored : Option Nat} {blksize psize
    minkeypage : Nat} (accepted : openSizes openinfo stored blksize = some (psize, minkeypage))
    : 512 ≤ psize ∧ psize ≤ 65536 ∧ 2 ≤ minkeypage := by
  generalize info : openinfo.getD ⟨0, 0⟩ = b at *
  simp only [openSizes, info] at accepted
  by_cases user : (b.psize ≠ 0 && wrongPsize b.psize) = true
  · rw [if_pos user] at accepted
    cases accepted
  rw [if_neg user] at accepted
  by_cases few : (b.minkeypage ≠ 0 && b.minkeypage < 2) = true
  · rw [if_pos few] at accepted
    cases accepted
  rw [if_neg few] at accepted
  have enough : 2 ≤ (if b.minkeypage = 0 then DEFMINKEYPAGE else b.minkeypage) := by
    by_cases default : b.minkeypage = 0
    · rw [if_pos default]
      exact le_rfl
    · rw [if_neg default]
      simp only [ne_eq, default, not_false_eq_true, decide_true, Bool.true_and, decide_eq_true_eq,
        not_lt] at few
      exact few
  generalize (if b.minkeypage = 0 then DEFMINKEYPAGE else b.minkeypage) = keys at accepted enough
  cases stored with
  | some size =>
      by_cases wrong : wrongPsize size = true
      · simp [wrong] at accepted
      · simp only [wrong] at accepted
        cases accepted
        obtain ⟨low, high⟩ := wrongPsize_eq_false (by simpa using wrong)
        exact ⟨low, high, enough⟩
  | none =>
      by_cases given : b.psize = 0
      · simp only [given, if_true] at accepted
        cases accepted
        refine ⟨?_, ?_, enough⟩ <;> split_ifs with small large
        all_goals simp only [MINPSIZE, MAX_PAGE_OFFSET] at *
        all_goals omega
      · simp only [given, if_false] at accepted
        cases accepted
        obtain ⟨low, high⟩ := @wrongPsize_eq_false b.psize (by simpa [given] using user)
        exact ⟨low, high, enough⟩

variable {psize minkeypage : Nat}

theorem ovflsize_unfolded (psize minkeypage : Nat)
    : ovflsize psize minkeypage
      = if ((psize - 20) / minkeypage + 2 ^ 64 - 14) % 2 ^ 64 % 2 ^ 16 < 30 then 30
        else ((psize - 20) / minkeypage + 2 ^ 64 - 14) % 2 ^ 64 % 2 ^ 16 := rfl

/-- The threshold is the share of a key, or the room for two overflow references. -/
theorem ovflsize_eq (high : psize ≤ 65536) (keys : 2 ≤ minkeypage)
    (share : 14 * minkeypage ≤ psize - 20)
    : ovflsize psize minkeypage = max 30 ((psize - 20) / minkeypage - 14) := by
  have least : 14 ≤ (psize - 20) / minkeypage := (Nat.le_div_iff_mul_le (by omega)).mpr share
  have half : (psize - 20) / minkeypage ≤ (psize - 20) / 2 := Nat.div_le_div_left keys (by omega)
  rw [ovflsize_unfolded]
  split <;> omega

/-- A smaller share wraps round. -/
theorem ovflsize_wrapped (keys : 2 ≤ minkeypage) (share : ¬ 14 * minkeypage ≤ psize - 20)
    : 65522 ≤ ovflsize psize minkeypage := by
  have small : (psize - 20) / minkeypage < 14 := by
    by_contra large
    exact share ((Nat.le_div_iff_mul_le (by omega)).mp (not_lt.mp large))
  rw [ovflsize_unfolded]
  generalize (psize - 20) / minkeypage = each at *
  split <;> omega

/-- The bytes of an item that the threshold admits. -/
theorem nbytes_bounds {key data ovflsize : Nat} (small : key + data ≤ ovflsize)
    (fits : ovflsize ≤ 65535)
    : 12 ≤ NBLEAFDBT key data ∧ NBLEAFDBT key data ≤ (12 + ovflsize) / 4 * 4
      ∧ 12 ≤ NBINTERNAL key ∧ NBINTERNAL key ≤ (12 + ovflsize) / 4 * 4 := by
  simp only [NBLEAFDBT, NBINTERNAL, BTLALIGN]
  omega

/-- With a share for each key, half of a page has room for an item. -/
theorem half_page (low : 512 ≤ psize) (high : psize ≤ 65536) (keys : 2 ≤ minkeypage)
    (share : 14 * minkeypage ≤ psize - 20)
    : 30 ≤ ovflsize psize minkeypage ∧ ovflsize psize minkeypage ≤ 65535
      ∧ (12 + ovflsize psize minkeypage) / 4 * 4 + 2 ≤ (psize - 20) / 2 := by
  have half : (psize - 20) / minkeypage ≤ (psize - 20) / 2 := Nat.div_le_div_left keys (by omega)
  rw [ovflsize_eq high keys share]
  omega

theorem storedSizes_le {ovflsize : Nat} (room : 16 ≤ ovflsize) (key data : Nat)
    : (storedSizes ovflsize key data).1 + (storedSizes ovflsize key data).2 ≤ ovflsize := by
  simp only [storedSizes, NOVFLSIZE]
  split_ifs <;> simp only <;> omega

-----------------------------------------------------------------------------------------
-- The room on a page that is split
-----------------------------------------------------------------------------------------

section

variable {ι : Type} {measure : Measure ι}

theorem bytesOf_cons (x : ι) (xs : List ι)
    : bytesOf measure (x :: xs) = (measure.nbytes x + sizeofIndx) + bytesOf measure xs := by
  simp [bytesOf]

theorem bytesOf_append (xs ys : List ι)
    : bytesOf measure (xs ++ ys) = bytesOf measure xs + bytesOf measure ys := by
  simp [bytesOf]

theorem bytesOf_concat (xs : List ι) (x : ι)
    : bytesOf measure (xs ++ [x]) = bytesOf measure xs + (measure.nbytes x + sizeofIndx) := by
  simp [bytesOf]

/-- The items take their bytes, and two bytes each for their slots. -/
theorem bytesOf_eq (xs : List ι)
    : bytesOf measure xs = (xs.map measure.nbytes).sum + sizeofIndx * xs.length := by
  induction xs with
  | nil => rfl
  | cons x xs ih =>
      rw [bytesOf_cons, ih, List.map_cons, List.sum_cons, List.length_cons, Nat.mul_succ]
      omega

theorem twelve_mul_length_le {xs : List ι} (least : ∀ x ∈ xs, 12 ≤ measure.nbytes x)
    : 12 * xs.length ≤ (xs.map measure.nbytes).sum := by
  induction xs with
  | nil => exact le_rfl
  | cons x xs ih =>
      have head := least x List.mem_cons_self
      have tail := ih fun y among => least y (List.mem_cons_of_mem x among)
      rw [List.map_cons, List.sum_cons, List.length_cons]
      omega

theorem pageBytes_map_some (xs : List ι)
    : pageBytes measure (xs.map some) = BTDATAOFF + bytesOf measure xs := by
  simp [pageBytes, bytesOf, Function.comp_def]

theorem pageBytes_insert (item : ι) (skip : Nat) (xs : List ι)
    : pageBytes measure ((xs.take skip ++ item :: xs.drop skip).map some)
      = BTDATAOFF + (bytesOf measure xs + (measure.nbytes item + sizeofIndx)) := by
  have whole : bytesOf measure (xs.take skip) + bytesOf measure (xs.drop skip)
      = bytesOf measure xs := by
    rw [← bytesOf_append, List.take_append_drop]
  rw [pageBytes_map_some, bytesOf_append, bytesOf_cons]
  omega

/-- What the left page has at a step of its loop: the slot is still to come, or there is room for it. -/
def LeftRoom (measure : Measure ι) (skip ilen full : Nat) (done : List ι) (length used : Nat) : Prop :=
  (length = done.length ∧ done.length ≤ skip ∧ used = bytesOf measure done)
  ∨ (length = done.length + 1 ∧ skip ≤ done.length
    ∧ used = bytesOf measure done + (ilen + sizeofIndx) ∧ used < full)

/-- What both pages have at the end: one of them has room for the slot. -/
def SlotRoom (measure : Measure ι) (ilen full : Nat) (copied rest : List ι) (length : Nat) : Prop :=
  (length = copied.length ∧ bytesOf measure rest + (ilen + sizeofIndx) ≤ full)
  ∨ (length = copied.length + 1 ∧ bytesOf measure copied + (ilen + sizeofIndx) ≤ full)

/-- The loop stops at the last item, at the slot where the left page is full, or when the left page
has half of the bytes. In each case the items that are left and the slot are no more than a page.
-/
theorem leftLoop_room {skip ilen full bound : Nat} {done rest : List ι} {left : List (Option ι)}
    {used bigkeycnt : Nat} (more : rest ≠ []) (small : full ≤ 65535)
    (halves : ∀ x ∈ rest, measure.nbytes x + sizeofIndx ≤ full / 2)
    (half : ilen + sizeofIndx ≤ full / 2)
    (total : bytesOf measure done + bytesOf measure rest ≤ full)
    (room : LeftRoom measure skip ilen full done left.length used)
    (steps : rest.length + done.length + 2 ≤ bound + left.length)
    : ∃ copied, rest = copied ++ (leftLoop measure skip ilen full bound rest left used bigkeycnt).2
      ∧ SlotRoom measure ilen full (done ++ copied)
        (leftLoop measure skip ilen full bound rest left used bigkeycnt).2
        (leftLoop measure skip ilen full bound rest left used bigkeycnt).1.length := by
  induction bound generalizing done rest left used bigkeycnt with
  | zero =>
      have := List.length_pos_of_ne_nil more
      rcases room with ⟨length, -⟩ | ⟨length, -⟩ <;> omega
  | succ bound ih =>
      obtain ⟨item, rest, rfl⟩ := List.exists_cons_of_ne_nil more
      rw [bytesOf_cons] at total
      rw [List.length_cons] at steps
      have itemHalf := halves item List.mem_cons_self
      rw [leftLoop]
      by_cases stop : (skip ≤ left.length ∧ used
          + (if skip = left.length then ilen else measure.nbytes item) + sizeofIndx ≥ full) ∨ rest = []
      · simp only [if_pos stop]
        refine ⟨[], rfl, ?_⟩
        rw [List.append_nil, SlotRoom, bytesOf_cons]
        rcases room with ⟨length, before, here⟩ | ⟨length, placed, here, below⟩
        · refine Or.inl ⟨length, ?_⟩
          rcases stop with ⟨reached, exceeds⟩ | last
          · rw [if_pos (by omega)] at exceeds
            omega
          · rw [last, show bytesOf measure [] = 0 from rfl]
            omega
        · exact Or.inr ⟨length, by omega⟩
      simp only [if_neg stop]
      have more' : rest ≠ [] := fun none => stop (Or.inr none)
      by_cases here : skip = left.length
      · simp only [if_pos here]
        rcases room with ⟨length, before, bytes⟩ | ⟨length, placed, bytes, below⟩
        · have fits : used + ilen + sizeofIndx < full := by
            by_contra exceeds
            refine stop (Or.inl ⟨here.le, ?_⟩)
            rw [if_pos here]
            omega
          have wrap : (used + (ilen + sizeofIndx)) % 2 ^ 16 = used + (ilen + sizeofIndx) :=
            Nat.mod_eq_of_lt (by omega)
          rw [wrap]
          have next : LeftRoom measure skip ilen full done (left ++ [none]).length
              (used + (ilen + sizeofIndx)) :=
            Or.inr ⟨by simp [length], by omega, by omega, fits⟩
          have later (bigkeycnt : Nat) := @ih done (item :: rest) (left ++ [none])
            (used + (ilen + sizeofIndx)) bigkeycnt more halves (by rw [bytesOf_cons]; omega) next
            (by simp; omega)
          split
          · split
            · exact ⟨[], rfl, Or.inr ⟨by simp [length], by rw [List.append_nil]; omega⟩⟩
            · exact later _
          · exact later _
        · omega
      · have halves' : ∀ x ∈ rest, measure.nbytes x + sizeofIndx ≤ full / 2 :=
          fun x inside => halves x (List.mem_cons_of_mem _ inside)
        simp only [if_neg here]
        have bytes : bytesOf measure (done ++ [item])
            = bytesOf measure done + (measure.nbytes item + sizeofIndx) := bytesOf_concat done item
        have next : LeftRoom measure skip ilen full (done ++ [item]) (left ++ [some item]).length
            ((used + (measure.nbytes item + sizeofIndx)) % 2 ^ 16) := by
          rcases room with ⟨length, before, same⟩ | ⟨length, placed, same, below⟩
          · refine Or.inl ⟨by simp [length], by simp; omega, ?_⟩
            rw [Nat.mod_eq_of_lt (by omega), bytes, same]
          · have fits : used + measure.nbytes item + sizeofIndx < full := by
              by_contra exceeds
              refine stop (Or.inl ⟨by omega, ?_⟩)
              rw [if_neg here]
              omega
            rw [Nat.mod_eq_of_lt (by omega), LeftRoom, bytes]
            exact Or.inr ⟨by simp [length], by simp; omega, by omega, by omega⟩
        have later (bigkeycnt : Nat) := @ih (done ++ [item]) rest (left ++ [some item])
          ((used + (measure.nbytes item + sizeofIndx)) % 2 ^ 16) bigkeycnt more' halves'
          (by rw [bytes]; omega) next (by simp; omega)
        split
        next exceeds =>
          split
          · refine ⟨[item], rfl, ?_⟩
            rcases next with ⟨length, before, same⟩ | ⟨length, placed, same, below⟩
            · exact Or.inl ⟨length, show bytesOf measure rest + _ ≤ full by omega⟩
            · exact Or.inr ⟨length, by omega⟩
          · obtain ⟨copied, whole, slot⟩ := later (bigkeycnt + 1)
            exact ⟨item :: copied, by rw [List.cons_append, ← whole], by
              rwa [List.append_assoc] at slot⟩
        next =>
          obtain ⟨copied, whole, slot⟩ := later bigkeycnt
          exact ⟨item :: copied, by rw [List.cons_append, ← whole], by
            rwa [List.append_assoc] at slot⟩

/-- Both pages of a split have room for their items and the new one. -/
theorem btPsplit_room {psize hpgno lpgno rpgno skip : Nat} {items : List ι} {item : ι} {c : Cursor}
    (low : BTDATAOFF ≤ psize) (high : psize ≤ 65536) (inside : skip ≤ items.length)
    (small : items.length < 32758)
    (halves : ∀ x ∈ item :: items, measure.nbytes x + sizeofIndx ≤ (psize - BTDATAOFF) / 2)
    (fits : BTDATAOFF + bytesOf measure items ≤ psize)
    (full : psize < BTDATAOFF + bytesOf measure items + (measure.nbytes item + sizeofIndx))
    : let split := btPsplit measure (psize - BTDATAOFF) hpgno lpgno rpgno items skip
        (measure.nbytes item) c
      let pages := if split.inLeft then (split.left.set split.pskip (some item), split.right)
        else (split.left, split.right.set split.pskip (some item))
      pageBytes measure pages.1 ≤ psize ∧ pageBytes measure pages.2 ≤ psize := by
  have itemHalf := halves item List.mem_cons_self
  have nonempty : items ≠ [] := by
    rintro rfl
    rw [show bytesOf measure [] = 0 from rfl] at full
    omega
  have start : LeftRoom measure skip (measure.nbytes item) (psize - BTDATAOFF) [] 0 0 :=
    Or.inl ⟨rfl, Nat.zero_le _, rfl⟩
  obtain ⟨first, whole', slot⟩ := @leftLoop_room _ measure skip (measure.nbytes item)
    (psize - BTDATAOFF) (items.length + 2) [] items [] 0 0 nonempty (by rw [BTDATAOFF]; omega)
    (fun x among => halves x (List.mem_cons_of_mem _ among)) itemHalf
    (by rw [show bytesOf measure [] = 0 from rfl]; omega) start (by simp)
  obtain ⟨copied, rest, whole, result, -, shape⟩ := btPsplit_spec measure (psize - BTDATAOFF) hpgno
    lpgno rpgno (measure.nbytes item) c nonempty small inside
  rw [result] at whole' slot
  have same : first = copied := List.append_cancel_right (whole'.symm.trans whole)
  rw [same, List.nil_append] at slot
  simp only at slot
  have bytes : bytesOf measure items = bytesOf measure copied + bytesOf measure rest := by
    rw [whole, bytesOf_append]
  have length : items.length = copied.length + rest.length := by rw [whole, List.length_append]
  intro split pages
  rcases shape with ⟨inLeft, pskip, right, left⟩ | ⟨inLeft, later, pskip, left, right⟩
  · rcases left with ⟨rfl, left⟩ | ⟨placed, left⟩
    · rw [left] at slot
      rcases slot with ⟨-, room⟩ | ⟨length, -⟩
      · rw [show bytesOf measure [] = 0 from rfl] at bytes
        omega
      · cases length
    · rw [left, length_opened placed] at slot
      rcases slot with ⟨length, -⟩ | ⟨-, room⟩
      · omega
      simp only [pages, split, inLeft, if_true, left, right, pskip, set_opened placed]
      rw [pageBytes_insert, pageBytes_map_some]
      omega
  · rw [left, List.length_map] at slot
    rcases slot with ⟨-, room⟩ | ⟨length, -⟩
    · simp only [pages, split, inLeft, Bool.false_eq_true, if_false, left, right, pskip,
        set_opened (show skip - copied.length ≤ rest.length by omega)]
      rw [pageBytes_insert, pageBytes_map_some]
      omega
    · omega

/-- A put keeps to its pages. -/
theorem btAdd_room {psize hpgno lnpg npg idx : Nat} {root last : Bool} {items : List ι} {item : ι}
    {c : Cursor} (low : BTDATAOFF ≤ psize) (high : psize ≤ 65536) (inside : idx ≤ items.length)
    (least : ∀ x ∈ item :: items, 12 ≤ measure.nbytes x)
    (halves : ∀ x ∈ item :: items, measure.nbytes x + sizeofIndx ≤ (psize - BTDATAOFF) / 2)
    (fits : pageBytes measure (items.map some) ≤ psize)
    : ∀ page ∈ (btAdd measure psize root last hpgno lnpg npg items item idx c).pages,
      pageBytes measure page.2 ≤ psize := by
  have itemHalf := halves item List.mem_cons_self
  rw [pageBytes_map_some] at fits
  have sum := @bytesOf_eq _ measure items
  have many := twelve_mul_length_le fun x among => least x (List.mem_cons_of_mem item among)
  have small : items.length < 32758 := by omega
  rw [btAdd]
  by_cases full : freeSpace measure psize items < measure.nbytes item + sizeofIndx
  · have exceeds : psize < BTDATAOFF + bytesOf measure items + (measure.nbytes item + sizeofIndx) := by
      rw [freeSpace] at full
      simp only [BTDATAOFF, sizeofIndx] at *
      omega
    rw [if_pos full, btSplit]
    split
    · simp only [List.mem_cons, List.not_mem_nil, or_false, forall_eq_or_imp, forall_eq]
      refine ⟨by rwa [pageBytes_map_some], ?_⟩
      rw [show [some item] = [item].map some from rfl, pageBytes_map_some, bytesOf_cons,
        show bytesOf measure [] = 0 from rfl]
      omega
    · have room := @btPsplit_room _ measure psize hpgno (if root then lnpg else hpgno) npg idx items
        item c low high inside small halves fits exceeds
      simp only at room ⊢
      generalize btPsplit measure (psize - BTDATAOFF) hpgno (if root then lnpg else hpgno) npg items
        idx (measure.nbytes item) c = split at room ⊢
      cases left : split.inLeft <;> simpa [left] using room
  · rw [if_neg full]
    simp only [List.mem_cons, List.not_mem_nil, or_false, forall_eq]
    have bytes : bytesOf measure (items.insertIdx idx item) = bytesOf measure (item :: items) :=
      ((List.perm_insertIdx item items inside).map _).sum_nat
    rw [pageBytes_map_some, bytes, bytesOf_cons]
    rw [freeSpace] at full
    simp only [BTDATAOFF, sizeofIndx] at *
    omega

end

/-- The threshold is sound exactly when each key of a page has a share of at least 14 bytes. -/
theorem ovflsize_sound_iff {openinfo : Option BtreeInfo} {stored : Option Nat} {blksize psize
    minkeypage : Nat} (accepted : openSizes openinfo stored blksize = some (psize, minkeypage))
    : (PairsFit psize (ovflsize psize minkeypage) ∧ KeysFit psize (ovflsize psize minkeypage)
        ∧ PutsFit psize (ovflsize psize minkeypage))
      ↔ 14 * minkeypage ≤ psize - 20 := by
  obtain ⟨low, high, keys⟩ := openSizes_bounds accepted
  refine ⟨?_, fun share => ?_⟩
  · rintro ⟨pairs, -⟩
    by_contra wrapped
    have large := ovflsize_wrapped keys wrapped
    have fit := pairs 65522 0 65522 0 large large
    rw [show NBLEAFDBT 65522 0 = 65532 from rfl, BTDATAOFF, sizeofIndx] at fit
    omega
  · obtain ⟨room, narrow, half⟩ := half_page low high keys share
    refine ⟨?_, ?_, storedSizes_le (by omega), ?_⟩
    · intro k₁ d₁ k₂ d₂ small₁ small₂
      have := nbytes_bounds small₁ narrow
      have := nbytes_bounds small₂ narrow
      rw [BTDATAOFF, sizeofIndx]
      omega
    · intro k₁ k₂ small₁ small₂
      have := @nbytes_bounds k₁ 0 _ small₁ narrow
      have := @nbytes_bounds k₂ 0 _ small₂ narrow
      rw [BTDATAOFF, sizeofIndx]
      omega
    · intro ι measure root last hpgno lnpg npg items item idx c admitted fits inside
      have bounds (x : ι) (among : x ∈ item :: items)
          : 12 ≤ measure.nbytes x
            ∧ measure.nbytes x + sizeofIndx ≤ (psize - BTDATAOFF) / 2 := by
        obtain ⟨key, data, small, leaf | internal⟩ := admitted x among
        · have := nbytes_bounds small narrow
          rw [leaf, BTDATAOFF, sizeofIndx]
          omega
        · have := nbytes_bounds small narrow
          rw [internal, BTDATAOFF, sizeofIndx]
          omega
      exact btAdd_room (by rw [BTDATAOFF]; omega) high inside (fun x among => (bounds x among).1)
        (fun x among => (bounds x among).2) fits

theorem ovflsize_sound_iff_default
    : openSizes none none 512 = some (512, 2)
      ∧ ((PairsFit 512 (ovflsize 512 2) ∧ KeysFit 512 (ovflsize 512 2)
          ∧ PutsFit 512 (ovflsize 512 2)) ↔ 14 * 2 ≤ 512 - 20) :=
  ⟨by decide, @ovflsize_sound_iff none none 512 512 2 (by decide)⟩

/-- With 36 keys for a small page the share is too small, and the threshold admits two pairs of 300
bytes each.
-/
theorem ovflsize_unsound
    : openSizes (some ⟨512, 36⟩) none 4096 = some (512, 36) ∧ ovflsize 512 36 = 65535
      ∧ 200 + 100 ≤ ovflsize 512 36
      ∧ ¬ BTDATAOFF + (NBLEAFDBT 200 100 + sizeofIndx) + (NBLEAFDBT 200 100 + sizeofIndx) ≤ 512
      ∧ ¬ PairsFit 512 (ovflsize 512 36) :=
  ⟨by decide, by decide, by decide, by decide, fun fit => absurd (fit 200 100 200 100) (by decide)⟩

end BSDLibC.Btree
