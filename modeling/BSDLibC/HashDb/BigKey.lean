import Mathlib.Algebra.Order.Ring.Nat
import Mathlib.Data.List.Basic
import Mathlib.Tactic.Common

/-! How `__find_bigpair` compares a key with one that is stored over several pages. The memory at the
key goes on behind it, and each `memcmp` is recorded with the place and the number of the bytes of the
key that it is given.
-/

namespace BSDLibC.HashDb

def PARTIAL_KEY : Nat := 1

/-- A page as its array `bp` of 16-bit numbers and as its bytes. -/
structure Page where
  bp : Nat → Nat
  bytes : Nat → UInt8

/-- `memcmp` returns 0. -/
def sameBytes (page : Page) (off : Nat) (mem : Nat → UInt8) (kkey bytes : Nat) : Bool :=
  (List.range bytes).all (fun i => page.bytes (off + i) = mem (kkey + i))

/-- The reads of the key, each with its place and its length. -/
abbrev Reads := List (Nat × Nat)

/-- `__find_bigpair` from the place `kkey` of the key on, with the pages that `__get_buf` returns. The
size of a page is `bsize`, and the loop takes no more than `turns` turns.
-/
def findBigpair.loop (getBuf : Nat → Option Page) (bsize : Nat) (mem : Nat → UInt8) (size : Int)
    : Nat → Page → Nat → Nat → Int → Option (Int × Reads)
  | 0, _, _, _, _ => none
  | turns + 1, page, ndx, kkey, ksize =>
      let bytes : Nat := (bsize + 2 ^ 16 - page.bp ndx) % 2 ^ 16
      if bytes ≤ size ∧ page.bp (ndx + 1) = PARTIAL_KEY then
        if !sameBytes page (page.bp ndx) mem kkey bytes then
          some (-2, [(kkey, bytes)])
        else
          match getBuf (page.bp (ndx + 2)) with
          | none => some (-3, [(kkey, bytes)])
          | some next =>
              (findBigpair.loop getBuf bsize mem size turns next 1 (kkey + bytes) (ksize - bytes)).map
                (fun found => (found.1, (kkey, bytes) :: found.2))
      else if bytes ≠ ksize then some (-2, [])
      else if !sameBytes page (page.bp ndx) mem kkey bytes then some (-2, [(kkey, bytes)])
      else some (ndx, [(kkey, bytes)])

def findBigpair (getBuf : Nat → Option Page) (bsize : Nat) (mem : Nat → UInt8) (turns : Nat) (page : Page)
    (ndx : Nat) (size : Int)
    : Option (Int × Reads) :=
  findBigpair.loop getBuf bsize mem size turns page ndx 0 size

-----------------------------------------------------------------------------------------
-- A stored key
-----------------------------------------------------------------------------------------

variable {getBuf : Nat → Option Page} {bsize : Nat} {mem : Nat → UInt8} {size : Int} {page : Page}

/-- The bytes of a page from an offset to its end. -/
def Page.rest (bsize : Nat) (page : Page) (off : Nat) : List UInt8 :=
  (List.range (bsize - off)).map (fun i => page.bytes (off + i))

/-- The parts of a key: those on pages with the tag `PARTIAL_KEY`, and the last one. -/
inductive StoredKey (getBuf : Nat → Option Page) (bsize : Nat) : Page → List (List UInt8) → List UInt8 → Prop
  | last {page : Page} (inside : page.bp 1 ≤ bsize) (tag : page.bp 2 ≠ PARTIAL_KEY)
      : StoredKey getBuf bsize page [] (page.rest bsize (page.bp 1))
  | part {page next : Page} {parts : List (List UInt8)} {final : List UInt8} (inside : page.bp 1 ≤ bsize)
      (tag : page.bp 2 = PARTIAL_KEY) (link : getBuf (page.bp 3) = some next)
      (rest : StoredKey getBuf bsize next parts final)
      : StoredKey getBuf bsize page (page.rest bsize (page.bp 1) :: parts) final

/-- The bytes are found in the memory from a place on. -/
def Agrees (mem : Nat → UInt8) (start : Nat) (bytes : List UInt8) : Prop :=
  ∀ i < bytes.length, bytes[i]? = some (mem (start + i))

/-- The search key agrees with the stored one up to a part that goes beyond its end, though none of
the parts so far is longer than the whole search key.
-/
def RunsOver (mem : Nat → UInt8) (size : Int) (kkey : Nat) (parts : List (List UInt8)) : Prop :=
  ∃ before part after, parts = before ++ part :: after
    ∧ (kkey + before.flatten.length : Int) ≤ size
    ∧ Agrees mem kkey before.flatten
    ∧ (∀ p ∈ before ++ [part], (p.length : Int) ≤ size)
    ∧ size < kkey + before.flatten.length + part.length

/-- What is claimed of a search from the place `kkey` of the key on. -/
def SearchOk (mem : Nat → UInt8) (size : Int) (kkey : Nat) (stored : List UInt8) (found : Int × Reads) : Prop :=
  (∀ read ∈ found.2, (read.1 : Int) + read.2 ≤ size)
    ∧ (0 < found.1 → (kkey : Int) + stored.length = size ∧ Agrees mem kkey stored)

theorem length_rest (page : Page) (off : Nat) : (page.rest bsize off).length = bsize - off := by
  rw [Page.rest, List.length_map, List.length_range]

theorem sameBytes_iff (page : Page) (off kkey : Nat)
    : sameBytes page off mem kkey (bsize - off) = true ↔ Agrees mem kkey (page.rest bsize off) := by
  simp only [sameBytes, List.all_eq_true, List.mem_range, decide_eq_true_eq, Agrees, length_rest]
  refine forall_congr' fun i => forall_congr' fun inside => ?_
  rw [Page.rest, List.getElem?_map, List.getElem?_range inside, Option.map_some, Option.some.injEq]

theorem agrees_append {start : Nat} {xs ys : List UInt8}
    : Agrees mem start (xs ++ ys) ↔ Agrees mem start xs ∧ Agrees mem (start + xs.length) ys := by
  constructor
  · intro both
    refine ⟨fun i inside => ?_, fun i inside => ?_⟩
    · rw [← both i (by rw [List.length_append]; omega), List.getElem?_append_left inside]
    · have here := both (xs.length + i) (by rw [List.length_append]; omega)
      rwa [List.getElem?_append_right (Nat.le_add_right _ _), Nat.add_sub_cancel_left, ← Nat.add_assoc] at here
  · rintro ⟨first, second⟩ i inside
    by_cases before : i < xs.length
    · rw [List.getElem?_append_left before]
      exact first i before
    · rw [List.length_append] at inside
      rw [List.getElem?_append_right (by omega), second (i - xs.length) (by omega), Nat.add_assoc,
        show xs.length + (i - xs.length) = i by omega]

-----------------------------------------------------------------------------------------
-- The condition, part by part
-----------------------------------------------------------------------------------------

theorem not_runsOver_nil (kkey : Nat) : ¬ RunsOver mem size kkey [] := by
  rintro ⟨before, part, after, split, -⟩
  cases before <;> cases split

/-- A part that ends inside of the key is the first one of those before. -/
theorem runsOver_cons {kkey : Nat} {part : List UInt8} {parts : List (List UInt8)} (short : (part.length : Int) ≤ size)
    (inside : (kkey + part.length : Int) ≤ size) (agrees : Agrees mem kkey part)
    : RunsOver mem size kkey (part :: parts) ↔ RunsOver mem size (kkey + part.length) parts := by
  constructor
  · rintro ⟨before, beyond, after, split, starts, same, bounds, ends⟩
    cases before with
    | nil =>
        cases split
        simp only [List.flatten_nil, List.length_nil] at ends
        omega
    | cons first before =>
        cases split
        rw [List.flatten_cons, agrees_append] at same
        simp only [List.flatten_cons, List.length_append] at starts ends
        refine ⟨before, beyond, after, rfl, by push_cast; omega, same.2, fun p member => ?_, by push_cast; omega⟩
        exact bounds p (List.mem_cons_of_mem _ member)
  · rintro ⟨before, beyond, after, rfl, starts, same, bounds, ends⟩
    push_cast at starts ends
    refine ⟨part :: before, beyond, after, rfl, ?_, ?_, ?_, ?_⟩
    · rw [List.flatten_cons, List.length_append]
      push_cast
      omega
    · rw [List.flatten_cons, agrees_append]
      exact ⟨agrees, same⟩
    · intro p member
      obtain rfl | member := List.mem_cons.mp member
      · exact short
      · exact bounds p member
    · rw [List.flatten_cons, List.length_append]
      push_cast
      omega

/-- A part that is longer than the whole key, or differs from it, ends the search. -/
theorem not_runsOver_cons {kkey : Nat} {part : List UInt8} {parts : List (List UInt8)}
    (differs : ¬ Agrees mem kkey part) (inside : (kkey + part.length : Int) ≤ size)
    : ¬ RunsOver mem size kkey (part :: parts) := by
  rintro ⟨before, beyond, after, split, starts, same, bounds, ends⟩
  cases before with
  | nil =>
      cases split
      simp only [List.flatten_nil, List.length_nil] at ends
      omega
  | cons first before =>
      cases split
      rw [List.flatten_cons, agrees_append] at same
      exact differs same.1

theorem not_runsOver_long {kkey : Nat} {part : List UInt8} {parts : List (List UInt8)}
    (long : size < part.length)
    : ¬ RunsOver mem size kkey (part :: parts) := by
  rintro ⟨before, beyond, after, split, -, -, bounds, -⟩
  have bound : (part.length : Int) ≤ size := by
    cases before with
    | nil =>
        cases split
        exact bounds part (by simp)
    | cons first before =>
        cases split
        exact bounds part (by simp)
  omega

-----------------------------------------------------------------------------------------
-- The search
-----------------------------------------------------------------------------------------

theorem findBigpair_loop_total {parts : List (List UInt8)} {final : List UInt8} {turns kkey : Nat} {ksize : Int}
    (stored : StoredKey getBuf bsize page parts final) (enough : parts.length < turns)
    : ∃ found, findBigpair.loop getBuf bsize mem size turns page 1 kkey ksize = some found := by
  induction stored generalizing turns kkey ksize with
  | last inside tag =>
      obtain _ | turns := turns
      · omega
      rw [findBigpair.loop]
      simp only [tag, and_false, if_false]
      split
      · exact ⟨_, rfl⟩
      · split <;> exact ⟨_, rfl⟩
  | part inside tag link rest ih =>
      obtain _ | turns := turns
      · omega
      rw [List.length_cons] at enough
      rw [findBigpair.loop]
      simp only [tag, and_true, link]
      split
      · split
        · exact ⟨_, rfl⟩
        · have next (k : Nat) (left : Int) := @ih turns k left (by omega)
          obtain ⟨found, run⟩ := next _ _
          rw [run]
          exact ⟨_, rfl⟩
      · split
        · exact ⟨_, rfl⟩
        · split <;> exact ⟨_, rfl⟩

/-- A search that has not found the key. -/
theorem searchOk_missed {kkey : Nat} {reads : Reads} (stored : List UInt8)
    (inside : ∀ read ∈ reads, (read.1 : Int) + read.2 ≤ size)
    : SearchOk mem size kkey stored (-2, reads) :=
  ⟨inside, fun positive => absurd (show (0 : Int) < -2 from positive) (by decide)⟩

/-- The search stays inside of the key exactly when no part runs beyond its end. The key has been compared
up to the place `kkey`.
-/
theorem findBigpair_loop_iff {parts : List (List UInt8)} {final : List UInt8} {turns kkey : Nat} {found : Int × Reads}
    (small : bsize < 2 ^ 16) (stored : StoredKey getBuf bsize page parts final) (enough : parts.length < turns)
    (begun : (kkey : Int) ≤ size ∨ kkey = 0)
    (run : findBigpair.loop getBuf bsize mem size turns page 1 kkey (size - kkey) = some found)
    : SearchOk mem size kkey (parts.flatten ++ final) found ↔ ¬ RunsOver mem size kkey parts := by
  induction stored generalizing turns kkey found with
  | @last page inside tag =>
      obtain _ | turns := turns
      · omega
      have bytes : (bsize + 2 ^ 16 - page.bp 1) % 2 ^ 16 = bsize - page.bp 1 := by omega
      rw [findBigpair.loop] at run
      simp only [bytes, tag, and_false, if_false] at run
      refine iff_of_true ?_ (not_runsOver_nil kkey)
      rw [List.flatten_nil, List.nil_append]
      split at run
      · cases run
        exact searchOk_missed _ (by simp)
      next fits =>
        have ends : (kkey : Int) + (bsize - page.bp 1 : Nat) = size := by omega
        split at run
        · cases run
          exact searchOk_missed _ (by simp [ends])
        next same =>
          cases run
          refine ⟨by simp [ends], fun _ => ⟨by rw [length_rest]; exact ends, ?_⟩⟩
          exact (sameBytes_iff page _ kkey).mp (by simpa using same)
  | @part page next parts final inside tag link rest ih =>
      obtain _ | turns := turns
      · omega
      rw [List.length_cons] at enough
      have bytes : (bsize + 2 ^ 16 - page.bp 1) % 2 ^ 16 = bsize - page.bp 1 := by omega
      have len := @length_rest bsize page (page.bp 1)
      rw [findBigpair.loop] at run
      simp only [bytes, tag, and_true, link] at run
      by_cases short : ((bsize - page.bp 1 : Nat) : Int) ≤ size
      · rw [if_pos short] at run
        by_cases beyond : size < kkey + (bsize - page.bp 1 : Nat)
        · -- the part is read beyond the end of the key, whatever comes then
          refine iff_of_false (fun ok => ?_) (not_not_intro ⟨[], _, parts, rfl, ?_, ?_, ?_, ?_⟩)
          · have read : (kkey, bsize - page.bp 1) ∈ found.2 := by
              split at run
              · cases run
                exact List.mem_cons_self
              · obtain ⟨tail, -, rfl⟩ := Option.map_eq_some_iff.mp run
                exact List.mem_cons_self
            have := ok.1 _ read
            simp only at this
            omega
          · simp only [List.flatten_nil, List.length_nil]
            omega
          · intro i low
            cases low
          · intro p member
            rw [List.nil_append, List.mem_singleton] at member
            rw [member, len]
            exact short
          · simp only [List.flatten_nil, List.length_nil, len]
            omega
        · split at run
          next differs =>
            cases run
            refine iff_of_true (searchOk_missed _ ?_) (not_runsOver_cons ?_ ?_)
            · intro read member
              rw [List.mem_singleton] at member
              rw [member]
              simp only
              omega
            · intro agrees
              rw [(sameBytes_iff page _ kkey).mpr agrees] at differs
              cases differs
            · rw [len]
              omega
          next same =>
            have agrees : Agrees mem kkey (page.rest bsize (page.bp 1)) :=
              (sameBytes_iff page _ kkey).mp (by simpa using same)
            obtain ⟨tail, found', rfl⟩ := Option.map_eq_some_iff.mp run
            rw [show size - (kkey : Int) - (bsize - page.bp 1 : Nat) = size - (kkey + (bsize - page.bp 1) : Nat) by
              push_cast
              omega] at found'
            have below := ih (by omega) (Or.inl (by push_cast; omega)) found'
            rw [runsOver_cons (by rw [len]; exact short) (by rw [len]; omega) agrees, len, ← below]
            simp only [SearchOk, List.flatten_cons, List.append_assoc, agrees_append, List.length_append, len,
              List.forall_mem_cons]
            push_cast
            constructor
            · rintro ⟨⟨-, reads⟩, sound⟩
              refine ⟨reads, fun positive => ?_⟩
              obtain ⟨total, -, rest⟩ := sound positive
              exact ⟨by omega, rest⟩
            · rintro ⟨reads, sound⟩
              refine ⟨⟨by omega, reads⟩, fun positive => ?_⟩
              obtain ⟨total, rest⟩ := sound positive
              exact ⟨by omega, agrees, rest⟩
      · rw [if_neg short, if_pos (by omega)] at run
        cases run
        exact iff_of_true (searchOk_missed _ (by simp)) (not_runsOver_long (by rw [len]; omega))

/-- The search reads no byte behind the search key, and finds only the key itself, unless the stored key
has a part that runs over the end of the search key.
-/
theorem findBigpair_ok_iff {parts : List (List UInt8)} {final : List UInt8} {turns : Nat} (small : bsize < 2 ^ 16)
    (stored : StoredKey getBuf bsize page parts final) (mem : Nat → UInt8) (size : Int)
    (enough : parts.length < turns)
    : ∃ found, findBigpair getBuf bsize mem turns page 1 size = some found
      ∧ (SearchOk mem size 0 (parts.flatten ++ final) found ↔ ¬ RunsOver mem size 0 parts) := by
  obtain ⟨found, run⟩ := @findBigpair_loop_total _ _ mem size _ _ _ turns 0 size stored enough
  refine ⟨found, run, findBigpair_loop_iff small stored enough (Or.inr rfl) ?_⟩
  simpa using run

/-- The page `addr` of a key with five bytes of the value 7, two of them on a page. -/
def sevens (addr : Nat) : Page where
  bp i := if i = 1 then (if addr = 2 then 15 else 14) else if i = 2 then (if addr = 2 then 2 else 1) else addr + 1
  bytes _ := 7

theorem storedKey_sevens : StoredKey (fun addr => some (sevens addr)) 16 (sevens 0) [[7, 7], [7, 7]] [7] :=
  .part (by decide) rfl rfl (.part (by decide) rfl rfl (.last (by decide) (by decide)))

/-- Witness: the key itself. -/
theorem findBigpair_ok_iff_sevens
    : ∃ found, findBigpair (fun addr => some (sevens addr)) 16 (fun _ => 7) 3 (sevens 0) 1 5 = some found
      ∧ (SearchOk (fun _ => 7) 5 0 ([[7, 7], [7, 7]].flatten ++ [7]) found
        ↔ ¬ RunsOver (fun _ => 7) 5 0 [[7, 7], [7, 7]]) :=
  findBigpair_ok_iff (by decide) storedKey_sevens (fun _ => 7) 5 (by decide)

/-- Counterexample: a search key of three such bytes. The second comparison is given four. -/
theorem findBigpair_reads_behind
    : findBigpair (fun addr => some (sevens addr)) 16 (fun _ => 7) 3 (sevens 0) 1 3 = some (-2, [(0, 2), (2, 2)])
      ∧ ¬ SearchOk (fun _ => 7) 3 0 [7, 7, 7, 7, 7] (-2, [(0, 2), (2, 2)]) := by
  refine ⟨by decide, fun ok => ?_⟩
  exact absurd (ok.1 (2, 2) (by decide)) (by decide)

end BSDLibC.HashDb
