import BSDLibC.HashDb.Header
import Mathlib.Tactic.Common

/-! The bits of the maps, and what the search of `overflow_page` finds. -/

namespace BSDLibC.HashDb

def Bitmap.bit (map : Bitmap) (n : Nat) : Bool := (map (n / 32)).getLsbD (n % 32)

variable {map freep : Bitmap} {h : Header} {i j n m : Nat}

theorem same_bit : m = n ↔ m / 32 = n / 32 ∧ m % 32 = n % 32 := by omega

theorem bit_setBit (map : Bitmap) (n m : Nat) : (setBit map n).bit m = (decide (m = n) || map.bit m) := by
  rw [Bitmap.bit, Bitmap.bit, setBit]
  have low : n % 32 < 32 := Nat.mod_lt _ (by decide)
  have low' : m % 32 < 32 := Nat.mod_lt _ (by decide)
  by_cases word : m / 32 = n / 32
  · rw [word, Function.update_self, BitVec.getLsbD_or]
    have shifted : (1#32 <<< (n % 32)).getLsbD (m % 32) = decide (m = n) := by
      rw [BitVec.getLsbD_shiftLeft, BitVec.getLsbD_one]
      simp only [same_bit (m := m), word, true_and]
      by_cases here : m % 32 = n % 32
      · simp [here, low]
      · by_cases less : m % 32 < n % 32
        · simp [here, less]
        · simp [here, less, low']
          omega
    rw [shifted, Bool.or_comm]
  · rw [Function.update_of_ne word]
    have ne : m ≠ n := fun same => word (by rw [same])
    simp [ne]

theorem bit_clrBit (map : Bitmap) (n m : Nat) : (clrBit map n).bit m = (!decide (m = n) && map.bit m) := by
  have set := bit_setBit (fun _ => 0#32) n m
  rw [Bitmap.bit, Bitmap.bit, setBit] at set
  rw [Bitmap.bit, Bitmap.bit, clrBit]
  have low' : m % 32 < 32 := Nat.mod_lt _ (by decide)
  by_cases word : m / 32 = n / 32
  · rw [word, Function.update_self] at set ⊢
    simp only [BitVec.zero_or, BitVec.getLsbD_zero, Bool.or_false] at set
    rw [BitVec.getLsbD_and, BitVec.getLsbD_not, set]
    simp [low', Bool.and_comm]
  · rw [Function.update_of_ne word]
    have ne : m ≠ n := fun same => word (by rw [same])
    simp [ne]

theorem allSet_getLsbD (i : Nat) : allSet.getLsbD i = decide (i < 32) := by
  rw [show allSet = BitVec.allOnes 32 from rfl, BitVec.getLsbD_allOnes]

/-- In a word with a free bit, the first one is found. -/
theorem firstFree_spec {word : BitVec 32} (free : word ≠ allSet)
    : firstFree word < 32 ∧ word.getLsbD (firstFree word) = false := by
  obtain ⟨i, low, clear⟩ : ∃ i, i < 32 ∧ word.getLsbD i = false := by
    by_contra none
    refine free (BitVec.eq_of_getLsbD_eq fun i low => ?_)
    rw [allSet_getLsbD, decide_eq_true low]
    by_contra clear
    exact none ⟨i, low, by simpa using clear⟩
  rw [firstFree]
  cases found : (List.range 32).find? (fun i => !word.getLsbD i) with
  | none =>
      have all := List.find?_eq_none.mp found i (List.mem_range.mpr low)
      simp [clear] at all
  | some k =>
      have inRange := List.mem_range.mp (List.mem_of_find?_eq_some found)
      have isClear := List.find?_some found
      exact ⟨inRange, by simpa using isClear⟩

/-- The pages of a new map that are free: those in front of `nbits`, apart from the map itself. -/
theorem words_clear {nbits b : Nat} (positive : 0 < nbits) (clear : (ibitmap.words nbits).bit b = false)
    : b ≠ 0 ∧ b < nbits := by
  rw [ibitmap.words, bit_setBit, Bool.or_eq_false_iff, decide_eq_false_iff_not] at clear
  obtain ⟨notFirst, clear⟩ := clear
  refine ⟨notFirst, ?_⟩
  by_contra beyond
  rw [Bitmap.bit] at clear
  have shift : (nbits - 1) >>> 5 = (nbits - 1) / 32 := by rw [Nat.shiftRight_eq_div_pow]
  have low : b % 32 < 32 := Nat.mod_lt _ (by decide)
  simp only [shift, Nat.add_sub_cancel] at clear
  by_cases here : b / 32 = (nbits - 1) / 32
  · rw [if_pos here, BitVec.getLsbD_shiftLeft, allSet_getLsbD] at clear
    have notBelow : ¬ b % 32 < nbits % 32 := by omega
    simp [low, notBelow] at clear
    omega
  · rw [if_neg here, if_neg (by omega), allSet_getLsbD] at clear
    simp [low] at clear

/-- A new map with room for one page is full. -/
theorem words_one (b : Nat) : (ibitmap.words 1).bit b = true := by
  by_contra clear
  have := words_clear Nat.one_pos (by simpa using clear)
  omega

theorem words_one_word (j : Nat) : ibitmap.words 1 j = allSet := by
  refine BitVec.eq_of_getLsbD_eq fun i low => ?_
  have bit := words_one (32 * j + i)
  rw [Bitmap.bit, show (32 * j + i) / 32 = j by omega, show (32 * j + i) % 32 = i by omega] at bit
  rw [bit, allSet_getLsbD, decide_eq_true low]

-----------------------------------------------------------------------------------------
-- The search
-----------------------------------------------------------------------------------------

theorem scan_found {inUseBits turns : Nat} (found : overflowPage.scan freep inUseBits turns i = some j)
    : freep j ≠ allSet ∧ 32 * j ≤ inUseBits := by
  induction turns generalizing i with
  | zero => cases found
  | succ turns ih =>
      rw [overflowPage.scan] at found
      by_cases inside : 32 * i ≤ inUseBits
      · rw [if_pos inside] at found
        by_cases free : freep i ≠ allSet
        · rw [if_pos free] at found
          cases found
          exact ⟨free, inside⟩
        · rw [if_neg free] at found
          exact ih found
      · rw [if_neg inside] at found
        cases found

/-- A word with a free page, in a map that is in memory. -/
theorem search_found {freePage freeBit firstPage turns : Nat} {last : Option Bitmap} {k : Nat}
    (found : overflowPage.search h freePage freeBit firstPage turns k last = some (.found i j freep))
    : i < nCached ∧ h.mapp i = some freep ∧ freep j ≠ allSet
      ∧ 32 * j ≤ (if i = freePage then freeBit else h.mapBits - 1) := by
  induction turns generalizing k last with
  | zero => cases found
  | succ turns ih =>
      rw [overflowPage.search] at found
      split at found
      next inside =>
        split at found
        next => cases found
        next low =>
          split at found
          next => split at found <;> cases found
          next map atK =>
            dsimp only at found
            split at found
            next j' scanned =>
              cases found
              exact ⟨by omega, atK, scan_found scanned⟩
            next => exact ih found
      next => cases found

/-- The map that has been seen last is the one of the last page. -/
theorem search_exhausted {freePage freeBit firstPage turns : Nat} {last : Option Bitmap} {k : Nat}
    (found : overflowPage.search h freePage freeBit firstPage turns k last = some (.exhausted (some freep)))
    (seen : k = freePage + 1 → last = h.mapp freePage) (begun : k ≤ freePage + 1)
    : h.mapp freePage = some freep := by
  induction turns generalizing k last with
  | zero => cases found
  | succ turns ih =>
      rw [overflowPage.search] at found
      split at found
      next inside =>
        split at found
        next => cases found
        next low =>
          split at found
          next => split at found <;> cases found
          next map atK =>
            dsimp only at found
            split at found
            next => cases found
            next =>
              refine ih found (fun same => ?_) (by omega)
              have here : k = freePage := by omega
              rw [← here, atK]
      next outside =>
        cases found
        exact (seen (by omega)).symm

/-- The search does not end without having seen a map. -/
theorem search_seen {freePage freeBit firstPage turns : Nat} {last : Option Bitmap} {k : Nat}
    (found : overflowPage.search h freePage freeBit firstPage turns k last = some (.exhausted none))
    : last = none ∧ freePage < k := by
  induction turns generalizing k last with
  | zero => cases found
  | succ turns ih =>
      rw [overflowPage.search] at found
      split at found
      next inside =>
        split at found
        next => cases found
        next low =>
          split at found
          next => split at found <;> cases found
          next map atK =>
            dsimp only at found
            split at found
            next => cases found
            next => exact absurd (ih found).1 (by simp)
      next outside =>
        cases found
        exact ⟨rfl, by omega⟩

end BSDLibC.HashDb
