import BSDLibC.Cdb.Assign
import BSDLibC.Cdb.Reader
import Mathlib.Data.Nat.Prime.Basic
import Mathlib.Data.Int.ModEq

/-! The value that `assign_nodes` stores at one vertex of an edge, and the index that `cdbr_find`
computes from the values at all three. Both reduce a sum of several values below the number of
data, and both sums are 32-bit words that can wrap around before they are reduced.
-/

namespace BSDLibC.Cdb
open BSDLibC.Bitops

/-- The value that `assign_nodes` computes from the index and the values at the other vertices. -/
def storedValue (dataEntries idx g1 g2 : Nat) : Nat :=
  fastRemainder32 ((2 * dataEntries + idx + 2 ^ 33 - g1 - g2) % 2 ^ 32) dataEntries
    (fastDivide32Prepare dataEntries)

/-- The index that `cdbr_find` computes from the values at the three vertices. -/
def readIndex (entries i0 i1 i2 : Nat) : Nat :=
  fastRemainder32 (((i0 + i1) % 2 ^ 32 + i2) % 2 ^ 32) entries (fastDivide32Prepare entries)

theorem readIndex_eq {d : Nat} (positive : 0 < d) (small : d < 2 ^ 32) (i0 i1 i2 : Nat)
    : readIndex d i0 i1 i2 = (i0 + i1 + i2) % 2 ^ 32 % d := by
  rw [readIndex, fastRemainder32_eq positive small (Nat.mod_lt _ (by decide)), Nat.mod_add_mod]

/-- After a pass of `assign_nodes`, the index read at the edge is the one read from the stored
value and the values it was computed from.
-/
theorem assignEdge_readIndex {state : State} {i : Nat} (positive : 0 < state.dataEntries)
    (small : state.dataEntries < 2 ^ 32)
    (distinct : ¬ (state.edges (state.outputOrder i)).degenerate) {e : Nat}
    (current : state.outputOrder i = e) {g : Nat → Nat}
    (after : (assignEdge (fastDivide32Prepare state.dataEntries) state i).g = g)
    : ∃ b c, readIndex state.dataEntries (g (state.ends e 0)) (g (state.ends e 1))
          (g (state.ends e 2))
        = readIndex state.dataEntries
            (storedValue state.dataEntries (state.edges e).idx (state.g (state.ends e b))
              (state.g (state.ends e c)))
            (state.g (state.ends e b)) (state.g (state.ends e c)) := by
  obtain ⟨a, b, c, choice, run, -⟩ :=
    assignEdge_cases (fastDivide32Prepare state.dataEntries) state i
  rw [current] at run distinct
  have stored : fastRemainder32 ((2 * state.dataEntries + (state.edges e).idx + 2 ^ 33
        - state.g (state.ends e b) - state.g (state.ends e c)) % 2 ^ 32) state.dataEntries
        (fastDivide32Prepare state.dataEntries)
      = storedValue state.dataEntries (state.edges e).idx (state.g (state.ends e b))
          (state.g (state.ends e c)) := rfl
  rw [run, stored] at after
  subst after
  refine ⟨b, c, ?_⟩
  simp only [Edge.degenerate, Bool.or_eq_true, decide_eq_true_eq, not_or] at distinct
  obtain ⟨⟨h01, h02⟩, h12⟩ := distinct
  simp only [readIndex_eq positive small]
  generalize storedValue _ _ _ _ = value
  refine congrArg (fun sum => sum % 2 ^ 32 % state.dataEntries) ?_
  simp only [List.mem_cons, Prod.mk.injEq, List.not_mem_nil, or_false] at choice
  simp only [State.ends, Function.update_apply]
  rcases choice with ⟨rfl, rfl, rfl⟩ | ⟨rfl, rfl, rfl⟩ | ⟨rfl, rfl, rfl⟩
  · rw [if_pos rfl, if_neg (Ne.symm h01), if_neg (Ne.symm h02)]
  · rw [if_neg h01, if_pos rfl, if_neg (Ne.symm h12), Nat.add_comm value]
  · rw [if_neg h02, if_neg h12, if_pos rfl]
    omega

/-- `cdbr_find` gets the datum of the index read from the three fields. -/
theorem cdbrFind_readIndex {vectorHash : VectorHash} {map : Mapping} {cdbr : Cdbr}
    {key : List UInt8} {i0 i1 i2 : Nat} (some : cdbr.entriesIndex ≠ 0)
    (magic : cdbr.entriesMagic = fastDivide32Prepare cdbr.entries)
    (read0 : getUintX map cdbr.hashBase (fastRemainder32 (vectorHash key cdbr.seed 0).toNat
      cdbr.entriesIndex cdbr.entriesIndexMagic) cdbr.indexSize = .some i0)
    (read1 : getUintX map cdbr.hashBase (fastRemainder32 (vectorHash key cdbr.seed 1).toNat
      cdbr.entriesIndex cdbr.entriesIndexMagic) cdbr.indexSize = .some i1)
    (read2 : getUintX map cdbr.hashBase (fastRemainder32 (vectorHash key cdbr.seed 2).toNat
      cdbr.entriesIndex cdbr.entriesIndexMagic) cdbr.indexSize = .some i2)
    : cdbrFind vectorHash map cdbr key = cdbrGet map cdbr (readIndex cdbr.entries i0 i1 i2) := by
  rw [cdbrFind, if_neg some]
  simp only [read0, read1, read2, Option.bind_eq_bind, Option.bind_some, magic]
  rfl

/-- Neither sum reaches `2 ^ 32`, where `x` is the sum of the values at the other vertices. The
second sum is the least number from `x` on that leaves the remainder `idx`.
-/
def SumsFit (d idx x : Nat) : Prop :=
  2 * d + idx < 2 ^ 32 + x
  ∧ (x ≤ idx ∨ (x ≤ idx + d ∧ idx + d < 2 ^ 32) ∨ idx + 2 * d < 2 ^ 32)

theorem sumsFit_iff {d idx x : Nat} (hidx : idx < d) (hx : x < 2 * d)
    : SumsFit d idx x
      ↔ 2 * d + idx - x < 2 ^ 32 ∧ (2 * d + idx - x) % d + x < 2 ^ 32 := by
  rw [SumsFit]
  rcases Nat.lt_or_ge idx x with beyond | below
  · rcases Nat.lt_or_ge (idx + d) x with far | near
    · rw [Nat.mod_eq_of_lt (show 2 * d + idx - x < d by omega)]
      omega
    · rw [show 2 * d + idx - x = d + idx - x + d by omega, Nat.add_mod_right,
        Nat.mod_eq_of_lt (show d + idx - x < d by omega)]
      omega
  · rw [show 2 * d + idx - x = idx - x + d * 2 by omega, Nat.add_mul_mod_self_left,
      Nat.mod_eq_of_lt (show idx - x < d by omega)]
    omega

theorem mod_eq_iff_dvd {d r idx excess : Nat} (total : (r + excess) % d = idx)
    : r % d = idx ↔ d ∣ excess := by
  constructor
  · intro exact
    have same : Nat.ModEq d r (r + excess) := exact.trans total.symm
    have := (Nat.modEq_iff_dvd' (Nat.le_add_right r excess)).mp same
    rwa [Nat.add_sub_cancel_left] at this
  · rintro ⟨q, rfl⟩
    rw [← total, Nat.add_mul_mod_self_left]

theorem dvd_three_mul_two_pow {d : Nat} (h : d ∣ 3 * 2 ^ 32)
    : (∃ j, d = 2 ^ j) ∨ ∃ j, d = 3 * 2 ^ j := by
  obtain ⟨a, b, three, two, rfl⟩ := Nat.dvd_mul.mp h
  obtain ⟨j, -, rfl⟩ := (Nat.dvd_prime_pow Nat.prime_two).mp two
  rcases (Nat.dvd_prime Nat.prime_three).mp three with rfl | rfl
  · exact Or.inl ⟨j, Nat.one_mul _⟩
  · exact Or.inr ⟨j, rfl⟩

/-- No three wraps come together where three of them would do no harm. -/
theorem wraps_ne_three {j d idx x : Nat} (form : d = 3 * 2 ^ j) (admitted : d ≤ maxDataCounter)
    (hidx : idx < d) (hx : x + 2 ≤ 2 * d)
    : (2 * d + idx - x) / 2 ^ 32 + ((2 * d + idx - x) % 2 ^ 32 % d + x) / 2 ^ 32 ≠ 3 := by
  have limit : d ≤ 3435973836 := admitted
  have reduced : (2 * d + idx - x) % 2 ^ 32 % d < d := Nat.mod_lt _ (by omega)
  have small : j < 31 := by
    by_contra large
    have : 2 ^ 31 ≤ 2 ^ j := Nat.pow_le_pow_right (by decide) (by omega)
    omega
  rcases Nat.lt_or_ge j 29 with less | more
  · have : 2 ^ j ≤ 2 ^ 28 := Nat.pow_le_pow_right (by decide) (by omega)
    omega
  · obtain rfl | rfl : j = 29 ∨ j = 30 := by omega
    · subst form
      omega
    · subst form
      omega

/-- The index comes back exactly if the number of data is a power of two or neither sum wraps
around.
-/
theorem readIndex_storedValue_iff {d idx g1 g2 : Nat} (positive : 0 < d)
    (admitted : d ≤ maxDataCounter) (hidx : idx < d) (h1 : g1 < d) (h2 : g2 < d)
    : readIndex d (storedValue d idx g1 g2) g1 g2 = idx
      ↔ (∃ j, d = 2 ^ j) ∨ SumsFit d idx (g1 + g2) := by
  have limit : d ≤ 3435973836 := admitted
  have stored : storedValue d idx g1 g2 = (2 * d + idx - (g1 + g2)) % 2 ^ 32 % d := by
    rw [storedValue, fastRemainder32_eq positive (by omega) (Nat.mod_lt _ (by decide)),
      show (2 * d + idx + 2 ^ 33 - g1 - g2) % 2 ^ 32 = (2 * d + idx - (g1 + g2)) % 2 ^ 32 by omega]
  have hx : g1 + g2 + 2 ≤ 2 * d := by omega
  rw [readIndex_eq positive (by omega), stored, Nat.add_assoc, sumsFit_iff hidx (by omega)]
  generalize g1 + g2 = x at *
  have three := fun j (form : d = 3 * 2 ^ j) => wraps_ne_three form admitted hidx hx
  have reduced : (2 * d + idx - x) % 2 ^ 32 % d < d := Nat.mod_lt _ positive
  -- What is lost are as many times `2 ^ 32` as the two sums wrap around.
  have total : (((2 * d + idx - x) % 2 ^ 32 % d + x) % 2 ^ 32
      + ((2 * d + idx - x) / 2 ^ 32 + ((2 * d + idx - x) % 2 ^ 32 % d + x) / 2 ^ 32) * 2 ^ 32) % d
      = idx := by
    calc
      _ = ((2 * d + idx - x) % 2 ^ 32 % d + (x + (2 * d + idx - x) / 2 ^ 32 * 2 ^ 32)) % d :=
        congrArg (· % d) (by omega)
      _ = ((2 * d + idx - x) % 2 ^ 32 + (x + (2 * d + idx - x) / 2 ^ 32 * 2 ^ 32)) % d := by
        rw [Nat.mod_add_mod]
      _ = (idx + d * 2) % d := congrArg (· % d) (by omega)
      _ = idx := by rw [Nat.add_mul_mod_self_left, Nat.mod_eq_of_lt hidx]
  rw [mod_eq_iff_dvd total]
  constructor
  · intro divides
    by_cases none : 2 * d + idx - x < 2 ^ 32 ∧ (2 * d + idx - x) % d + x < 2 ^ 32
    · exact Or.inr none
    left
    have some : (2 * d + idx - x) / 2 ^ 32
        + ((2 * d + idx - x) % 2 ^ 32 % d + x) / 2 ^ 32 ≠ 0 := by
      intro zero
      have first : 2 * d + idx - x < 2 ^ 32 := by omega
      rw [Nat.mod_eq_of_lt first] at zero
      omega
    have few : (2 * d + idx - x) / 2 ^ 32
        + ((2 * d + idx - x) % 2 ^ 32 % d + x) / 2 ^ 32 ≤ 4 := by omega
    generalize (2 * d + idx - x) / 2 ^ 32
      + ((2 * d + idx - x) % 2 ^ 32 % d + x) / 2 ^ 32 = wraps at *
    have power (h : d ∣ 2 ^ 34) : ∃ j, d = 2 ^ j := by
      obtain ⟨j, -, form⟩ := (Nat.dvd_prime_pow Nat.prime_two).mp h
      exact ⟨j, form⟩
    obtain rfl | rfl | rfl | rfl : wraps = 1 ∨ wraps = 2 ∨ wraps = 3 ∨ wraps = 4 := by omega
    · exact power (divides.trans (by decide))
    · exact power (divides.trans (by decide))
    · rcases dvd_three_mul_two_pow divides with done | ⟨j, form⟩
      · exact done
      · exact absurd rfl (three j form)
    · exact power (divides.trans (by decide))
  · rintro (⟨j, rfl⟩ | ⟨first, second⟩)
    · have small : j ≤ 32 := by
        by_contra large
        have : 2 ^ 33 ≤ 2 ^ j := Nat.pow_le_pow_right (by decide) (by omega)
        omega
      exact Dvd.dvd.mul_left (Nat.pow_dvd_pow 2 small) _
    · rw [Nat.mod_eq_of_lt first, Nat.div_eq_of_lt first, Nat.div_eq_of_lt second]
      simp

/-- Three data, of which the last is wanted. -/
theorem readIndex_storedValue_three
    : readIndex 3 (storedValue 3 2 1 2) 1 2 = 2 ↔ (∃ j, 3 = 2 ^ j) ∨ SumsFit 3 2 (1 + 2) :=
  readIndex_storedValue_iff (by decide) (by decide) (by decide) (by decide) (by decide)

/-- With as many data as the writer admits, the index can be lost. -/
theorem readIndex_storedValue_ne
    : ¬ ∀ d idx g1 g2, 0 < d → d ≤ maxDataCounter → idx < d → g1 < d → g2 < d
      → readIndex d (storedValue d idx g1 g2) g1 g2 = idx := by
  intro all
  have := all 0xcccccccc 0 0xcccccccb 0xcccccccb
  exact absurd (this (by decide) (by decide) (by decide) (by decide) (by decide)) (by decide +kernel)

end BSDLibC.Cdb
