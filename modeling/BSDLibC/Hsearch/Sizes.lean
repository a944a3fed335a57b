import BSDLibC.Hsearch.Table
import Mathlib.Tactic.IntervalCases

/-! Which tables of `hcreate_r` have the right size, and the map that they hold. -/

namespace BSDLibC.Hsearch

-----------------------------------------------------------------------------------------
-- The map
-----------------------------------------------------------------------------------------

section

variable {δ : Type} (hash : List UInt8 → UInt32)

/-- The answers of a map from keys to data where the first insertion of a key stays. -/
def mapAnswers : List (Call δ) → (List UInt8 → Option δ) → List (Answer δ)
  | [], _ => []
  | call :: calls, m =>
      match m call.item.key with
      | some data => .entry ⟨call.item.key, data⟩ :: mapAnswers calls m
      | none =>
          if call.action = .find then .absent :: mapAnswers calls m
          else if !call.memory then .noMemory :: mapAnswers calls m
          else
            .entry call.item
              :: mapAnswers calls (Function.update m call.item.key (some call.item.data))

/-- The chains hold a map. -/
structure Holds (head : HsearchData δ) (m : List UInt8 → Option δ) : Prop where
  length : head.table.length = head.size
  positive : 0 < head.size
  chain (key : List UInt8) (chain : List (Entry δ)) : head.table[head.index hash key]? = some chain
    → chain.find? (fun ie => ie.key = key) = (m key).map fun data => ⟨key, data⟩

variable {hash}

theorem Holds.index_lt {head : HsearchData δ} {m : List UInt8 → Option δ} (holds : Holds hash head m)
    (key : List UInt8)
    : head.index hash key < head.table.length := by
  have := Nat.and_le_right (n := (hash key).toNat) (m := head.size - 1)
  have := holds.positive
  rw [holds.length, HsearchData.index]
  omega

/-- An entry goes before its chain. -/
theorem Holds.insert {head : HsearchData δ} {m : List UInt8 → Option δ} (holds : Holds hash head m)
    (item : Entry δ) {chain : List (Entry δ)}
    (found : head.table[head.index hash item.key]? = some chain)
    : Holds hash
        { head with
          table := head.table.set (head.index hash item.key) (item :: chain)
          filled := head.filled + 1 }
        (Function.update m item.key (some item.data)) where
  length := List.length_set.trans holds.length
  positive := holds.positive
  chain key other place := by
    change (head.table.set (head.index hash item.key) (item :: chain))[head.index hash key]?
      = some other at place
    by_cases same : item.key = key
    · subst same
      rw [List.getElem?_set_self (holds.index_lt item.key)] at place
      cases place
      rw [Function.update_self, List.find?_cons_of_pos (by simp)]
      rfl
    · rw [Function.update_of_ne (Ne.symm same)]
      by_cases index : head.index hash item.key = head.index hash key
      · rw [← index, List.getElem?_set_self (holds.index_lt item.key)] at place
        cases place
        rw [List.find?_cons_of_neg (by simpa using same)]
        exact holds.chain key chain (index ▸ found)
      · rw [List.getElem?_set_ne index] at place
        exact holds.chain key other place

/-- Calls of `hsearch_r` answer as the map does. -/
theorem Holds.answers {head : HsearchData δ} {m : List UInt8 → Option δ} (holds : Holds hash head m)
    (calls : List (Call δ))
    : answers hash calls head = some (mapAnswers calls m) := by
  induction calls generalizing head m with
  | nil => rfl
  | cons call calls ih =>
      have place := List.getElem?_eq_getElem (holds.index_lt call.item.key)
      have chain := holds.chain call.item.key _ place
      rw [Hsearch.answers, hsearchR, place, mapAnswers]
      simp only [Option.bind_eq_bind, Option.bind_some, chain]
      cases known : m call.item.key with
      | some data =>
          simp only [Option.map_some]
          change Option.bind (Hsearch.answers hash calls head) _ = _
          rw [ih holds]
          rfl
      | none =>
          simp only [Option.map_none]
          by_cases find : call.action = .find
          · rw [if_pos find, if_pos find]
            change Option.bind (Hsearch.answers hash calls head) _ = _
            rw [ih holds]
            rfl
          rw [if_neg find, if_neg find]
          split
          next =>
            change Option.bind (Hsearch.answers hash calls head) _ = _
            rw [ih holds]
            rfl
          next =>
            change Option.bind (Hsearch.answers hash calls _) _ = _
            rw [ih (holds.insert call.item place)]
            rfl

-----------------------------------------------------------------------------------------
-- The number of buckets
-----------------------------------------------------------------------------------------

/-- The loop counts the bits of a number. -/
theorem countBits_spec {bound nel : Nat} (small : nel < 2 ^ bound) (positive : nel ≠ 0)
    : ∃ p, countBits bound nel = p + 1 ∧ 2 ^ p ≤ nel ∧ nel < 2 ^ (p + 1) := by
  induction bound generalizing nel with
  | zero =>
      rw [Nat.pow_zero] at small
      omega
  | succ bound ih =>
      rw [countBits, if_pos positive]
      by_cases more : nel / 2 = 0
      · have none : countBits bound (nel / 2) = 0 := by
          rw [more]
          cases bound <;> rfl
        exact ⟨0, by rw [none], by omega, by omega⟩
      · obtain ⟨p, count, low, high⟩ := ih (by rw [Nat.pow_succ] at small; omega) more
        refine ⟨p + 1, by rw [count], ?_, ?_⟩
        · rw [Nat.pow_succ]
          omega
        · rw [Nat.pow_succ]
          omega

/-- A shift by less than 31 is the power of two. -/
theorem shiftOne_small : ∀ p < 31, shiftOne p = 2 ^ p := by decide +kernel

theorem shiftOne_sign : shiftOne 31 = 2 ^ 64 - 2 ^ 31 := by decide +kernel

/-- The processor takes 32 bits less for a larger shift. -/
theorem shiftOne_large : ∀ p < 31, shiftOne (32 + p) = 2 ^ p := by decide +kernel

/-- The smallest power of two that is at least a number. -/
def Smallest (size least : Nat) : Prop :=
  ∃ k, size = 2 ^ k ∧ least ≤ 2 ^ k ∧ ∀ j, least ≤ 2 ^ j → 2 ^ k ≤ 2 ^ j

/-- The number of buckets that `nel` asks for. -/
def wanted (nel : Nat) : Nat := max 16 (min nel (2 ^ 58))

theorem smallest_pow (k : Nat) : Smallest (2 ^ k) (2 ^ k) :=
  ⟨k, rfl, Nat.le_refl _, fun _ le => le⟩

theorem smallest_between {n p : Nat} (low : 2 ^ p < n) (high : n ≤ 2 ^ (p + 1))
    : Smallest (2 ^ (p + 1)) n := by
  refine ⟨p + 1, rfl, high, fun j le => Nat.pow_le_pow_right (by omega) ?_⟩
  exact (Nat.pow_lt_pow_iff_right (by omega)).mp (low.trans_le le)

theorem buckets_eq (nel : Nat)
    : buckets nel
      = if wanted nel &&& (wanted nel - 1) ≠ 0 then shiftOne (countBits 64 (wanted nel))
        else wanted nel := by
  have same : (if (if nel < MIN_BUCKETS then MIN_BUCKETS else nel) > MAX_BUCKETS then MAX_BUCKETS
      else if nel < MIN_BUCKETS then MIN_BUCKETS else nel) = wanted nel := by
    rw [wanted, MIN_BUCKETS, MAX_BUCKETS]
    split_ifs <;> omega
  rw [buckets, same]

theorem smallest_self {n : Nat} (power : ∃ k, n = 2 ^ k)
    : Smallest n n := by
  obtain ⟨k, rfl⟩ := power
  exact smallest_pow k

/-- A power of two is not rounded. -/
theorem buckets_of_power {nel : Nat} (power : ∃ k, wanted nel = 2 ^ k)
    : buckets nel = wanted nel := by
  have positive : wanted nel ≠ 0 := by
    rw [wanted]
    omega
  rw [buckets_eq, if_neg]
  exact not_not.mpr ((Nat.and_sub_one_eq_zero_iff_isPowerOfTwo positive).mpr power)

/-- Another number is shifted for, one bit above its own. -/
theorem buckets_of_not_power {nel : Nat} (not : ¬ ∃ k, wanted nel = 2 ^ k)
    : ∃ p, 4 ≤ p ∧ p ≤ 57 ∧ 2 ^ p < nel ∧ nel < 2 ^ (p + 1) ∧ wanted nel = nel
      ∧ buckets nel = shiftOne (p + 1) := by
  have low : ¬ nel ≤ 16 := fun le => not ⟨4, by rw [wanted]; omega⟩
  have high : ¬ 2 ^ 58 ≤ nel := fun le => not ⟨58, by rw [wanted]; omega⟩
  have same : wanted nel = nel := by
    rw [wanted]
    omega
  rw [same] at not
  obtain ⟨p, count, least, most⟩ := countBits_spec (show nel < 2 ^ 64 by omega) (by omega)
  have above : 2 ^ p < nel := lt_of_le_of_ne least fun equal => not ⟨p, equal.symm⟩
  refine ⟨p, ?_, ?_, above, most, same, ?_⟩
  · have := (Nat.pow_lt_pow_iff_right (a := 2) (n := 4) (m := p + 1) (by omega)).mp (by omega)
    omega
  · have := (Nat.pow_lt_pow_iff_right (a := 2) (n := p) (m := 58) (by omega)).mp (by omega)
    omega
  · have positive : nel ≠ 0 := by omega
    rw [buckets_eq, same, count, if_pos]
    exact fun zero => not ((Nat.and_sub_one_eq_zero_iff_isPowerOfTwo positive).mp zero)

/-- The cases for the number of buckets: right, the negative `int`, or a power of two that is too
small.
-/
theorem buckets_cases (nel : Nat)
    : (Smallest (buckets nel) (wanted nel)
        ∧ (nel ≤ 2 ^ 31 ∨ 2 ^ 58 ≤ nel ∨ ∃ k, nel = 2 ^ k))
      ∨ buckets nel = 2 ^ 64 - 2 ^ 31
      ∨ ((∃ k ≤ 26, buckets nel = 2 ^ k) ∧ 2 ^ 31 < nel ∧ nel < 2 ^ 58
        ∧ ¬ ∃ k, nel = 2 ^ k) := by
  by_cases power : ∃ k, wanted nel = 2 ^ k
  · left
    rw [buckets_of_power power]
    refine ⟨smallest_self power, ?_⟩
    by_cases low : nel ≤ 2 ^ 31
    · exact Or.inl low
    by_cases high : 2 ^ 58 ≤ nel
    · exact Or.inr (Or.inl high)
    have same : wanted nel = nel := by
      rw [wanted]
      omega
    exact Or.inr (Or.inr (same ▸ power))
  obtain ⟨p, low, high, above, below, same, size⟩ := buckets_of_not_power power
  rw [same] at power
  rcases Nat.lt_trichotomy p 30 with small | middle | large
  · left
    have bound : 2 ^ (p + 1) ≤ 2 ^ 30 := Nat.pow_le_pow_right (by omega) small
    rw [size, shiftOne_small (p + 1) (by omega), same]
    exact ⟨smallest_between above below.le, Or.inl (by omega)⟩
  · right
    left
    rw [size, middle, shiftOne_sign]
  · right
    right
    have bound : 2 ^ 31 ≤ 2 ^ p := Nat.pow_le_pow_right (by omega) large
    have bound' : 2 ^ (p + 1) ≤ 2 ^ 58 := Nat.pow_le_pow_right (by omega) (by omega)
    refine ⟨⟨p - 31, by omega, ?_⟩, by omega, by omega, power⟩
    rw [size, show p + 1 = 32 + (p - 31) by omega, shiftOne_large (p - 31) (by omega)]

end

-----------------------------------------------------------------------------------------
-- Tables
-----------------------------------------------------------------------------------------

variable {δ : Type} {hash : List UInt8 → UInt32}

/-- A successful call leaves empty chains, as many as there is room for. -/
theorem hcreateR_success {fits : Nat → Bool} {nel : Nat} {errno : Int} {before head : HsearchData δ}
    (success : hcreateR fits nel before = (1, errno, head))
    : head.size = buckets nel ∧ head.table = List.replicate head.size []
      ∧ head.size ≤ (2 ^ 64 - 1) / 8 := by
  rw [hcreateR] at success
  by_cases failed : reallocarr fits (buckets nel) 8 ≠ 0
  · simp only [if_pos failed, Prod.mk.injEq, Int.zero_ne_one, false_and] at success
  · simp only [if_neg failed, Prod.mk.injEq, true_and] at success
    obtain ⟨-, rfl⟩ := success
    refine ⟨rfl, rfl, ?_⟩
    by_contra large
    change ¬ buckets nel ≤ _ at large
    refine failed ?_
    rw [reallocarr, if_neg (by omega), if_pos (by omega)]
    decide

/-- Empty chains hold the empty map. -/
theorem Holds.empty (hash : List UInt8 → UInt32) {head : HsearchData δ}
    (positive : 0 < head.size) (table : head.table = List.replicate head.size [])
    : Holds hash head fun _ => none where
  length := by rw [table, List.length_replicate]
  positive := positive
  chain key chain place := by
    rw [table, List.getElem?_replicate] at place
    split at place
    · cases place
      rfl
    · cases place

/-- A mask of at most 32 bits reaches every bucket, and no hash reaches further. -/
theorem mask_reaches_iff (k : Nat)
    : (∀ b < 2 ^ k, ∃ value : UInt32, value.toNat &&& (2 ^ k - 1) = b) ↔ k ≤ 32 := by
  constructor
  · intro reaches
    by_contra large
    have bound : 2 ^ 33 ≤ 2 ^ k := Nat.pow_le_pow_right (by omega) (by omega)
    obtain ⟨value, same⟩ := reaches (2 ^ 32) (by omega)
    have := Nat.and_le_left (n := value.toNat) (m := 2 ^ k - 1)
    have := value.toNat_lt
    omega
  · intro small b lt
    have bound : 2 ^ k ≤ 2 ^ 32 := Nat.pow_le_pow_right (by omega) small
    refine ⟨UInt32.ofNat b, ?_⟩
    rw [UInt32.toNat_ofNat_of_lt' (by change b < 2 ^ 32; omega), Nat.and_two_pow_sub_one_eq_mod,
      Nat.mod_eq_of_lt lt]

/-- What is asked of a new table: its size, that hashes reach all of it, and the map. -/
structure Proper (hash : List UInt8 → UInt32) (nel : Nat) (head : HsearchData δ) : Prop where
  size : Smallest head.size (wanted nel)
  reaches (b : Nat) : b < head.size → ∃ value : UInt32, value.toNat &&& (head.size - 1) = b
  answers (calls : List (Call δ)) : answers hash calls head = some (mapAnswers calls fun _ => none)

/-- The size is right exactly where no shift is made or its count is below 31. -/
theorem smallest_buckets_iff {nel : Nat} (success : buckets nel ≤ (2 ^ 64 - 1) / 8)
    : Smallest (buckets nel) (wanted nel) ↔ nel ≤ 2 ^ 31 ∨ 2 ^ 58 ≤ nel ∨ ∃ k, nel = 2 ^ k := by
  rcases buckets_cases nel with ⟨right, condition⟩ | sign | ⟨⟨k, small, size⟩, low, high, not⟩
  · exact iff_of_true right condition
  · omega
  · refine iff_of_false ?_ ?_
    · rintro ⟨j, same, enough, -⟩
      have bound : 2 ^ k ≤ 2 ^ 26 := Nat.pow_le_pow_right (by omega) small
      rw [wanted] at enough
      omega
    · rintro (le | le | power)
      · omega
      · omega
      · exact not power

/-- A table of the right size has at most `2^32` buckets for these numbers only. -/
theorem smallest_le_iff {nel k : Nat} (size : 2 ^ k = buckets nel)
    (right : Smallest (buckets nel) (wanted nel))
    (condition : nel ≤ 2 ^ 31 ∨ 2 ^ 58 ≤ nel ∨ ∃ k, nel = 2 ^ k)
    : k ≤ 32 ↔ nel ≤ 2 ^ 31 ∨ nel = 2 ^ 32 := by
  obtain ⟨j, same, enough, least⟩ := right
  have power : k = j := Nat.pow_right_injective (le_refl 2) (size.trans same)
  subst power
  constructor
  · intro small
    have bound : 2 ^ k ≤ 2 ^ 32 := Nat.pow_le_pow_right (by omega) small
    rw [wanted] at enough
    rcases condition with le | le | ⟨i, rfl⟩
    · exact Or.inl le
    · omega
    · by_cases low : i ≤ 31
      · exact Or.inl (Nat.pow_le_pow_right (by omega) low)
      · by_cases high : i ≤ 32
        · exact Or.inr (by rw [show i = 32 by omega])
        · have := Nat.pow_le_pow_right (n := 2) (by omega) (show 33 ≤ i by omega)
          omega
  · intro small
    have := least 32 (by rw [wanted]; omega)
    exact (Nat.pow_le_pow_iff_right (by omega)).mp this

/-- Calls on a new table answer as the map does. Its size is right exactly for a number that is at
most `2^31`, at least `2^58` or a power of two; and with a hash of 32 bits, that reaches all of it,
for one that is at most `2^31` or is `2^32`.
-/
theorem hcreateR_proper_iff (fits : Nat → Bool) (nel : Nat) (errno : Int)
    (before head : HsearchData δ) (success : hcreateR fits nel before = (1, errno, head))
    : (∀ calls, answers hash calls head = some (mapAnswers calls fun _ => none))
      ∧ (Smallest head.size (wanted nel) ↔ nel ≤ 2 ^ 31 ∨ 2 ^ 58 ≤ nel ∨ ∃ k, nel = 2 ^ k)
      ∧ (Proper hash nel head ↔ nel ≤ 2 ^ 31 ∨ nel = 2 ^ 32) := by
  obtain ⟨size, table, room⟩ := hcreateR_success success
  have positive : 0 < head.size := by
    rw [size]
    rcases buckets_cases nel with ⟨⟨k, power, -⟩, -⟩ | sign | ⟨⟨k, -, power⟩, -⟩
    · rw [power]
      exact Nat.two_pow_pos k
    · omega
    · rw [power]
      exact Nat.two_pow_pos k
  have map := (Holds.empty hash positive table).answers
  have right := smallest_buckets_iff (size ▸ room)
  rw [size]
  refine ⟨map, right, ?_⟩
  constructor
  · intro proper
    have smallest := size ▸ proper.size
    obtain ⟨k, power, -⟩ := id smallest
    have small : k ≤ 32 := by
      refine (mask_reaches_iff k).mp ?_
      have := proper.reaches
      rwa [size, power] at this
    exact (smallest_le_iff power.symm smallest (right.mp smallest)).mp small
  · intro condition
    have wide : nel ≤ 2 ^ 31 ∨ 2 ^ 58 ≤ nel ∨ ∃ k, nel = 2 ^ k := by
      rcases condition with le | rfl
      · exact Or.inl le
      · exact Or.inr (Or.inr ⟨32, rfl⟩)
    have smallest := right.mpr wide
    obtain ⟨k, power, -⟩ := id smallest
    refine ⟨size ▸ smallest, ?_, map⟩
    rw [size, power]
    exact (mask_reaches_iff k).mpr ((smallest_le_iff power.symm smallest wide).mpr condition)

/-- A hundred entries get 128 buckets. -/
theorem hcreateR_proper_iff_hundred
    : Proper (fun _ => 0) 100 (hcreateR (fun _ => true) 100 ⟨([] : List (List (Entry Nat))), 0, 0⟩).2.2 :=
  (hcreateR_proper_iff (fun _ => true) 100 0 ⟨[], 0, 0⟩ _ rfl).2.2.mpr (by decide)

/-- One bucket is made for `2^31 + 1` entries. -/
theorem hcreateR_one_bucket
    : (hcreateR (fun _ => true) (2 ^ 31 + 1) ⟨([] : List (List (Entry Nat))), 0, 0⟩).1 = 1
      ∧ (hcreateR (fun _ => true) (2 ^ 31 + 1) ⟨([] : List (List (Entry Nat))), 0, 0⟩).2.2.size = 1
      ∧ ¬ Smallest 1 (wanted (2 ^ 31 + 1)) := by
  refine ⟨by decide +kernel, by decide +kernel, ?_⟩
  rintro ⟨k, power, enough, -⟩
  rw [← power, wanted] at enough
  omega

end BSDLibC.Hsearch
