import BSDLibC.Cdb.Format

/-! Which reads the reader makes of a file it accepted. The one check of `cdbr_open_mem` is on
the end of the data, behind two tables whose sizes are 32-bit products; what the lookups read
can be longer than that product.
-/

namespace BSDLibC.Cdb
open BSDLibC.Bitops BSDLibC.Bytes

variable {vectorHash : VectorHash} {map : Mapping} {cdbr : Cdbr} {junk : Magic}

/-- A call makes no read outside the mapping and returns no range that leaves it. -/
def Inside (map : Mapping) (result : Option (Option (Nat × Nat))) : Prop :=
  ∃ answer, result = some answer
    ∧ ∀ addr length, answer = some (addr, length)
      → map.base ≤ addr ∧ addr + length ≤ map.base + map.bytes.length

def StaysInside (vectorHash : VectorHash) (map : Mapping) (cdbr : Cdbr) : Prop :=
  (∀ key, Inside map (cdbrFind vectorHash map cdbr key))
    ∧ ∀ idx, Inside map (cdbrGet map cdbr idx)

/-- Where the offset table starts in the file, as the reader computes it. -/
def offsetStart (map : Mapping) : Nat :=
  let table := map.header32 32 * computeSize (map.header32 32) % 2 ^ 32
  40 + table + paddingOf table (computeSize (map.header32 24))

/-- The tables lie inside the file, as far as 32-bit products lead into them. -/
def TablesInside (map : Mapping) : Prop :=
  (map.header32 32 = 0
    ∨ 40 + min (map.header32 32 * computeSize (map.header32 32)) (2 ^ 32) ≤ map.bytes.length)
  ∧ (map.header32 28 = 0
    ∨ offsetStart map + min ((map.header32 28 + 1) * computeSize (map.header32 24)) (2 ^ 32)
      ≤ map.bytes.length)

theorem header32_lt (map : Mapping) (offset : Nat) : map.header32 offset < 2 ^ 32 := by
  have bound := leValue_lt ((map.bytes.drop offset).take 4)
  have length : ((map.bytes.drop offset).take 4).length ≤ 4 := by
    rw [List.length_take]
    omega
  calc
    map.header32 offset < 256 ^ ((map.bytes.drop offset).take 4).length := bound
    _ ≤ 256 ^ 4 := Nat.pow_le_pow_right (by decide) length

/-- What `cdbr_open_mem` has checked. No pointer of an accepted file wrapped around. -/
structure Accepted (junk : Magic) (map : Mapping) (cdbr : Cdbr) : Prop where
  hashBase : cdbr.hashBase = map.base + 40
  offsetBase : cdbr.offsetBase = map.base + offsetStart map
  dataBase : cdbr.offsetBase ≤ cdbr.dataBase
  dataEnd : cdbr.dataBase + cdbr.dataSize ≤ map.base + map.bytes.length
  entries : cdbr.entries = map.header32 28
  entriesIndex : cdbr.entriesIndex = map.header32 32
  offsetSize : cdbr.offsetSize = computeSize (map.header32 24)
  indexSize : cdbr.indexSize = computeSize (map.header32 32)
  entriesMagic : cdbr.entries ≠ 0 → cdbr.entriesMagic = fastDivide32Prepare cdbr.entries
  entriesIndexMagic :
    cdbr.entriesIndex ≠ 0 → cdbr.entriesIndexMagic = fastDivide32Prepare cdbr.entriesIndex

theorem cdbrOpenMem_accepted (h : cdbrOpenMem junk map = some cdbr) : Accepted junk map cdbr := by
  have fits := map.fits
  have dataSize := header32_lt map 24
  have width := computeSize_cases (map.header32 24)
  have tableLt : map.header32 32 * computeSize (map.header32 32) % 2 ^ 32 < 2 ^ 32 :=
    Nat.mod_lt _ (by decide)
  have start : offsetStart map ≤ 2 ^ 32 + 44 := by
    simp only [offsetStart, paddingOf]
    split <;> omega
  have offsetsLt : (map.header32 28 + 1) % 2 ^ 32 * computeSize (map.header32 24) % 2 ^ 32 < 2 ^ 32 :=
    Nat.mod_lt _ (by decide)
  rw [cdbrOpenMem] at h
  split at h
  · cases h
  case isFalse long =>
    simp only [offsetBase_eq] at h
    have unfold : 40 + map.header32 32 * computeSize (map.header32 32) % 2 ^ 32
        + paddingOf (map.header32 32 * computeSize (map.header32 32) % 2 ^ 32)
          (computeSize (map.header32 24)) = offsetStart map := rfl
    rw [unfold] at h
    split at h
    · cases h
    case isFalse checks =>
      obtain rfl := Option.some.inj h
      simp only [ptrAdd] at checks
      refine ⟨?_, ?_, ?_, ?_, rfl, rfl, rfl, rfl, fun nonzero => if_pos nonzero,
        fun nonzero => if_pos nonzero⟩
      all_goals simp only [ptrAdd]
      all_goals omega

/-- A table read stays inside exactly if the field at the wrapped position does. -/
theorem getUintX_isSome {k i size : Nat} (near : k + 2 ^ 32 + size ≤ 2 ^ 34)
    : (∃ value, getUintX map (map.base + k) i size = some value)
      ↔ k + i * size % 2 ^ 32 + size ≤ map.bytes.length := by
  have fits := map.fits
  have position : i * size % 2 ^ 32 < 2 ^ 32 := Nat.mod_lt _ (by decide)
  rw [getUintX, Mapping.read]
  split
  case isTrue inside =>
    refine ⟨fun _ => ?_, fun _ => ⟨_, rfl⟩⟩
    simp only [ptrAdd] at inside
    omega
  case isFalse outside =>
    constructor
    · rintro ⟨value, read⟩
      cases read
    · intro bound
      refine absurd ?_ outside
      simp only [ptrAdd]
      omega

/-- The positions of `n` fields of a table, as far as 32-bit products tell them apart. -/
theorem position_le {v n width : Nat} (power : width = 1 ∨ width = 2 ∨ width = 4) (inside : v < n)
    : v * width % 2 ^ 32 + width ≤ min (n * width) (2 ^ 32) := by
  rcases power with rfl | rfl | rfl <;> omega

/-- The last of these positions is reached. -/
theorem exists_position {n width : Nat} (power : width = 1 ∨ width = 2 ∨ width = 4) (some : 0 < n)
    : ∃ v < n, v * width % 2 ^ 32 + width = min (n * width) (2 ^ 32) := by
  rcases Nat.lt_or_ge (n * width) (2 ^ 32) with fits | large
  · refine ⟨n - 1, ?_, ?_⟩
    · omega
    · rcases power with rfl | rfl | rfl <;> omega
  · rcases power with rfl | rfl | rfl
    · exact ⟨2 ^ 32 - 1, by omega, by omega⟩
    · exact ⟨2 ^ 31 - 1, by omega, by omega⟩
    · exact ⟨2 ^ 30 - 1, by omega, by omega⟩

theorem computeSize_power (size : Nat)
    : computeSize size = 1 ∨ computeSize size = 2 ∨ computeSize size = 4 := by
  have := computeSize_cases size
  omega

theorem offsetStart_le (map : Mapping) : offsetStart map ≤ 2 ^ 32 + 44 := by
  have width := computeSize_le (map.header32 24)
  have table : map.header32 32 * computeSize (map.header32 32) % 2 ^ 32 < 2 ^ 32 :=
    Nat.mod_lt _ (by decide)
  simp only [offsetStart, paddingOf]
  split <;> omega

/-- The range of a successful `cdbr_get` is inside, whatever the offset table holds. -/
theorem Accepted.range (h : Accepted junk map cdbr) {idx addr length : Nat}
    (found : cdbrGet map cdbr idx = some (some (addr, length)))
    : map.base ≤ addr ∧ addr + length ≤ map.base + map.bytes.length := by
  obtain ⟨start, rfl, bound⟩ := cdbrGet_some found
  have fits := map.fits
  have offsetBase := h.offsetBase
  have dataBase := h.dataBase
  have dataEnd := h.dataEnd
  rw [ptrAdd, Nat.mod_eq_of_lt (by omega)]
  omega

theorem Accepted.get_inside (h : Accepted junk map cdbr) (tables : TablesInside map) (idx : Nat)
    : Inside map (cdbrGet map cdbr idx) := by
  have start := offsetStart_le map
  have width := computeSize_le (map.header32 24)
  have small := header32_lt map 28
  by_cases inside : idx < cdbr.entries
  · have entries := h.entries
    have bound := tables.2.resolve_left (by omega)
    have read {i : Nat} (below : i < map.header32 28 + 1)
        : ∃ value, getUintX map cdbr.offsetBase i cdbr.offsetSize = some value := by
      rw [h.offsetBase, h.offsetSize, getUintX_isSome (by omega)]
      have := position_le (computeSize_power (map.header32 24)) below
      omega
    obtain ⟨first, readFirst⟩ := read (by omega : idx < _)
    obtain ⟨second, readSecond⟩ := read (by omega : idx + 1 < _)
    have wraps : (idx + 1) % 2 ^ 32 = idx + 1 := Nat.mod_eq_of_lt (by omega)
    have get := cdbrGet_eq inside readFirst (by rwa [wraps])
    exact ⟨_, get, fun addr length answer => h.range (answer ▸ get)⟩
  · refine ⟨none, ?_, by simp⟩
    rw [cdbrGet, if_pos (by omega)]

theorem Accepted.find_inside (h : Accepted junk map cdbr) (tables : TablesInside map)
    (vectorHash : VectorHash) (key : List UInt8)
    : Inside map (cdbrFind vectorHash map cdbr key) := by
  have width := computeSize_le (map.header32 32)
  have small := header32_lt map 32
  have entriesIndex := h.entriesIndex
  by_cases none : cdbr.entriesIndex = 0
  · exact ⟨.none, by rw [cdbrFind, if_pos none], by simp⟩
  · have bound := tables.1.resolve_left (by omega)
    have read (j : Fin 3) : ∃ value, getUintX map cdbr.hashBase
        (fastRemainder32 (vectorHash key cdbr.seed j).toNat cdbr.entriesIndex
          cdbr.entriesIndexMagic) cdbr.indexSize = some value := by
      rw [h.entriesIndexMagic none, fastRemainder32_eq (by omega) (by omega) (BitVec.isLt _),
        h.hashBase, h.indexSize, getUintX_isSome (by omega), entriesIndex]
      have := position_le (computeSize_power (map.header32 32))
        (Nat.mod_lt (vectorHash key cdbr.seed j).toNat (by omega : 0 < map.header32 32))
      omega
    obtain ⟨i0, read0⟩ := read 0
    obtain ⟨i1, read1⟩ := read 1
    obtain ⟨i2, read2⟩ := read 2
    rw [cdbrFind, if_neg none]
    simp only [read0, read1, read2, Option.bind_eq_bind, Option.bind_some]
    exact h.get_inside tables _

/-- Lookups in an accepted file stay inside it, whatever the hash of a key, exactly if both
tables do as far as 32-bit products lead into them.
-/
theorem staysInside_iff (accepted : cdbrOpenMem junk map = some cdbr)
    : (∀ vectorHash, StaysInside vectorHash map cdbr) ↔ TablesInside map := by
  have h := cdbrOpenMem_accepted accepted
  have start := offsetStart_le map
  have offsetWidth := computeSize_le (map.header32 24)
  have indexWidth := computeSize_le (map.header32 32)
  have entriesSmall := header32_lt map 28
  have indexSmall := header32_lt map 32
  have entries := h.entries
  have entriesIndex := h.entriesIndex
  constructor
  · intro inside
    refine ⟨?_, ?_⟩
    · -- A hash that leads to the last field of the index table.
      by_cases none : map.header32 32 = 0
      · exact Or.inl none
      right
      obtain ⟨v, below, last⟩ := exists_position (computeSize_power (map.header32 32))
        (by omega : 0 < map.header32 32)
      obtain ⟨answer, find, -⟩ := (inside (fun _ _ _ => BitVec.ofNat 32 v)).1 []
      rw [cdbrFind, if_neg (by omega)] at find
      simp only [Option.bind_eq_bind, Option.bind_eq_some_iff] at find
      obtain ⟨first, read, -⟩ := find
      rw [h.entriesIndexMagic (by omega), BitVec.toNat_ofNat,
        Nat.mod_eq_of_lt (by omega : v < 2 ^ 32),
        fastRemainder32_eq (by omega) (by omega) (by omega), entriesIndex, Nat.mod_eq_of_lt below,
        h.hashBase, h.indexSize] at read
      have field := (getUintX_isSome (by omega)).mp ⟨first, read⟩
      omega
    · by_cases none : map.header32 28 = 0
      · exact Or.inl none
      right
      obtain ⟨v, below, last⟩ := exists_position (computeSize_power (map.header32 24))
        (by omega : 0 < map.header32 28 + 1)
      obtain ⟨idx, rfl⟩ : ∃ idx, v = idx + 1 := by
        refine Nat.exists_eq_succ_of_ne_zero ?_
        rintro rfl
        have := computeSize_power (map.header32 24)
        have := Nat.mul_le_mul_right (computeSize (map.header32 24))
          (by omega : 2 ≤ map.header32 28 + 1)
        omega
      obtain ⟨answer, get, -⟩ := (inside (fun _ _ _ => 0)).2 idx
      rw [cdbrGet, if_neg (by omega)] at get
      simp only [Option.bind_eq_bind, Option.bind_eq_some_iff] at get
      obtain ⟨first, -, second, read, -⟩ := get
      rw [Nat.mod_eq_of_lt (by omega : idx + 1 < 2 ^ 32), h.offsetBase, h.offsetSize] at read
      have field := (getUintX_isSome (by omega)).mp ⟨second, read⟩
      omega
  · intro tables vectorHash
    exact ⟨h.find_inside tables vectorHash, h.get_inside tables⟩

/-- A file with nothing but a header of the given data size and numbers of entries and index
entries, followed by `rest`.
-/
def fileWith (dataSize entries entriesIndex : Nat) (rest : List UInt8)
    (short : rest.length ≤ 1000)
    : Mapping where
  base := 0x10000
  bytes := [0x4e, 0x42, 0x43, 0x44, 0x42, 0x0a, 0, 1] ++ List.replicate 16 0
    ++ leBytes 4 dataSize ++ leBytes 4 entries ++ leBytes 4 entriesIndex ++ leBytes 4 0 ++ rest
  fits := by
    simp only [List.length_append, List.length_cons, List.length_nil, List.length_replicate,
      length_leBytes]
    omega

/-- The smallest database without keys: one empty datum. -/
theorem staysInside_one_datum
    : ∃ cdbr, cdbrOpenMem ⟨0, 0, 0⟩ (fileWith 0 1 0 [0, 0] (by decide)) = some cdbr
      ∧ ∀ vectorHash, StaysInside vectorHash (fileWith 0 1 0 [0, 0] (by decide)) cdbr :=
  ⟨_, rfl, (staysInside_iff rfl).mpr ⟨Or.inl rfl, Or.inr (by decide)⟩⟩

/-- A header of `2 ^ 32 - 1` entries is accepted without any table behind it, and looking up the
first of them reads past the file.
-/
theorem header_alone_not_inside
    : ∃ cdbr, cdbrOpenMem ⟨0, 0, 0⟩ (fileWith 0 0xffffffff 0 [] (by decide)) = some cdbr
      ∧ cdbrGet (fileWith 0 0xffffffff 0 [] (by decide)) cdbr 0 = none
      ∧ ∀ vectorHash, ¬ StaysInside vectorHash (fileWith 0 0xffffffff 0 [] (by decide)) cdbr := by
  refine ⟨_, rfl, rfl, ?_⟩
  rintro vectorHash ⟨-, inside⟩
  obtain ⟨answer, get, -⟩ := inside 0
  cases get

end BSDLibC.Cdb
