import BSDLibC.Cdb.Writer
import Mathlib.Data.List.Nodup
import Mathlib.Data.List.Perm.Basic

/-! What the writer holds: the data in order and, spread over the buckets of its hash table,
each key once with the index it was put with.
-/

namespace BSDLibC.Cdb
open BSDLibC.Bitops BSDLibC.Bytes

variable {vectorHash : VectorHash} {cdbw : Cdbw}

/-- What every writer satisfies. -/
structure Cdbw.Ok (vectorHash : VectorHash) (cdbw : Cdbw) : Prop where
  power : ∃ bits, cdbw.hashSize = 2 ^ bits
  bucket : ∀ i, ∀ keyHash ∈ cdbw.hash i, bucketOf keyHash.hashes cdbw.hashSize = i
  hashes : ∀ keyHash ∈ cdbw.keyHashes, keyHash.hashes = vectorHash keyHash.key 0
  distinct : (cdbw.keyHashes.map KeyHash.key).Nodup
  idx : ∀ keyHash ∈ cdbw.keyHashes, keyHash.idx < cdbw.data.length
  keyCounter : cdbw.keyCounter = cdbw.keyHashes.length
  keyBound : cdbw.keyCounter ≤ maxDataCounter
  dataBound : cdbw.data.length ≤ maxDataCounter
  dataSize : cdbw.dataSize = cdbw.data.flatten.length
  dataSmall : cdbw.dataSize ≤ 0xffffffff

theorem bucketOf_lt {hashSize : Nat} (power : ∃ bits, hashSize = 2 ^ bits)
    (hashes : Fin 3 → BitVec 32)
    : bucketOf hashes hashSize < hashSize := by
  obtain ⟨bits, rfl⟩ := power
  rw [bucketOf, Nat.and_two_pow_sub_one_eq_mod]
  exact Nat.mod_lt _ (Nat.two_pow_pos bits)

/-- The entries of all buckets, bucket by bucket. -/
def entriesOf (hashSize : Nat) (table : Nat → List KeyHash) : List KeyHash :=
  (List.range hashSize).flatMap table

theorem entriesOf_succ (n : Nat) (table : Nat → List KeyHash)
    : entriesOf (n + 1) table = entriesOf n table ++ table n := by
  simp [entriesOf, List.range_succ]

/-- A new head of one bucket is one more entry of the table. -/
theorem entriesOf_insertHead {n i : Nat} (inside : i < n) (table : Nat → List KeyHash)
    (keyHash : KeyHash)
    : (entriesOf n (insertHead table i keyHash)).Perm (keyHash :: entriesOf n table) := by
  induction n with
  | zero => omega
  | succ n ih =>
      rw [entriesOf_succ, entriesOf_succ]
      rcases Nat.lt_succ_iff_lt_or_eq.mp inside with earlier | rfl
      · have same : insertHead table i keyHash n = table n := by
          simp [insertHead, Function.update_of_ne (by omega : n ≠ i)]
        rw [same, ← List.cons_append]
        exact (ih earlier).append_right _
      · have here : insertHead table i keyHash i = keyHash :: table i := by simp [insertHead]
        have rest : entriesOf i (insertHead table i keyHash) = entriesOf i table := by
          refine List.flatMap_congr ?_
          intro j member
          have : j ≠ i := Nat.ne_of_lt (List.mem_range.mp member)
          simp [insertHead, Function.update_of_ne this]
        rw [here, rest]
        exact List.perm_middle

/-- Filling a table keeps the entries, whatever buckets they go to. -/
theorem entriesOf_foldl {n : Nat} {place : KeyHash → Nat} (inside : ∀ keyHash, place keyHash < n)
    (entries : List KeyHash) (table : Nat → List KeyHash)
    : (entriesOf n (entries.foldl
          (fun table keyHash => insertHead table (place keyHash) keyHash) table)).Perm
        (entries ++ entriesOf n table) := by
  induction entries generalizing table with
  | nil => exact List.Perm.refl _
  | cons keyHash rest ih =>
      refine (ih _).trans ?_
      refine ((entriesOf_insertHead (inside keyHash) table keyHash).append_left rest).trans ?_
      exact List.perm_middle

theorem mem_insertHead {table : Nat → List KeyHash} {i j : Nat} {keyHash new : KeyHash}
    (member : keyHash ∈ insertHead table j new i)
    : keyHash ∈ table i ∨ keyHash = new ∧ j = i := by
  by_cases here : i = j
  · subst here
    simp only [insertHead, Function.update_self, List.mem_cons] at member
    exact member.symm.imp id (fun same => ⟨same, rfl⟩)
  · simp only [insertHead, Function.update_of_ne here] at member
    exact Or.inl member

theorem mem_foldl_insertHead {place : KeyHash → Nat} {entries : List KeyHash}
    {table : Nat → List KeyHash} {i : Nat} {keyHash : KeyHash}
    (member : keyHash ∈ entries.foldl
      (fun table keyHash => insertHead table (place keyHash) keyHash) table i)
    : keyHash ∈ table i ∨ place keyHash = i := by
  induction entries generalizing table with
  | nil => exact Or.inl member
  | cons new rest ih =>
      rcases ih member with inside | placed
      · rcases mem_insertHead inside with old | ⟨rfl, placed⟩
        · exact Or.inl old
        · exact Or.inr placed
      · exact Or.inr placed

theorem keyHashes_cdbwOpen : cdbwOpen.keyHashes = [] := by
  rw [Cdbw.keyHashes, List.flatMap_eq_nil_iff]
  intro i _
  rfl

theorem cdbwOpen_ok : cdbwOpen.Ok vectorHash := by
  have none := keyHashes_cdbwOpen
  refine ⟨⟨10, rfl⟩, ?_, ?_, ?_, ?_, ?_, ?_, ?_, rfl, ?_⟩
  · intro i keyHash member
    cases member
  · simp [none]
  · simp [none]
  · simp [none]
  · rw [none]
    rfl
  all_goals simp [cdbwOpen, maxDataCounter]

/-- `cdbw_put_data` appends one datum, or changes nothing but the allocated size. -/
theorem cdbwPutData_cases (alloc : Alloc) (cdbw : Cdbw) (data : List UInt8)
    : (∃ allocated, cdbwPutData alloc cdbw data = ({ cdbw with dataAllocated := allocated }, none))
      ∨ ∃ allocated,
          cdbwPutData alloc cdbw data
            = ({ cdbw with
                  dataAllocated := allocated
                  data := cdbw.data ++ [data]
                  dataSize := cdbw.dataSize + data.length },
                some cdbw.data.length)
          ∧ cdbw.data.length ≠ maxDataCounter
          ∧ cdbw.dataSize + data.length ≤ 0xffffffff := by
  unfold cdbwPutData
  split
  · exact Or.inl ⟨_, rfl⟩
  split
  · exact Or.inl ⟨_, rfl⟩
  split
  · exact Or.inl ⟨_, rfl⟩
  case isFalse count size grow =>
    simp only
    cases alloc.datum with
    | false => exact Or.inl ⟨_, rfl⟩
    | true => exact Or.inr ⟨_, rfl, count, by omega⟩

theorem Cdbw.Ok.putData (h : cdbw.Ok vectorHash) (alloc : Alloc) (data : List UInt8)
    : (cdbwPutData alloc cdbw data).1.Ok vectorHash := by
  rcases cdbwPutData_cases alloc cdbw data with ⟨allocated, run⟩ | ⟨allocated, run, count, size⟩
  · rw [run]
    exact { h with }
  · rw [run]
    refine { h with idx := ?_, dataBound := ?_, dataSize := ?_, dataSmall := size }
    · intro keyHash member
      have := h.idx keyHash member
      simp only [List.length_append, List.length_cons, List.length_nil]
      omega
    · have := h.dataBound
      simp only [List.length_append, List.length_cons, List.length_nil]
      omega
    · simp [h.dataSize]

/-- A key that is stored is found by the duplicate search. -/
theorem Cdbw.Ok.duplicate (h : cdbw.Ok vectorHash) {keyHash : KeyHash}
    (stored : keyHash ∈ cdbw.keyHashes)
    : (cdbw.hash (bucketOf (vectorHash keyHash.key 0) cdbw.hashSize)).any
        (fun other => other.same (vectorHash keyHash.key 0) keyHash.key) = true := by
  obtain ⟨i, -, member⟩ := List.mem_flatMap.mp stored
  have hashes := h.hashes keyHash stored
  have bucket := h.bucket i keyHash member
  rw [hashes] at bucket
  rw [bucket, List.any_eq_true]
  exact ⟨keyHash, member, by simp [KeyHash.same, hashes]⟩

/-- A writer that holds one more key. -/
theorem Cdbw.Ok.add {cdbw' : Cdbw} {key : List UInt8} {idx : Nat} (h : cdbw.Ok vectorHash)
    (data : cdbw'.data = cdbw.data) (size : cdbw'.dataSize = cdbw.dataSize)
    (counter : cdbw'.keyCounter = cdbw.keyCounter + 1) (room : cdbw.keyCounter ≠ maxDataCounter)
    (power : ∃ bits, cdbw'.hashSize = 2 ^ bits)
    (bucket : ∀ i, ∀ keyHash ∈ cdbw'.hash i, bucketOf keyHash.hashes cdbw'.hashSize = i)
    (entries : cdbw'.keyHashes.Perm (⟨vectorHash key 0, idx, key⟩ :: cdbw.keyHashes))
    (fresh : key ∉ cdbw.keyHashes.map KeyHash.key) (inside : idx < cdbw.data.length)
    : cdbw'.Ok vectorHash where
  power := power
  bucket := bucket
  hashes := by
    intro keyHash member
    rcases List.mem_cons.mp (entries.mem_iff.mp member) with rfl | old
    · rfl
    · exact h.hashes keyHash old
  distinct := by
    rw [(entries.map KeyHash.key).nodup_iff, List.map_cons, List.nodup_cons]
    exact ⟨fresh, h.distinct⟩
  idx := by
    intro keyHash member
    rw [data]
    rcases List.mem_cons.mp (entries.mem_iff.mp member) with rfl | old
    · exact inside
    · exact h.idx keyHash old
  keyCounter := by rw [counter, h.keyCounter, entries.length_eq, List.length_cons]
  keyBound := by
    have := h.keyBound
    omega
  dataBound := data ▸ h.dataBound
  dataSize := by rw [size, data, h.dataSize]
  dataSmall := size ▸ h.dataSmall

/-- `cdbw_put_key` changes nothing, or adds a key that was not stored yet. -/
theorem cdbwPutKey_cases (h : cdbw.Ok vectorHash) (alloc : Alloc) (key : List UInt8) (idx : Nat)
    : cdbwPutKey vectorHash alloc cdbw key idx = (cdbw, false)
      ∨ ∃ cdbw', cdbwPutKey vectorHash alloc cdbw key idx = (cdbw', true)
        ∧ cdbw'.data = cdbw.data
        ∧ cdbw'.keyHashes.Perm (⟨vectorHash key 0, idx, key⟩ :: cdbw.keyHashes)
        ∧ cdbw'.Ok vectorHash := by
  have inside := bucketOf_lt h.power (vectorHash key 0)
  unfold cdbwPutKey
  split
  · exact Or.inl rfl
  simp only
  split
  · exact Or.inl rfl
  split
  · exact Or.inl rfl
  case isFalse limit unique allocated =>
    right
    rw [not_or] at limit
    have fresh : key ∉ cdbw.keyHashes.map KeyHash.key := by
      intro stored
      obtain ⟨keyHash, member, rfl⟩ := List.mem_map.mp stored
      exact unique (h.duplicate member)
    have entries := entriesOf_insertHead inside cdbw.hash ⟨vectorHash key 0, idx, key⟩
    have bucket : ∀ i, ∀ keyHash ∈ insertHead cdbw.hash (bucketOf (vectorHash key 0) cdbw.hashSize)
        ⟨vectorHash key 0, idx, key⟩ i, bucketOf keyHash.hashes cdbw.hashSize = i := by
      intro i keyHash member
      rcases mem_insertHead member with old | ⟨rfl, placed⟩
      · exact h.bucket i keyHash old
      · exact placed
    split
    · refine ⟨_, rfl, rfl, entries, h.add rfl rfl rfl limit.2 h.power bucket entries fresh ?_⟩
      omega
    · -- The rehashed table holds the same entries.
      have doubled : ∃ bits, cdbw.hashSize * 2 = 2 ^ bits := by
        obtain ⟨bits, power⟩ := h.power
        exact ⟨bits + 1, by rw [power, Nat.pow_succ]⟩
      have moved := (entriesOf_foldl (fun keyHash => bucketOf_lt doubled keyHash.hashes)
        (entriesOf cdbw.hashSize (insertHead cdbw.hash (bucketOf (vectorHash key 0) cdbw.hashSize)
          ⟨vectorHash key 0, idx, key⟩)) (fun _ => []))
      have none : entriesOf (cdbw.hashSize * 2) (fun _ => []) = [] := by
        simp [entriesOf]
      rw [none, List.append_nil] at moved
      refine ⟨_, rfl, rfl, moved.trans entries,
        h.add rfl rfl rfl limit.2 doubled ?_ (moved.trans entries) fresh (by omega)⟩
      intro i keyHash member
      rcases mem_foldl_insertHead member with old | placed
      · cases old
      · exact placed

/-- `cdbw_put` leaves data and keys as they were, or adds one datum and one key for it. -/
theorem cdbwPut_cases (h : cdbw.Ok vectorHash) (alloc : Alloc) (key data : List UInt8)
    : (∃ cdbw', cdbwPut vectorHash alloc cdbw key data = (cdbw', false)
        ∧ cdbw'.data = cdbw.data
        ∧ cdbw'.keyHashes = cdbw.keyHashes
        ∧ cdbw'.Ok vectorHash)
      ∨ ∃ cdbw', cdbwPut vectorHash alloc cdbw key data = (cdbw', true)
        ∧ cdbw'.data = cdbw.data ++ [data]
        ∧ cdbw'.keyHashes.Perm (⟨vectorHash key 0, cdbw.data.length, key⟩ :: cdbw.keyHashes)
        ∧ cdbw'.Ok vectorHash := by
  have ok := h.putData alloc data
  rcases cdbwPutData_cases alloc cdbw data with ⟨allocated, run⟩ | ⟨allocated, run, -, -⟩
  · refine Or.inl ⟨{ cdbw with dataAllocated := allocated }, ?_, rfl, rfl, { h with }⟩
    simp [cdbwPut, run]
  · rw [run] at ok
    rcases cdbwPutKey_cases ok alloc key cdbw.data.length with failed | ⟨cdbw', added, same, entries, ok'⟩
    · refine Or.inl ⟨{ cdbw with dataAllocated := allocated }, ?_, rfl, rfl, { h with }⟩
      simp [cdbwPut, run, failed]
    · exact Or.inr ⟨cdbw', by simp [cdbwPut, run, added], same, entries, ok'⟩

inductive WriterCall
  | put (alloc : Alloc) (key data : List UInt8)
  | putData (alloc : Alloc) (data : List UInt8)
  | putKey (alloc : Alloc) (key : List UInt8) (idx : Nat)

/-- The writer after a call, whether or not the call succeeds. -/
def WriterCall.apply (vectorHash : VectorHash) (cdbw : Cdbw) : WriterCall → Cdbw
  | .put alloc key data => (cdbwPut vectorHash alloc cdbw key data).1
  | .putData alloc data => (cdbwPutData alloc cdbw data).1
  | .putKey alloc key idx => (cdbwPutKey vectorHash alloc cdbw key idx).1

/-- The writer after any calls since `cdbw_open`. -/
def writerAfter (vectorHash : VectorHash) (calls : List WriterCall) : Cdbw :=
  calls.foldl (WriterCall.apply vectorHash) cdbwOpen

theorem Cdbw.Ok.apply (h : cdbw.Ok vectorHash) (call : WriterCall)
    : (call.apply vectorHash cdbw).Ok vectorHash := by
  cases call with
  | put alloc key data =>
      rcases cdbwPut_cases h alloc key data with ⟨cdbw', run, -, -, ok⟩ | ⟨cdbw', run, -, -, ok⟩
      · simpa [WriterCall.apply, run] using ok
      · simpa [WriterCall.apply, run] using ok
  | putData alloc data => exact h.putData alloc data
  | putKey alloc key idx =>
      rcases cdbwPutKey_cases h alloc key idx with run | ⟨cdbw', run, -, -, ok⟩
      · simpa [WriterCall.apply, run] using h
      · simpa [WriterCall.apply, run] using ok

theorem writerAfter_ok (vectorHash : VectorHash) (calls : List WriterCall)
    : (writerAfter vectorHash calls).Ok vectorHash := by
  have run : ∀ cdbw : Cdbw, cdbw.Ok vectorHash
      → (calls.foldl (WriterCall.apply vectorHash) cdbw).Ok vectorHash := by
    induction calls with
    | nil => exact fun _ h => h
    | cons call rest ih => exact fun cdbw h => ih _ (h.apply call)
  exact run _ cdbwOpen_ok

theorem writerAfter_snoc (vectorHash : VectorHash) (calls : List WriterCall) (call : WriterCall)
    : writerAfter vectorHash (calls ++ [call])
      = call.apply vectorHash (writerAfter vectorHash calls) := by
  simp [writerAfter]

/-- One `cdbw_put`. -/
structure Put where
  alloc : Alloc
  key : List UInt8
  data : List UInt8

/-- The writer after a sequence of `cdbw_put` calls that all return 0. -/
def runPuts (vectorHash : VectorHash) : Cdbw → List Put → Option Cdbw
  | cdbw, [] => some cdbw
  | cdbw, put :: rest =>
      match cdbwPut vectorHash put.alloc cdbw put.key put.data with
      | (cdbw', true) => runPuts vectorHash cdbw' rest
      | (_, false) => none

/-- The writer holds the key with an index. -/
def Cdbw.Stores (cdbw : Cdbw) (key : List UInt8) (idx : Nat) : Prop :=
  ∃ keyHash ∈ cdbw.keyHashes, keyHash.key = key ∧ keyHash.idx = idx

/-- Successful puts append their data and store their keys with consecutive indices. -/
theorem runPuts_spec {puts : List Put} {cdbw' : Cdbw} (h : cdbw.Ok vectorHash)
    (run : runPuts vectorHash cdbw puts = some cdbw')
    : cdbw'.Ok vectorHash
      ∧ cdbw'.data = cdbw.data ++ puts.map Put.data
      ∧ cdbw'.keyHashes.length = cdbw.keyHashes.length + puts.length
      ∧ (∀ key idx, cdbw.Stores key idx → cdbw'.Stores key idx)
      ∧ ∀ i put, puts[i]? = some put → cdbw'.Stores put.key (cdbw.data.length + i) := by
  induction puts generalizing cdbw with
  | nil =>
      obtain rfl : cdbw = cdbw' := by simpa [runPuts] using run
      exact ⟨h, by simp, by simp, fun _ _ stored => stored, by simp⟩
  | cons put rest ih =>
      rcases cdbwPut_cases h put.alloc put.key put.data with
        ⟨cdbw₁, failed, -⟩ | ⟨cdbw₁, added, data₁, entries₁, ok₁⟩
      · simp [runPuts, failed] at run
      · simp only [runPuts, added] at run
        obtain ⟨ok', data', count', kept, stored⟩ := ih ok₁ run
        have old : ∀ key idx, cdbw.Stores key idx → cdbw₁.Stores key idx := by
          rintro key idx ⟨keyHash, member, same⟩
          exact ⟨keyHash, entries₁.mem_iff.mpr (List.mem_cons_of_mem _ member), same⟩
        refine ⟨ok', by simp [data', data₁], ?_, fun key idx held => kept key idx (old key idx held),
          ?_⟩
        · rw [count', entries₁.length_eq, List.length_cons, List.length_cons]
          omega
        · intro i put' found
          cases i with
          | zero =>
              obtain rfl : put = put' := by simpa using found
              refine kept _ _ ⟨_, entries₁.mem_iff.mpr (List.mem_cons_self), rfl, rfl⟩
          | succ i =>
              have next := stored i put' (by simpa using found)
              rw [data₁, List.length_append, List.length_singleton] at next
              rwa [show cdbw.data.length + (i + 1) = cdbw.data.length + 1 + i by omega]

-----------------------------------------------------------------------------------------
-- Calls that succeed
-----------------------------------------------------------------------------------------

def Alloc.all : Alloc := ⟨true, true, true, true, true, true⟩

theorem cdbwPutData_success {data : List UInt8} (count : cdbw.data.length < maxDataCounter)
    (size : cdbw.dataSize + data.length ≤ 0xffffffff)
    : ∃ allocated,
        cdbwPutData Alloc.all cdbw data
          = ({ cdbw with
                dataAllocated := allocated
                data := cdbw.data ++ [data]
                dataSize := cdbw.dataSize + data.length },
              some cdbw.data.length) := by
  rw [cdbwPutData, if_neg (by omega), if_neg (by omega), if_neg (by simp [Alloc.all])]
  exact ⟨_, rfl⟩

/-- A key that is not stored yet is added. -/
theorem cdbwPutKey_success (h : cdbw.Ok vectorHash) {key : List UInt8} {idx : Nat}
    (inside : idx < cdbw.data.length) (room : cdbw.keyCounter < maxDataCounter)
    (fresh : key ∉ cdbw.keyHashes.map KeyHash.key)
    : ∃ cdbw', cdbwPutKey vectorHash Alloc.all cdbw key idx = (cdbw', true)
      ∧ cdbw'.data = cdbw.data
      ∧ cdbw'.keyHashes.Perm (⟨vectorHash key 0, idx, key⟩ :: cdbw.keyHashes)
      ∧ cdbw'.Ok vectorHash := by
  rcases cdbwPutKey_cases h Alloc.all key idx with failed | added
  · have unique : (cdbw.hash (bucketOf (vectorHash key 0) cdbw.hashSize)).any
        (fun keyHash => keyHash.same (vectorHash key 0) key) = false := by
      rw [← Bool.not_eq_true, List.any_eq_true]
      rintro ⟨keyHash, member, same⟩
      have stored : keyHash ∈ cdbw.keyHashes := List.mem_flatMap.mpr
        ⟨_, List.mem_range.mpr (bucketOf_lt h.power _), member⟩
      refine fresh (List.mem_map.mpr ⟨keyHash, stored, ?_⟩)
      simp only [KeyHash.same, Bool.and_eq_true, decide_eq_true_eq] at same
      exact same.2.symm
    rw [cdbwPutKey, if_neg (by omega)] at failed
    simp only [unique, Alloc.all, Bool.false_eq_true, and_self, not_true_eq_false, if_false,
      or_false] at failed
    split at failed
    · simp at failed
    · simp at failed
  · exact added

theorem cdbwPut_success (h : cdbw.Ok vectorHash) (key data : List UInt8)
    (count : cdbw.data.length < maxDataCounter) (size : cdbw.dataSize + data.length ≤ 0xffffffff)
    (room : cdbw.keyCounter < maxDataCounter) (fresh : key ∉ cdbw.keyHashes.map KeyHash.key)
    : ∃ cdbw', cdbwPut vectorHash Alloc.all cdbw key data = (cdbw', true)
      ∧ cdbw'.data = cdbw.data ++ [data]
      ∧ cdbw'.keyHashes.Perm (⟨vectorHash key 0, cdbw.data.length, key⟩ :: cdbw.keyHashes)
      ∧ cdbw'.Ok vectorHash := by
  obtain ⟨allocated, run⟩ := cdbwPutData_success count size
  have ok := h.putData Alloc.all data
  rw [run] at ok
  obtain ⟨cdbw', added, same, entries, ok'⟩ := cdbwPutKey_success ok
    (by simp : cdbw.data.length < (cdbw.data ++ [data]).length) room fresh
  exact ⟨cdbw', by simp [cdbwPut, run, added], same, entries, ok'⟩

/-- Puts of new keys succeed as long as the limits of the format are kept. -/
theorem runPuts_success (puts : List Put) (h : cdbw.Ok vectorHash)
    (allocs : ∀ put ∈ puts, put.alloc = Alloc.all)
    (count : cdbw.data.length + puts.length ≤ maxDataCounter)
    (size : cdbw.dataSize + (puts.map Put.data).flatten.length ≤ 0xffffffff)
    (room : cdbw.keyCounter + puts.length ≤ maxDataCounter)
    (unique : (puts.map Put.key).Nodup)
    (fresh : ∀ put ∈ puts, put.key ∉ cdbw.keyHashes.map KeyHash.key)
    : ∃ cdbw', runPuts vectorHash cdbw puts = some cdbw'
      ∧ ∀ keyHash ∈ cdbw'.keyHashes,
          keyHash ∈ cdbw.keyHashes ∨ ∃ put ∈ puts, keyHash.key = put.key := by
  induction puts generalizing cdbw with
  | nil => exact ⟨cdbw, rfl, fun keyHash member => Or.inl member⟩
  | cons put rest ih =>
      simp only [List.map_cons, List.flatten_cons, List.length_append, List.length_cons,
        List.nodup_cons, List.forall_mem_cons] at *
      obtain ⟨cdbw₁, run, data₁, entries₁, ok₁⟩ :=
        cdbwPut_success h put.key put.data (by omega) (by omega) (by omega) fresh.1
      have size₁ : cdbw₁.dataSize = cdbw.dataSize + put.data.length := by
        rw [ok₁.dataSize, data₁, h.dataSize, List.flatten_append, List.flatten_singleton,
          List.length_append]
      have keys₁ : cdbw₁.keyCounter = cdbw.keyCounter + 1 := by
        rw [ok₁.keyCounter, entries₁.length_eq, List.length_cons, h.keyCounter]
      have length₁ : cdbw₁.data.length = cdbw.data.length + 1 := by
        rw [data₁, List.length_append, List.length_singleton]
      obtain ⟨cdbw', run', keys'⟩ := ih ok₁ allocs.2 (by omega) (by omega) (by omega) unique.2 (by
        intro other member stored
        rw [(entries₁.map KeyHash.key).mem_iff, List.map_cons, List.mem_cons] at stored
        rcases stored with same | old
        · exact unique.1 (List.mem_map.mpr ⟨other, member, same⟩)
        · exact fresh.2 other member old)
      refine ⟨cdbw', by simp [runPuts, allocs.1, run, run'], ?_⟩
      intro keyHash member
      rcases keys' keyHash member with held | ⟨other, later, same⟩
      · rcases List.mem_cons.mp (entries₁.mem_iff.mp held) with rfl | old
        · exact Or.inr ⟨put, List.mem_cons_self, rfl⟩
        · exact Or.inl old
      · exact Or.inr ⟨other, List.mem_cons_of_mem _ later, same⟩

end BSDLibC.Cdb
