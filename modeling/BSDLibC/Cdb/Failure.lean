import BSDLibC.Cdb.Keys

/-! A call that returns -1 leaves the database as it was. What it may change is how much room the
arrays of the data have, and no later call and no output depends on that, except in which
allocations are made.
-/

namespace BSDLibC.Cdb
open BSDLibC.Bitops BSDLibC.Bytes

variable {vectorHash : VectorHash}

/-- The same data and keys in the same index, whatever room is allocated. -/
structure Cdbw.SameDatabase (a b : Cdbw) : Prop where
  data : a.data = b.data
  dataSize : a.dataSize = b.dataSize
  hashSize : a.hashSize = b.hashSize
  hash : a.hash = b.hash
  keyCounter : a.keyCounter = b.keyCounter

theorem Cdbw.sameDatabase_iff {a b : Cdbw}
    : a.SameDatabase b ↔ ∃ allocated, b = { a with dataAllocated := allocated } := by
  constructor
  · rintro ⟨data, dataSize, hashSize, hash, keyCounter⟩
    refine ⟨b.dataAllocated, ?_⟩
    cases a
    cases b
    simp_all
  · rintro ⟨allocated, rfl⟩
    exact ⟨rfl, rfl, rfl, rfl, rfl⟩

theorem Cdbw.SameDatabase.refl (cdbw : Cdbw) : cdbw.SameDatabase cdbw :=
  ⟨rfl, rfl, rfl, rfl, rfl⟩

theorem Cdbw.SameDatabase.symm {a b : Cdbw} (same : a.SameDatabase b) : b.SameDatabase a :=
  ⟨same.data.symm, same.dataSize.symm, same.hashSize.symm, same.hash.symm, same.keyCounter.symm⟩

/-- What a call returns: nothing for -1, and for `cdbw_put_data` the index it stores. -/
def WriterCall.result (vectorHash : VectorHash) (cdbw : Cdbw) : WriterCall → Option Nat
  | .put alloc key data => if (cdbwPut vectorHash alloc cdbw key data).2 then some 0 else none
  | .putData alloc data => (cdbwPutData alloc cdbw data).2
  | .putKey alloc key idx => if (cdbwPutKey vectorHash alloc cdbw key idx).2 then some 0 else none

/-- What the calls of a sequence return. -/
def resultsFrom (vectorHash : VectorHash) : Cdbw → List WriterCall → List (Option Nat)
  | _, [] => []
  | cdbw, call :: rest =>
      call.result vectorHash cdbw :: resultsFrom vectorHash (call.apply vectorHash cdbw) rest

/-- The same function with the same arguments; the allocations may go differently. -/
inductive WriterCall.SameArguments : WriterCall → WriterCall → Prop
  | put (alloc alloc' : Alloc) (key data : List UInt8)
      : SameArguments (.put alloc key data) (.put alloc' key data)
  | putData (alloc alloc' : Alloc) (data : List UInt8)
      : SameArguments (.putData alloc data) (.putData alloc' data)
  | putKey (alloc alloc' : Alloc) (key : List UInt8) (idx : Nat)
      : SameArguments (.putKey alloc key idx) (.putKey alloc' key idx)

/-- The two arrays of the data can grow whenever the call needs it. -/
def Alloc.Grows (alloc : Alloc) : Prop := alloc.dataPtr = true ∧ alloc.dataLen = true

def WriterCall.Grows : WriterCall → Prop
  | .put alloc _ _ => alloc.Grows
  | .putData alloc _ => alloc.Grows
  | .putKey .. => True

/-- `b` cannot be told from `a` by `cdbw_output` or by later calls. Whatever sequence of calls is
made on `a`, one with the same arguments returns the same on `b`, and it is the very same
sequence unless an array fails to grow.
-/
structure Cdbw.Mimics (vectorHash : VectorHash) (a b : Cdbw) : Prop where
  output : ∀ descr scratch seed,
    cdbwOutput vectorHash b descr scratch seed = cdbwOutput vectorHash a descr scratch seed
  later : ∀ calls : List WriterCall, ∃ calls',
    List.Forall₂ WriterCall.SameArguments calls calls'
    ∧ resultsFrom vectorHash b calls' = resultsFrom vectorHash a calls
    ∧ (calls.foldl (WriterCall.apply vectorHash) a).SameDatabase
        (calls'.foldl (WriterCall.apply vectorHash) b)
    ∧ ((∀ call ∈ calls, call.Grows) → calls' = calls)

-----------------------------------------------------------------------------------------
-- Failed calls
-----------------------------------------------------------------------------------------

/-- `cdbw_put_key` does not look at the allocated size of the arrays. -/
theorem cdbwPutKey_allocated (alloc : Alloc) (cdbw : Cdbw) (key : List UInt8) (idx n : Nat)
    : cdbwPutKey vectorHash alloc { cdbw with dataAllocated := n } key idx
      = ({ (cdbwPutKey vectorHash alloc cdbw key idx).1 with dataAllocated := n },
          (cdbwPutKey vectorHash alloc cdbw key idx).2) := by
  simp only [cdbwPutKey]
  split
  · rfl
  split
  · rfl
  split
  · rfl
  split
  · rfl
  · rfl

theorem cdbwPutKey_failed {cdbw : Cdbw} (h : cdbw.Ok vectorHash) {alloc : Alloc}
    {key : List UInt8} {idx : Nat} (failed : (cdbwPutKey vectorHash alloc cdbw key idx).2 = false)
    : cdbwPutKey vectorHash alloc cdbw key idx = (cdbw, false) := by
  rcases cdbwPutKey_cases h alloc key idx with run | ⟨cdbw', run, -⟩
  · exact run
  · rw [run] at failed
    cases failed

theorem cdbwPutData_failed {cdbw : Cdbw} {alloc : Alloc} {data : List UInt8}
    (failed : (cdbwPutData alloc cdbw data).2 = none)
    : cdbw.SameDatabase (cdbwPutData alloc cdbw data).1 := by
  rcases cdbwPutData_cases alloc cdbw data with ⟨allocated, run⟩ | ⟨allocated, run, -⟩
  · rw [run]
    exact ⟨rfl, rfl, rfl, rfl, rfl⟩
  · rw [run] at failed
    cases failed

/-- When the key is refused, the datum that was already appended is taken back. -/
theorem cdbwPut_failed {cdbw : Cdbw} (h : cdbw.Ok vectorHash) {alloc : Alloc}
    {key data : List UInt8} (failed : (cdbwPut vectorHash alloc cdbw key data).2 = false)
    : cdbw.SameDatabase (cdbwPut vectorHash alloc cdbw key data).1 := by
  have ok := h.putData alloc data
  rcases cdbwPutData_cases alloc cdbw data with ⟨allocated, run⟩ | ⟨allocated, run, -⟩
  · rw [cdbwPut, run]
    exact ⟨rfl, rfl, rfl, rfl, rfl⟩
  · rw [run] at ok
    simp only [cdbwPut, run] at failed ⊢
    rcases cdbwPutKey_cases ok alloc key cdbw.data.length with refused | ⟨cdbw', added, -⟩
    · rw [refused]
      exact ⟨by simp, by simp, rfl, rfl, rfl⟩
    · rw [added] at failed
      cases failed

theorem WriterCall.failed {cdbw : Cdbw} (h : cdbw.Ok vectorHash) {call : WriterCall}
    (failed : call.result vectorHash cdbw = none)
    : cdbw.SameDatabase (call.apply vectorHash cdbw) := by
  cases call with
  | put alloc key data =>
      refine cdbwPut_failed h ?_
      simpa [WriterCall.result] using failed
  | putData alloc data => exact cdbwPutData_failed failed
  | putKey alloc key idx =>
      have run := cdbwPutKey_failed h (by simpa [WriterCall.result] using failed)
      rw [WriterCall.apply, run]
      exact Cdbw.SameDatabase.refl cdbw

-----------------------------------------------------------------------------------------
-- Later calls
-----------------------------------------------------------------------------------------

/-- The allocations for a key go the same way. -/
def Alloc.SameKey (alloc alloc' : Alloc) : Prop :=
  alloc'.keyHash = alloc.keyHash ∧ alloc'.key = alloc.key ∧ alloc'.table = alloc.table

/-- Where the arrays of `a` fail to grow, the datum of `b` cannot be allocated instead. -/
theorem cdbwPutData_mimics {a b : Cdbw} (same : a.SameDatabase b) (alloc : Alloc)
    (data : List UInt8)
    : ∃ alloc', alloc.SameKey alloc'
      ∧ (alloc.Grows → alloc' = alloc)
      ∧ (cdbwPutData alloc' b data).2 = (cdbwPutData alloc a data).2
      ∧ (cdbwPutData alloc a data).1.SameDatabase (cdbwPutData alloc' b data).1 := by
  obtain ⟨n, rfl⟩ := Cdbw.sameDatabase_iff.mp same
  by_cases grows : alloc.Grows
  · refine ⟨alloc, ⟨rfl, rfl, rfl⟩, fun _ => rfl, ?_⟩
    obtain ⟨pointers, lengths⟩ := grows
    simp only [cdbwPutData, pointers, lengths, and_self, not_true_eq_false, and_false, if_false]
    split
    · exact ⟨rfl, same⟩
    split
    · exact ⟨rfl, same⟩
    split
    · exact ⟨rfl, rfl, rfl, rfl, rfl, rfl⟩
    · exact ⟨rfl, rfl, rfl, rfl, rfl, rfl⟩
  · by_cases full : a.dataAllocated = a.data.length
    · refine ⟨{ alloc with dataPtr := true, dataLen := true, datum := false }, ⟨rfl, rfl, rfl⟩,
        fun h => absurd h grows, ?_⟩
      have stuck : ¬ (alloc.dataPtr = true ∧ alloc.dataLen = true) := grows
      simp only [cdbwPutData, full, stuck, and_self, not_true_eq_false, and_false, if_false,
        not_false_eq_true, if_true, Bool.false_eq_true]
      split
      · exact ⟨rfl, same⟩
      split
      · exact ⟨rfl, same⟩
      · exact ⟨rfl, rfl, rfl, rfl, rfl, rfl⟩
    · refine ⟨{ alloc with dataPtr := true, dataLen := true }, ⟨rfl, rfl, rfl⟩,
        fun h => absurd h grows, ?_⟩
      simp only [cdbwPutData, full, and_self, not_true_eq_false, and_false, false_and, if_false]
      split
      · exact ⟨rfl, same⟩
      split
      · exact ⟨rfl, same⟩
      split
      · exact ⟨rfl, rfl, rfl, rfl, rfl, rfl⟩
      · exact ⟨rfl, rfl, rfl, rfl, rfl, rfl⟩

theorem cdbwPutKey_mimics {a b : Cdbw} (same : a.SameDatabase b) {alloc alloc' : Alloc}
    (keys : alloc.SameKey alloc') (key : List UInt8) (idx : Nat)
    : (cdbwPutKey vectorHash alloc' b key idx).2 = (cdbwPutKey vectorHash alloc a key idx).2
      ∧ (cdbwPutKey vectorHash alloc a key idx).1.SameDatabase
          (cdbwPutKey vectorHash alloc' b key idx).1 := by
  obtain ⟨n, rfl⟩ := Cdbw.sameDatabase_iff.mp same
  have alike : cdbwPutKey vectorHash alloc' a key idx = cdbwPutKey vectorHash alloc a key idx := by
    obtain ⟨keyHash, copy, table⟩ := keys
    simp only [cdbwPutKey, keyHash, copy, table]
  rw [cdbwPutKey_allocated, alike]
  exact ⟨rfl, rfl, rfl, rfl, rfl, rfl⟩

theorem cdbwPut_mimics {a b : Cdbw} (same : a.SameDatabase b) (alloc : Alloc)
    (key data : List UInt8)
    : ∃ alloc', (alloc.Grows → alloc' = alloc)
      ∧ (cdbwPut vectorHash alloc' b key data).2 = (cdbwPut vectorHash alloc a key data).2
      ∧ (cdbwPut vectorHash alloc a key data).1.SameDatabase
          (cdbwPut vectorHash alloc' b key data).1 := by
  obtain ⟨alloc', keys, grows, result, database⟩ := cdbwPutData_mimics same alloc data
  refine ⟨alloc', grows, ?_⟩
  rcases left : cdbwPutData alloc a data with ⟨a₁, none | idx⟩
  · rcases right : cdbwPutData alloc' b data with ⟨b₁, none | idx'⟩
    · rw [left, right] at database
      simp only [cdbwPut, left, right]
      exact ⟨trivial, database⟩
    · rw [left, right] at result
      cases result
  · rcases right : cdbwPutData alloc' b data with ⟨b₁, none | idx'⟩
    · rw [left, right] at result
      cases result
    · rw [left, right] at result database
      obtain rfl : idx' = idx := Option.some.inj result
      obtain ⟨result', database'⟩ := @cdbwPutKey_mimics vectorHash _ _ database _ _ keys key idx'
      rcases keyLeft : cdbwPutKey vectorHash alloc a₁ key idx' with ⟨a₂, added⟩
      rcases keyRight : cdbwPutKey vectorHash alloc' b₁ key idx' with ⟨b₂, added'⟩
      rw [keyLeft, keyRight] at result' database'
      obtain rfl : added' = added := result'
      cases added' with
      | true =>
          simp only [cdbwPut, left, right, keyLeft, keyRight]
          exact ⟨trivial, database'⟩
      | false =>
          simp only [cdbwPut, left, right, keyLeft, keyRight]
          exact ⟨trivial, congrArg List.dropLast database'.data,
            congrArg (· - data.length) database'.dataSize, database'.hashSize, database'.hash,
            database'.keyCounter⟩

/-- One call on databases that are the same. -/
theorem WriterCall.mimics {a b : Cdbw} (same : a.SameDatabase b) (call : WriterCall)
    : ∃ call', call.SameArguments call'
      ∧ call'.result vectorHash b = call.result vectorHash a
      ∧ (call.apply vectorHash a).SameDatabase (call'.apply vectorHash b)
      ∧ (call.Grows → call' = call) := by
  cases call with
  | put alloc key data =>
      obtain ⟨alloc', grows, result, database⟩ :=
        @cdbwPut_mimics vectorHash _ _ same alloc key data
      refine ⟨.put alloc' key data, .put .., ?_, database, fun h => by rw [grows h]⟩
      simp only [WriterCall.result, result]
  | putData alloc data =>
      obtain ⟨alloc', -, grows, result, database⟩ := cdbwPutData_mimics same alloc data
      exact ⟨.putData alloc' data, .putData .., result, database, fun h => by rw [grows h]⟩
  | putKey alloc key idx =>
      have keys : alloc.SameKey alloc := ⟨rfl, rfl, rfl⟩
      obtain ⟨result, database⟩ := @cdbwPutKey_mimics vectorHash _ _ same _ _ keys key idx
      refine ⟨.putKey alloc key idx, .putKey .., ?_, database, fun _ => rfl⟩
      simp only [WriterCall.result, result]

theorem Cdbw.SameDatabase.mimics {a b : Cdbw} (same : a.SameDatabase b)
    : Cdbw.Mimics vectorHash a b where
  output := by
    obtain ⟨n, rfl⟩ := Cdbw.sameDatabase_iff.mp same
    exact fun _ _ _ => rfl
  later := by
    intro calls
    induction calls generalizing a b with
    | nil => exact ⟨[], .nil, rfl, same, fun _ => rfl⟩
    | cons call rest ih =>
        obtain ⟨call', arguments, result, database, grows⟩ :=
          @WriterCall.mimics vectorHash _ _ same call
        obtain ⟨rest', arguments', results, database', grows'⟩ := ih database
        refine ⟨call' :: rest', .cons arguments arguments', ?_, database', ?_⟩
        · rw [resultsFrom, resultsFrom, result, results]
        · intro all
          rw [List.forall_mem_cons] at all
          rw [grows all.1, grows' all.2]

/-- A call that returns -1 changes nothing: data, keys and index are the same as before, and the
writers before and after it behave alike in both directions.
-/
theorem failedCall_changes_nothing (vectorHash : VectorHash) (calls : List WriterCall)
    (call : WriterCall)
    (failed : call.result vectorHash (writerAfter vectorHash calls) = none)
    : (writerAfter vectorHash calls).SameDatabase (writerAfter vectorHash (calls ++ [call]))
      ∧ Cdbw.Mimics vectorHash (writerAfter vectorHash calls)
          (writerAfter vectorHash (calls ++ [call]))
      ∧ Cdbw.Mimics vectorHash (writerAfter vectorHash (calls ++ [call]))
          (writerAfter vectorHash calls) := by
  have same := WriterCall.failed (writerAfter_ok vectorHash calls) failed
  rw [writerAfter_snoc]
  exact ⟨same, same.mimics, same.symm.mimics⟩

/-- A second `cdbw_put` of a key fails after its datum has been appended. -/
theorem failedCall_second_put
    : (writerAfter (fun _ _ _ => 0) [.put Alloc.all [7] [1]]).SameDatabase
        (writerAfter (fun _ _ _ => 0) ([.put Alloc.all [7] [1]] ++ [.put Alloc.all [7] [2]]))
      ∧ Cdbw.Mimics (fun _ _ _ => 0) (writerAfter (fun _ _ _ => 0) [.put Alloc.all [7] [1]])
          (writerAfter (fun _ _ _ => 0) ([.put Alloc.all [7] [1]] ++ [.put Alloc.all [7] [2]]))
      ∧ Cdbw.Mimics (fun _ _ _ => 0)
          (writerAfter (fun _ _ _ => 0) ([.put Alloc.all [7] [1]] ++ [.put Alloc.all [7] [2]]))
          (writerAfter (fun _ _ _ => 0) [.put Alloc.all [7] [1]]) :=
  failedCall_changes_nothing (fun _ _ _ => 0) [.put Alloc.all [7] [1]]
    (.put Alloc.all [7] [2]) (by decide)

end BSDLibC.Cdb
