import BSDLibC.Cdb.Assign
import BSDLibC.Cdb.Format

/-! What a reader finds in a file whose two tables have sizes that fit 32 bits, and the round
trip from the calls of the writer to those of the reader.
-/

namespace BSDLibC.Cdb
open BSDLibC.Bitops BSDLibC.Bytes BSDLibC.Hypergraph

variable {vectorHash : VectorHash} {cdbw : Cdbw} {state : State} {descr : List UInt8}
  {map : Mapping}

/-- A call of the reader succeeds and its range holds the given bytes. -/
def Returns (map : Mapping) (result : Option (Option (Nat × Nat))) (data : List UInt8) : Prop :=
  ∃ addr length, result = some (some (addr, length)) ∧ map.read addr length = some data

/-- The address of the offset table when the size of the index table fits. -/
theorem opened_offsetBase (junk : Magic) (map : Mapping) (cdbw : Cdbw) (descr : List UInt8)
    (table : state.entries * computeSize state.entries < 2 ^ 32)
    : (opened junk map cdbw state).offsetBase
      = map.base + (header cdbw state descr ++ indexTable state
          ++ List.replicate (padding cdbw state) 0).length := by
  simp only [opened, Nat.mod_eq_of_lt table, List.length_append, length_header, length_indexTable,
    List.length_replicate]

theorem getUintX_offset (junk : Magic) (h : cdbw.Ok vectorHash) {i : Nat}
    (bytes : map.bytes = printHash cdbw state descr)
    (table : state.entries * computeSize state.entries < 2 ^ 32)
    (offsetsFit : (cdbw.data.length + 1) * computeSize cdbw.dataSize < 2 ^ 32)
    (inside : i ≤ cdbw.data.length)
    : getUintX map (opened junk map cdbw state).offsetBase i (computeSize cdbw.dataSize)
      = some (cdbw.data.take i).flatten.length := by
  have small := h.dataSmall
  have size := h.dataSize
  have found := offsets_getElem? (by omega : 0 + cdbw.data.flatten.length < 2 ^ 32) inside
  obtain ⟨bound, value⟩ := List.getElem?_eq_some_iff.mp found
  have position : i * computeSize cdbw.dataSize % 2 ^ 32 = i * computeSize cdbw.dataSize := by
    have := Nat.mul_le_mul_right (computeSize cdbw.dataSize) (by omega : i ≤ cdbw.data.length + 1)
    exact Nat.mod_eq_of_lt (by omega)
  have before := length_flatten_take_le cdbw.data i
  rw [opened_offsetBase junk map cdbw descr table,
    getUintX_table (by rw [bytes, printHash_eq]; rfl) position bound, value, Nat.zero_add,
    Nat.mod_eq_of_lt]
  exact Nat.lt_of_le_of_lt (size ▸ before) (lt_computeSize (by omega))

/-- `cdbr_get` returns the datum of an index. -/
theorem cdbrGet_opened (junk : Magic) (h : cdbw.Ok vectorHash) {i : Nat}
    (bytes : map.bytes = printHash cdbw state descr)
    (table : state.entries * computeSize state.entries < 2 ^ 32)
    (offsetsFit : (cdbw.data.length + 1) * computeSize cdbw.dataSize < 2 ^ 32)
    (inside : i < cdbw.data.length)
    : Returns map (cdbrGet map (opened junk map cdbw state) i) cdbw.data[i] := by
  have size := h.dataSize
  have count := h.dataBound
  have start := getUintX_offset junk h bytes table offsetsFit (Nat.le_of_lt inside)
  have stop := getUintX_offset junk h bytes table offsetsFit (by omega : i + 1 ≤ _)
  have wraps : (i + 1) % 2 ^ 32 = i + 1 :=
    Nat.mod_eq_of_lt (by simp only [maxDataCounter] at count; omega)
  have next := length_flatten_take_succ inside
  have before := length_flatten_take_le cdbw.data (i + 1)
  have total := bytes ▸ length_printHash size state descr
  have fits := map.fits
  have shape : map.bytes
      = (header cdbw state descr ++ indexTable state ++ List.replicate (padding cdbw state) 0
          ++ offsetTable cdbw ++ (cdbw.data.take i).flatten)
        ++ cdbw.data[i] ++ (cdbw.data.drop (i + 1)).flatten := by
    rw [bytes, printHash_eq, flatten_split inside]
    simp only [List.append_assoc]
  have address : ptrAdd (opened junk map cdbw state).dataBase (cdbw.data.take i).flatten.length
      = map.base + (header cdbw state descr ++ indexTable state
          ++ List.replicate (padding cdbw state) 0
          ++ offsetTable cdbw ++ (cdbw.data.take i).flatten).length := by
    simp only [opened, ptrAdd, Nat.mod_eq_of_lt table, Nat.mod_eq_of_lt offsetsFit,
      List.length_append, length_header, length_indexTable, List.length_replicate,
      length_offsetTable]
    omega
  have found : cdbrGet map (opened junk map cdbw state) i = _ :=
    cdbrGet_eq inside start (by rw [wraps]; exact stop)
  rw [if_neg (by omega), if_neg (by simp only [opened]; omega), address, next,
    Nat.add_sub_cancel_left] at found
  exact ⟨_, _, found, Mapping.read_part shape⟩

/-- The value at a vertex is read back when it fits the width of the index table. -/
theorem getUintX_index (junk : Magic) {v : Nat} (bytes : map.bytes = printHash cdbw state descr)
    (table : state.entries * computeSize state.entries < 2 ^ 32) (inside : v < state.entries)
    (small : state.g v < 256 ^ computeSize state.entries)
    : getUintX map (opened junk map cdbw state).hashBase v (computeSize state.entries)
      = some (state.g v) := by
  have position : v * computeSize state.entries % 2 ^ 32 = v * computeSize state.entries := by
    have := Nat.mul_le_mul_right (computeSize state.entries) (Nat.le_of_lt inside)
    exact Nat.mod_eq_of_lt (by omega)
  have base : (opened junk map cdbw state).hashBase
      = map.base + (header cdbw state descr).length := by
    rw [length_header]
    rfl
  have shape : map.bytes = header cdbw state descr ++ indexTable state
      ++ (List.replicate (padding cdbw state) 0 ++ offsetTable cdbw ++ cdbw.data.flatten) := by
    rw [bytes, printHash_eq]
    simp only [List.append_assoc]
  rw [base, getUintX_table shape position (by simpa using inside)]
  simp [Nat.mod_eq_of_lt small]

/-- The vertices of a key. -/
def vertexOf (vectorHash : VectorHash) (state : State) (key : List UInt8) (j : Fin 3) : Nat :=
  (vectorHash key state.seed j).toNat % state.entries

/-- `cdbr_find` adds up the values at the three vertices of the key. -/
theorem cdbrFind_opened (junk : Magic) {key : List UInt8} {g : Fin 3 → Nat}
    (positive : 0 < state.entries) (entries : state.entries < 2 ^ 32)
    (data : 0 < cdbw.data.length) (count : cdbw.data.length < 2 ^ 32)
    (values : ∀ j, getUintX map (opened junk map cdbw state).hashBase
      (vertexOf vectorHash state key j) (computeSize state.entries) = some (g j))
    (sum : g 0 + g 1 + g 2 < 2 ^ 32)
    : cdbrFind vectorHash map (opened junk map cdbw state) key
      = cdbrGet map (opened junk map cdbw state) ((g 0 + g 1 + g 2) % cdbw.data.length) := by
  have vertex (j : Fin 3) : fastRemainder32 (vectorHash key (opened junk map cdbw state).seed j).toNat
      (opened junk map cdbw state).entriesIndex (opened junk map cdbw state).entriesIndexMagic
      = vertexOf vectorHash state key j := by
    show fastRemainder32 _ state.entries (if state.entries ≠ 0 then _ else _) = _
    rw [if_pos (by omega), fastRemainder32_eq positive entries (BitVec.isLt _)]
    rfl
  have width : (opened junk map cdbw state).indexSize = computeSize state.entries := rfl
  have index : fastRemainder32 (g 0 + g 1 + g 2) (opened junk map cdbw state).entries
      (opened junk map cdbw state).entriesMagic = (g 0 + g 1 + g 2) % cdbw.data.length := by
    show fastRemainder32 _ cdbw.data.length (if cdbw.data.length ≠ 0 then _ else _) = _
    rw [if_pos (by omega), fastRemainder32_eq data count sum]
  have nonempty : (opened junk map cdbw state).entriesIndex ≠ 0 := by
    show state.entries ≠ 0
    omega
  rw [cdbrFind, if_neg nonempty]
  simp only [vertex, width, values, Option.bind_eq_bind, Option.bind_some]
  rw [Nat.mod_eq_of_lt (by omega : g 0 + g 1 < 2 ^ 32), Nat.mod_eq_of_lt sum, index]

/-- The number of vertices for a number of keys. -/
def entriesFor (keys : Nat) : Nat := if keys + (keys + 3) / 4 < 10 then 10 else keys + (keys + 3) / 4

theorem entriesFor_pos (keys : Nat) : 0 < entriesFor keys := by
  unfold entriesFor
  split <;> omega

theorem le_entriesFor (keys : Nat) : keys ≤ entriesFor keys := by
  unfold entriesFor
  split <;> omega

theorem entriesFor_lt {keys : Nat} (bound : keys ≤ maxDataCounter) : entriesFor keys < 2 ^ 32 := by
  unfold entriesFor
  simp only [maxDataCounter] at bound
  split <;> omega

/-- The sizes computed by `cdbw_output` do not wrap around. -/
theorem Cdbw.Ok.attempt (h : cdbw.Ok vectorHash) (scratch : State) (seed : BitVec 32)
    : (attemptState cdbw scratch seed).keys = cdbw.keyHashes.length
      ∧ (attemptState cdbw scratch seed).entries = entriesFor cdbw.keyCounter
      ∧ (attemptState cdbw scratch seed).dataEntries = cdbw.data.length := by
  have keys := h.keyBound
  have data := h.dataBound
  have count := h.keyCounter
  simp only [maxDataCounter] at keys data
  simp only [attemptState, entriesFor]
  rw [Nat.mod_eq_of_lt (by omega : cdbw.keyCounter < 2 ^ 32),
    Nat.mod_eq_of_lt (by omega : cdbw.keyCounter + 3 < 2 ^ 32),
    Nat.mod_eq_of_lt (by omega : cdbw.keyCounter + (cdbw.keyCounter + 3) / 4 < 2 ^ 32),
    Nat.mod_eq_of_lt (by omega : cdbw.data.length < 2 ^ 32)]
  exact ⟨count, rfl, rfl⟩

/-- The edge of the key at a position. -/
theorem Cdbw.Ok.edge (h : cdbw.Ok vectorHash) (scratch : State) (seed : BitVec 32) {e : Nat}
    (inside : e < cdbw.keyHashes.length)
    : ((attemptState cdbw scratch seed).withEdges
        (cdbw.edges vectorHash (attemptState cdbw scratch seed))).edges e
      = { vertices := vertexOf vectorHash (attemptState cdbw scratch seed) cdbw.keyHashes[e].key
          idx := cdbw.keyHashes[e].idx } := by
  obtain ⟨-, entries, -⟩ := h.attempt scratch seed
  have remainder (hash : BitVec 32) : fastRemainder32 hash.toNat
      (attemptState cdbw scratch seed).entries
      (fastDivide32Prepare (attemptState cdbw scratch seed).entries)
      = hash.toNat % (attemptState cdbw scratch seed).entries := by
    rw [entries]
    exact fastRemainder32_eq (entriesFor_pos _) (entriesFor_lt h.keyBound) hash.isLt
  simp [State.withEdges, Cdbw.edges, inside, edgeOf, remainder]
  rfl

theorem foldl_assignEdge_frame (magic : Magic) (state : State) (order : List Nat)
    : ∃ g visited, order.foldl (assignEdge magic) state
        = { state with g := g, visited := visited } := by
  induction order generalizing state with
  | nil => exact ⟨_, _, rfl⟩
  | cons i rest ih =>
      obtain ⟨a, b, c, -, run, -⟩ := assignEdge_cases magic state i
      obtain ⟨g, visited, run'⟩ := ih (assignEdge magic state i)
      exact ⟨g, visited, by rw [List.foldl_cons, run', run]⟩

/-- The state from which `print_hash` writes, when it is not empty. -/
def Assembled (vectorHash : VectorHash) (cdbw : Cdbw) (scratch : State) (seed : BitVec 32)
    (state : State)
    : Prop :=
  ∃ built, buildGraph vectorHash cdbw (attemptState cdbw scratch seed) = some built
    ∧ assignNodes built = state

variable {scratch : State} {seed : BitVec 32}

theorem Assembled.sizes (h : cdbw.Ok vectorHash)
    (assembled : Assembled vectorHash cdbw scratch seed state)
    : state.entries = entriesFor cdbw.keyCounter ∧ state.seed = seed := by
  obtain ⟨built, run, rfl⟩ := assembled
  obtain ⟨keys, entries, -⟩ := h.attempt scratch seed
  have bound := h.keyBound
  have graph := buildGraph_built keys (by
    rw [keys, ← h.keyCounter]; simp only [maxDataCounter] at bound; omega) run
  obtain ⟨g, visited, frame⟩ := foldl_assignEdge_frame (fastDivide32Prepare built.dataEntries)
    built (List.range built.keys)
  rw [assignNodes, frame]
  exact ⟨graph.same.entries.trans entries, graph.same.seed⟩

/-- Where three times the number of data fits 32 bits, the values at the vertices of each key
add up to its index.
-/
theorem Assembled.solved (h : cdbw.Ok vectorHash)
    (assembled : Assembled vectorHash cdbw scratch seed state) (data : 0 < cdbw.data.length)
    (fits : 3 * cdbw.data.length ≤ 2 ^ 32)
    : (∀ v, state.g v < cdbw.data.length)
      ∧ ∀ key idx, cdbw.Stores key idx
        → (state.g (vertexOf vectorHash state key 0) + state.g (vertexOf vectorHash state key 1)
            + state.g (vertexOf vectorHash state key 2)) % cdbw.data.length = idx := by
  obtain ⟨built, run, rfl⟩ := assembled
  obtain ⟨keys, -, count⟩ := h.attempt scratch seed
  have bound := h.keyBound
  have graph := buildGraph_built keys (by
    rw [keys, ← h.keyCounter]; simp only [maxDataCounter] at bound; omega) run
  have edge {e : Nat} (inside : e < cdbw.keyHashes.length)
      : built.edges e
        = { vertices := vertexOf vectorHash (attemptState cdbw scratch seed) cdbw.keyHashes[e].key
            idx := cdbw.keyHashes[e].idx } := by
    rw [graph.same.edges, h.edge scratch seed inside]
  have index (e : Nat) (inside : e < (attemptState cdbw scratch seed).keys)
      : (built.edges e).idx < (attemptState cdbw scratch seed).dataEntries := by
    rw [keys] at inside
    rw [edge inside, count]
    exact h.idx _ (List.getElem_mem inside)
  obtain ⟨g, visited, final, solves⟩ := assignNodes_solves graph (count ▸ data) (count ▸ fits) index
    (fun _ => rfl) (fun _ => rfl)
  have d : built.dataEntries = cdbw.data.length := graph.same.dataEntries.trans count
  rw [final]
  refine ⟨fun v => d ▸ solves.small v, ?_⟩
  rintro _ _ ⟨keyHash, member, rfl, rfl⟩
  obtain ⟨e, inside, rfl⟩ := List.getElem_of_mem member
  have sum := solves.sums e (by rw [graph.same.keys]; exact keys ▸ inside)
  have ends (j : Fin 3) : built.ends e j = vertexOf vectorHash
      { built with g := g, visited := visited } cdbw.keyHashes[e].key j := by
    rw [State.ends, edge inside]
    simp only [vertexOf]
    rw [graph.same.entries, graph.same.seed]
    rfl
  rw [d, edge inside, ends, ends, ends] at sum
  exact sum

/-- The reader opens the file, reads every vertex value that was written, and finds for each key
the datum with the index that was given for it.
-/
def ReadsBack (vectorHash : VectorHash) (junk : Magic) (map : Mapping) (cdbw : Cdbw)
    (state : State)
    : Prop :=
  ∃ cdbr, cdbrOpenMem junk map = some cdbr
    ∧ (∀ v < state.entries, getUintX map cdbr.hashBase v cdbr.indexSize = some (state.g v))
    ∧ ∀ key idx datum, cdbw.Stores key idx → cdbw.data[idx]? = some datum
      → Returns map (cdbrFind vectorHash map cdbr key) datum

theorem Cdbw.Ok.opens (h : cdbw.Ok vectorHash) (junk : Magic)
    (bytes : map.bytes = printHash cdbw state descr) (entries : state.entries < 2 ^ 32)
    : cdbrOpenMem junk map = some (opened junk map cdbw state) := by
  have small := h.dataSmall
  have count := h.dataBound
  simp only [maxDataCounter] at count
  exact cdbrOpenMem_printHash junk bytes h.dataSize (by omega) (by omega) entries

/-- Files whose tables and values fit are read back. -/
theorem Assembled.readsBack (h : cdbw.Ok vectorHash)
    (assembled : Assembled vectorHash cdbw scratch seed state) (data : 0 < cdbw.data.length)
    (sum : 3 * cdbw.data.length ≤ 2 ^ 32)
    (values : cdbw.data.length ≤ 256 ^ computeSize (entriesFor cdbw.keyCounter))
    (table : entriesFor cdbw.keyCounter * computeSize (entriesFor cdbw.keyCounter) < 2 ^ 32)
    (offsetsFit : (cdbw.data.length + 1) * computeSize cdbw.dataSize < 2 ^ 32) (junk : Magic)
    (bytes : map.bytes = printHash cdbw state descr)
    : ReadsBack vectorHash junk map cdbw state := by
  obtain ⟨entries, -⟩ := assembled.sizes h
  obtain ⟨small, sums⟩ := assembled.solved h data sum
  have bound := entriesFor_lt h.keyBound
  have positive := entriesFor_pos cdbw.keyCounter
  rw [← entries] at values table bound positive
  have index : ∀ v < state.entries,
      getUintX map (opened junk map cdbw state).hashBase v (computeSize state.entries)
        = some (state.g v) :=
    fun v inside => getUintX_index junk bytes table inside (Nat.lt_of_lt_of_le (small v) values)
  refine ⟨opened junk map cdbw state, h.opens junk bytes bound, index, ?_⟩
  intro key idx datum stored found
  obtain ⟨inside, rfl⟩ := List.getElem?_eq_some_iff.mp found
  have v0 := small (vertexOf vectorHash state key 0)
  have v1 := small (vertexOf vectorHash state key 1)
  have v2 := small (vertexOf vectorHash state key 2)
  have find : cdbrFind vectorHash map (opened junk map cdbw state) key
      = cdbrGet map (opened junk map cdbw state)
          ((state.g (vertexOf vectorHash state key 0) + state.g (vertexOf vectorHash state key 1)
            + state.g (vertexOf vectorHash state key 2)) % cdbw.data.length) :=
    cdbrFind_opened junk positive bound data (by omega)
      (fun j => index _ (Nat.mod_lt _ positive)) (by omega)
  rw [find, sums key idx stored]
  exact cdbrGet_opened junk h bytes table offsetsFit inside

/-- The bytes that `cdbw_output` writes for a writer that is not empty. -/
theorem cdbwOutput_assembled {bytes : List UInt8} (data : 0 < cdbw.data.length)
    (keys : 0 < cdbw.keyCounter)
    (run : cdbwOutput vectorHash cdbw descr scratch seed = some bytes)
    : ∃ state, Assembled vectorHash cdbw scratch seed state
      ∧ bytes = printHash cdbw state descr := by
  rw [cdbwOutput, if_neg (by omega)] at run
  cases built : buildGraph vectorHash cdbw (attemptState cdbw scratch seed) with
  | none => simp [built] at run
  | some state =>
      refine ⟨assignNodes state, ⟨state, built, rfl⟩, ?_⟩
      simpa [built] using run.symm

/-- What the puts stored is what the reader returns, by key and by position. -/
def RoundTrip (vectorHash : VectorHash) (junk : Magic) (map : Mapping) (puts : List Put) : Prop :=
  ∃ cdbr, cdbrOpenMem junk map = some cdbr
    ∧ (∀ put ∈ puts, Returns map (cdbrFind vectorHash map cdbr put.key) put.data)
    ∧ ∀ i put, puts[i]? = some put → Returns map (cdbrGet map cdbr i) put.data

/-- The round trip for up to 858993458 puts, which take fewer than `2 ^ 30` vertices. -/
theorem roundTrip_of_length {puts : List Put} {bytes : List UInt8}
    (stored : runPuts vectorHash cdbwOpen puts = some cdbw)
    (run : cdbwOutput vectorHash cdbw descr scratch seed = some bytes)
    (mapped : map.bytes = bytes) (limit : puts.length ≤ 858993458) (junk : Magic)
    : RoundTrip vectorHash junk map puts := by
  obtain ⟨ok, data, keys, -, holds⟩ := runPuts_spec cdbwOpen_ok stored
  rw [keyHashes_cdbwOpen, List.length_nil, Nat.zero_add, ← ok.keyCounter] at keys
  replace data : cdbw.data = puts.map Put.data := data
  have count : cdbw.data.length = puts.length := by rw [data, List.length_map]
  by_cases empty : puts = []
  · subst empty
    rw [cdbwOutput, if_pos (by rw [count]; simp)] at run
    have bytes_eq := mapped.trans (Option.some.inj run).symm
    exact ⟨_, ok.opens junk bytes_eq (by simp), by simp, by simp⟩
  · have positive : 0 < puts.length := List.length_pos_iff.mpr empty
    obtain ⟨state, assembled, rfl⟩ := cdbwOutput_assembled (by omega) (by omega) run
    have entries : entriesFor cdbw.keyCounter < 2 ^ 30 := by
      unfold entriesFor
      split <;> omega
    have table : entriesFor cdbw.keyCounter * computeSize (entriesFor cdbw.keyCounter) < 2 ^ 32 := by
      have := Nat.mul_le_mul_left (entriesFor cdbw.keyCounter)
        (computeSize_le (entriesFor cdbw.keyCounter))
      omega
    have offsetsFit : (cdbw.data.length + 1) * computeSize cdbw.dataSize < 2 ^ 32 := by
      have := Nat.mul_le_mul_left (cdbw.data.length + 1) (computeSize_le cdbw.dataSize)
      omega
    have values : cdbw.data.length ≤ 256 ^ computeSize (entriesFor cdbw.keyCounter) := by
      have := le_entriesFor cdbw.keyCounter
      have := lt_computeSize (by omega : entriesFor cdbw.keyCounter < 2 ^ 32)
      omega
    have reads := assembled.readsBack ok (by omega) (by omega) values table offsetsFit junk mapped
    obtain ⟨size, -⟩ := assembled.sizes ok
    have gets (i : Nat) (put : Put) (found : puts[i]? = some put)
        : Returns map (cdbrGet map (opened junk map cdbw state) i) put.data := by
      have inside : i < cdbw.data.length := by
        have := (List.getElem?_eq_some_iff.mp found).1
        omega
      have datum : cdbw.data[i] = put.data := by
        have : cdbw.data[i]? = some put.data := by rw [data, List.getElem?_map, found]; rfl
        exact (List.getElem?_eq_some_iff.mp this).2
      exact datum ▸ cdbrGet_opened junk ok mapped (size ▸ table) offsetsFit inside
    obtain ⟨cdbr, isOpen, -, finds⟩ := reads
    obtain rfl : opened junk map cdbw state = cdbr := by
      rw [ok.opens junk mapped (by omega)] at isOpen
      exact Option.some.inj isOpen
    refine ⟨_, isOpen, ?_, gets⟩
    intro put member
    obtain ⟨i, inside, rfl⟩ := List.getElem_of_mem member
    refine finds puts[i].key i puts[i].data ?_ ?_
    · have held := holds i puts[i] (List.getElem?_eq_getElem inside)
      rwa [show cdbwOpen.data.length + i = i from Nat.zero_add i] at held
    · rw [data, List.getElem?_map, List.getElem?_eq_getElem inside]
      rfl

end BSDLibC.Cdb
