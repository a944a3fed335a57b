import BSDLibC.Cdb.RoundTrip

/-! Where the format stops working. The reader computes the sizes of both tables as 32-bit
products, and the width of a vertex value follows from the number of keys although the values
are bounded by the number of data. Beyond these limits there are databases, within the limits
that the writer enforces, which the reader does not read back.
-/

namespace BSDLibC.Cdb
open BSDLibC.Bitops BSDLibC.Bytes BSDLibC.Hypergraph

variable {cdbw : Cdbw} {state scratch : State} {seed : BitVec 32} {descr : List UInt8}
  {map : Mapping}

/-- A hash under which the key with number `i` has the vertices `i + 2`, 0 and 1. -/
def starHash : VectorHash := fun key _ j =>
  match j with
  | 0 => BitVec.ofNat 32 (leValue key + 2)
  | 1 => 0
  | 2 => 1

/-- The vertices of the key with number `i`. -/
def starEnds (i : Nat) : Fin 3 → Nat
  | 0 => i + 2
  | 1 => 0
  | 2 => 1

/-- Only the first vertex of a key is not shared. -/
theorem starEnds_private {i i' : Nat} {j : Fin 3} (meets : starEnds i' j = i + 2) : i' = i := by
  obtain rfl | rfl | rfl : j = 0 ∨ j = 1 ∨ j = 2 := by omega
  · simpa [starEnds] using meets
  · simp [starEnds] at meets
  · simp [starEnds] at meets

/-- A writer whose keys are numbers below the number of its keys. -/
structure Star (cdbw : Cdbw) : Prop where
  ok : cdbw.Ok starHash
  keys : ∀ keyHash ∈ cdbw.keyHashes, ∃ i < cdbw.keyCounter, keyHash.key = leBytes 4 i

theorem vertexOf_star {i : Nat} (entries : state.entries = entriesFor cdbw.keyCounter)
    (inside : i < cdbw.keyCounter) (bound : cdbw.keyCounter ≤ maxDataCounter)
    : vertexOf starHash state (leBytes 4 i) 0 = i + 2
      ∧ vertexOf starHash state (leBytes 4 i) 1 = 0
      ∧ vertexOf starHash state (leBytes 4 i) 2 = 1 := by
  have room : i + 2 < entriesFor cdbw.keyCounter ∧ 10 ≤ entriesFor cdbw.keyCounter := by
    unfold entriesFor
    split <;> omega
  simp only [maxDataCounter] at bound
  have value : leValue (leBytes 4 i) = i := leValue_leBytes_of_lt (by omega)
  simp only [vertexOf, starHash, value, entries]
  refine ⟨?_, ?_, ?_⟩
  · rw [BitVec.toNat_ofNat, Nat.mod_eq_of_lt (by omega : i + 2 < 2 ^ 32), Nat.mod_eq_of_lt room.1]
  · exact Nat.zero_mod _
  · show 1 % entriesFor cdbw.keyCounter = 1
    exact Nat.mod_eq_of_lt (by omega)

/-- The edges of such a writer, and the values that no edge of it determines. -/
theorem Star.edges (h : Star cdbw) (scratch : State) (seed : BitVec 32) {e : Nat}
    (inside : e < cdbw.keyHashes.length)
    : ∃ i < cdbw.keyCounter, cdbw.keyHashes[e].key = leBytes 4 i
      ∧ ∀ j, ((attemptState cdbw scratch seed).withEdges
          (cdbw.edges starHash (attemptState cdbw scratch seed))).ends e j
        = starEnds i j := by
  obtain ⟨-, entries, -⟩ := h.ok.attempt scratch seed
  obtain ⟨i, bound, key⟩ := h.keys _ (List.getElem_mem inside)
  obtain ⟨v0, v1, v2⟩ := vertexOf_star entries bound h.ok.keyBound
  refine ⟨i, bound, key, fun j => ?_⟩
  rw [State.ends, h.ok.edge scratch seed inside, key]
  obtain rfl | rfl | rfl : j = 0 ∨ j = 1 ∨ j = 2 := by omega
  · exact v0
  · exact v1
  · exact v2

/-- Two edges of such a writer that meet outside the vertices 0 and 1 are one. -/
theorem Star.same_edge (h : Star cdbw) {e other i : Nat} (inside : e < cdbw.keyHashes.length)
    (inside' : other < cdbw.keyHashes.length) (key : cdbw.keyHashes[e].key = leBytes 4 i)
    (key' : cdbw.keyHashes[other].key = leBytes 4 i)
    : other = e := by
  have same := List.inj_on_of_nodup_map h.ok.distinct (List.getElem_mem inside')
    (List.getElem_mem inside) (key'.trans key.symm)
  exact (h.ok.distinct.of_map.getElem_inj_iff).mp same

theorem Star.assembled (h : Star cdbw) (scratch : State) (seed : BitVec 32)
    : ∃ state, Assembled starHash cdbw scratch seed state := by
  obtain ⟨count, entries, -⟩ := h.ok.attempt scratch seed
  have bound := h.ok.keyBound
  have small : (attemptState cdbw scratch seed).keys < 2 ^ 32 := by
    rw [count, ← h.ok.keyCounter]
    simp only [maxDataCounter] at bound
    omega
  have edge := fun e (inside : e < (attemptState cdbw scratch seed).keys) =>
    h.edges scratch seed (count ▸ inside)
  have proper : ¬ (cdbw.edges starHash (attemptState cdbw scratch seed)).any Edge.degenerate := by
    rw [List.any_eq_true]
    rintro ⟨edge, member, degenerate⟩
    obtain ⟨e, inside, rfl⟩ := List.getElem_of_mem member
    have inside' : e < cdbw.keyHashes.length := by simpa [Cdbw.edges] using inside
    obtain ⟨i, -, -, ends⟩ := h.edges scratch seed inside'
    have same : (cdbw.edges starHash (attemptState cdbw scratch seed))[e].vertices
        = ((attemptState cdbw scratch seed).withEdges
          (cdbw.edges starHash (attemptState cdbw scratch seed))).ends e := by
      funext j
      simp [State.ends, State.withEdges, List.getElem?_eq_getElem inside]
    simp [Edge.degenerate, same, ends, starEnds] at degenerate
  obtain ⟨built, run⟩ := buildGraph_of_private count small proper (by
    intro e inside
    obtain ⟨i, below, key, ends⟩ := edge e inside
    refine ⟨i + 2, ?_, ⟨0, ends 0⟩, ?_⟩
    · rw [entries, entriesFor]
      split <;> omega
    · rintro other inside' ⟨j, meets⟩
      obtain ⟨i', -, key', ends'⟩ := edge other inside'
      rw [ends' j] at meets
      obtain rfl := starEnds_private meets
      exact h.same_edge (count ▸ inside) (count ▸ inside') key key')
  exact ⟨_, built, run, rfl⟩

/-- No edge of such a writer gives a value to the vertices that all edges share. -/
theorem Star.shared_zero (h : Star cdbw) (assembled : Assembled starHash cdbw scratch seed state)
    {v : Nat} (shared : v < 2)
    : state.g v = 0 := by
  obtain ⟨built, run, rfl⟩ := assembled
  obtain ⟨count, -, -⟩ := h.ok.attempt scratch seed
  have bound := h.ok.keyBound
  have graph := buildGraph_built count (by
    rw [count, ← h.ok.keyCounter]; simp only [maxDataCounter] at bound; omega) run
  have keys : built.keys = (attemptState cdbw scratch seed).keys := graph.same.keys
  have edge : ∀ e ∈ (List.range (attemptState cdbw scratch seed).keys).map built.outputOrder,
      ∃ inside : e < cdbw.keyHashes.length, ∃ i < cdbw.keyCounter,
        cdbw.keyHashes[e].key = leBytes 4 i
        ∧ ∀ j, built.ends e j = starEnds i j := by
    intro e member
    have inside := (graph.complete e).mp member
    rw [graph.same.ends]
    exact ⟨count ▸ inside, h.edges scratch seed (count ▸ inside)⟩
  have kept := foldl_assignEdge_own (fastDivide32Prepare built.dataEntries) (v := v)
    graph.unique ?_ ?_ ?_
  · rw [assignNodes, keys, kept, graph.same.g]
    rfl
  · intro e member other member' different j meets
    obtain ⟨inside, i, -, key, ends⟩ := edge e member
    obtain ⟨inside', i', -, key', ends'⟩ := edge other member'
    rw [ends 0, ends' j] at meets
    obtain rfl := starEnds_private meets
    exact different (h.same_edge inside inside' key key')
  · intro e _
    rw [graph.same.visited]
    rfl
  · intro e member
    obtain ⟨-, i, -, -, ends⟩ := edge e member
    rw [ends 0]
    show v ≠ i + 2
    omega

/-- A first datum of 65536 bytes `0xff`. -/
def longDatum : List UInt8 := List.replicate 65536 0xff

theorem length_longDatum : longDatum.length = 65536 := List.length_replicate

/-- Four bytes of a field below `0xff000000` are not all `0xff`. -/
theorem leBytes_ne_replicate {value : Nat} (small : value < 0xff000000)
    : leBytes 4 value ≠ List.replicate 4 0xff := by
  intro same
  have read := congrArg leValue same
  rw [leValue_leBytes_of_lt (by omega)] at read
  have top : leValue (List.replicate 4 0xff) = 0xffffffff := by decide
  omega

/-- A pointer to the data that points into a table of four-byte fields does not lead to a datum
of bytes `0xff`.
-/
theorem not_returns_of_table {cdbr : Cdbr} {before after : List UInt8} {values : List Nat}
    {i w : Nat} (size : cdbr.dataSize = 65536)
    (bytes : map.bytes = before ++ leTable 4 values ++ after) (inside : w < values.length)
    (base : cdbr.dataBase = map.base + (before.length + w * 4)) (small : values[w] < 0xff000000)
    : ¬ Returns map (cdbrGet map cdbr i) longDatum := by
  rintro ⟨addr, length, found, read⟩
  obtain ⟨start, address, bound⟩ := cdbrGet_some found
  rw [size] at bound
  have fits := map.fits
  have total : map.bytes.length = before.length + values.length * 4 + after.length := by
    simp [bytes, Nat.add_assoc]
  rw [Mapping.read] at read
  split at read
  case isFalse => simp at read
  case isTrue range =>
    have data := Option.some.inj read
    have full := congrArg List.length data
    simp only [List.length_take, List.length_drop, longDatum, List.length_replicate] at full
    obtain rfl : length = 65536 := by omega
    obtain rfl : start = 0 := by omega
    have exact_address : addr - map.base = before.length + w * 4 := by
      rw [address, ptrAdd, base]
      omega
    have field : ((before ++ leTable 4 values ++ after).drop (before.length + w * 4)).take 4
        = leBytes 4 values[w] := slice_leTable before after inside
    rw [← bytes, ← exact_address] at field
    have ones : (map.bytes.drop (addr - map.base)).take 4 = List.replicate 4 0xff := by
      calc
        (map.bytes.drop (addr - map.base)).take 4
          = ((map.bytes.drop (addr - map.base)).take 65536).take 4 := by
            rw [List.take_take, Nat.min_eq_left (by decide)]
        _ = List.replicate 4 0xff := by
            rw [data, longDatum, List.take_replicate, Nat.min_eq_left (by decide)]
    exact leBytes_ne_replicate small (field.symm.trans ones)

/-- Where the 32-bit size of a table is not its size, the reader's pointer to the data points
into the tables.
-/
theorem not_returns_of_wrapped {vectorHash : VectorHash} (h : cdbw.Ok vectorHash) (junk : Magic)
    (bytes : map.bytes = printHash cdbw state descr) (small : ∀ v, state.g v < 0xff000000)
    (size : cdbw.dataSize = 65536)
    (wrapped : 2 ^ 30 ≤ state.entries ∨ 2 ^ 30 ≤ cdbw.data.length + 1) (i : Nat)
    : ¬ Returns map (cdbrGet map (opened junk map cdbw state) i) longDatum := by
  have dataSize := h.dataSize
  have width : computeSize cdbw.dataSize = 4 := by rw [size]; decide
  have offsetSmall (j : Nat) (inside : j < (offsets 0 cdbw.data).length)
      : (offsets 0 cdbw.data)[j] < 0xff000000 := by
    have found := offsets_getElem? (by omega : 0 + cdbw.data.flatten.length < 2 ^ 32)
      (by rw [length_offsets] at inside; omega : j ≤ cdbw.data.length)
    have value := (List.getElem?_eq_some_iff.mp found).2
    have := length_flatten_take_le cdbw.data j
    omega
  have count := length_offsets 0 cdbw.data
  by_cases many : 2 ^ 30 ≤ state.entries
  · -- Both tables have four-byte fields, with nothing between them.
    have width' : computeSize state.entries = 4 := by
      have := computeSize_cases state.entries
      omega
    have aligned : padding cdbw state = 0 := by
      rw [padding, width, width', paddingOf]
      simp
    have shape : map.bytes = header cdbw state descr
        ++ leTable 4 ((List.range state.entries).map state.g ++ offsets 0 cdbw.data)
        ++ cdbw.data.flatten := by
      rw [bytes, printHash_eq, aligned, indexTable, offsetTable, width, width']
      simp [leTable]
    have bound : state.entries % 2 ^ 30 + (cdbw.data.length + 1) % 2 ^ 30
        < ((List.range state.entries).map state.g ++ offsets 0 cdbw.data).length := by
      simp only [List.length_append, List.length_map, List.length_range, count]
      omega
    refine not_returns_of_table size shape bound ?_ ?_
    · simp only [opened, width, width', aligned, length_header]
      omega
    · rw [List.getElem_append]
      split
      · simpa using small _
      · exact offsetSmall _ _
  · -- Only the offset table is too large.
    have table : state.entries * computeSize state.entries < 2 ^ 32 := by
      have := Nat.mul_le_mul_left state.entries (computeSize_le state.entries)
      omega
    have shape : map.bytes = header cdbw state descr ++ indexTable state
        ++ List.replicate (padding cdbw state) 0 ++ leTable 4 (offsets 0 cdbw.data)
        ++ cdbw.data.flatten := by
      rw [bytes, printHash_eq, offsetTable, width]
    refine not_returns_of_table (w := (cdbw.data.length + 1) % 2 ^ 30) size shape (by omega) ?_
      (offsetSmall _ _)
    simp only [opened, width, Nat.mod_eq_of_lt table, List.length_append, length_header,
      length_indexTable, List.length_replicate]
    omega

theorem Assembled.lt_dataBound {vectorHash : VectorHash} (h : cdbw.Ok vectorHash)
    (assembled : Assembled vectorHash cdbw scratch seed state) (data : 0 < cdbw.data.length) (v : Nat)
    : state.g v < 0xff000000 := by
  obtain ⟨built, run, rfl⟩ := assembled
  obtain ⟨count, -, dataEntries⟩ := h.attempt scratch seed
  have keyBound := h.keyBound
  have dataBound := h.dataBound
  simp only [maxDataCounter] at keyBound dataBound
  have graph := buildGraph_built count (by rw [count, ← h.keyCounter]; omega) run
  have entries : built.dataEntries = cdbw.data.length := graph.same.dataEntries.trans dataEntries
  have bound := foldl_assignEdge_lt entries data (by omega) (fun v => by
    rw [graph.same.g]
    exact data) (List.range built.keys) v
  rw [← entries] at bound
  exact Nat.lt_trans bound (by omega)

/-- Every file can be mapped. -/
theorem exists_mapping {vectorHash : VectorHash} (h : cdbw.Ok vectorHash) (descr : List UInt8)
    (entries : state.entries < 2 ^ 32)
    : ∃ map : Mapping, map.bytes = printHash cdbw state descr := by
  refine ⟨⟨0, printHash cdbw state descr, ?_⟩, rfl⟩
  have count := h.dataBound
  have size := h.dataSmall
  simp only [maxDataCounter] at count
  have index := Nat.mul_le_mul_left state.entries (computeSize_le state.entries)
  have offset := Nat.mul_le_mul_left (cdbw.data.length + 1) (computeSize_le cdbw.dataSize)
  have pad : padding cdbw state ≤ 4 := by
    have := computeSize_le cdbw.dataSize
    rw [padding, paddingOf]
    split <;> omega
  rw [length_printHash h.dataSize]
  omega

-----------------------------------------------------------------------------------------
-- Puts
-----------------------------------------------------------------------------------------

/-- Puts of numbered keys, the first with a long datum and the others with none. -/
def starPuts (n : Nat) : List Put :=
  (List.range n).map (fun i => ⟨Alloc.all, leBytes 4 i, if i = 0 then longDatum else []⟩)

theorem length_flatten_starPuts (n : Nat)
    : ((starPuts n).map Put.data).flatten.length = if n = 0 then 0 else 65536 := by
  induction n with
  | zero => rfl
  | succ n ih =>
      rw [starPuts, List.range_succ, List.map_append, List.map_append, List.flatten_append,
        List.length_append, ← starPuts, ih]
      by_cases first : n = 0
      · simp [first, length_longDatum]
      · simp [first]

theorem nodup_leBytes {n : Nat} (small : n ≤ 2 ^ 32)
    : ((List.range n).map (leBytes 4)).Nodup := by
  refine List.Nodup.map_on ?_ List.nodup_range
  intro i hi j hj same
  rw [List.mem_range] at hi hj
  exact leBytes_injOn (by omega) (by omega) same

/-- The puts succeed, the file is written, and the first datum does not come back. -/
theorem starPuts_not_roundTrip {n : Nat} (many : 858993458 < n) (small : n < 2 ^ 30)
    (descr : List UInt8) (scratch : State) (seed : BitVec 32) (junk : Magic)
    : ∃ (cdbw : Cdbw) (map : Mapping), runPuts starHash cdbwOpen (starPuts n) = some cdbw
      ∧ cdbwOutput starHash cdbw descr scratch seed = some map.bytes
      ∧ ¬ RoundTrip starHash junk map (starPuts n) := by
  have length : (starPuts n).length = n := by simp [starPuts]
  have noKeys : cdbwOpen.keyHashes = [] := keyHashes_cdbwOpen
  have size := length_flatten_starPuts n
  rw [if_neg (by omega)] at size
  obtain ⟨cdbw, stored, keys⟩ := runPuts_success (starPuts n) cdbwOpen_ok
    (by simp [starPuts])
    (by rw [length]; simp only [cdbwOpen, maxDataCounter, List.length_nil]; omega)
    (by rw [size]; simp [cdbwOpen])
    (by rw [length]; simp only [cdbwOpen, maxDataCounter]; omega)
    (by
      rw [starPuts, List.map_map]
      exact nodup_leBytes (by omega))
    (by simp [noKeys])
  obtain ⟨ok, data, count, -, -⟩ := runPuts_spec cdbwOpen_ok stored
  rw [noKeys, List.length_nil, Nat.zero_add, ← ok.keyCounter, length] at count
  replace data : cdbw.data = (starPuts n).map Put.data := data
  have dataLength : cdbw.data.length = n := by rw [data, List.length_map, length]
  have star : Star cdbw := by
    refine ⟨ok, fun keyHash member => ?_⟩
    rcases keys keyHash member with old | ⟨put, member', same⟩
    · rw [noKeys] at old
      cases old
    · obtain ⟨i, inside, rfl⟩ := List.mem_map.mp member'
      rw [count]
      exact ⟨i, List.mem_range.mp inside, same⟩
  obtain ⟨state, assembled⟩ := star.assembled scratch seed
  obtain ⟨entries, -⟩ := assembled.sizes ok
  have bound := entriesFor_lt ok.keyBound
  obtain ⟨map, bytes⟩ := exists_mapping ok descr (by omega : state.entries < 2 ^ 32)
  refine ⟨cdbw, map, stored, ?_, ?_⟩
  · obtain ⟨built, run, rfl⟩ := assembled
    rw [cdbwOutput, if_neg (by omega), run, bytes]
    rfl
  · rintro ⟨cdbr, isOpen, -, gets⟩
    rw [ok.opens junk bytes (by omega)] at isOpen
    obtain rfl := Option.some.inj isOpen
    refine not_returns_of_wrapped ok junk bytes
      (assembled.lt_dataBound ok (by omega)) (by rw [ok.dataSize, data, size]) (Or.inl ?_) 0
      (gets 0 ⟨Alloc.all, leBytes 4 0, longDatum⟩ ?_)
    · rw [entries, entriesFor, count]
      split <;> omega
    · rw [starPuts, List.getElem?_map, List.getElem?_range (by omega)]
      rfl

/-- Every database written by `n` puts comes back. -/
def AllRoundTrip (n : Nat) : Prop :=
  ∀ (vectorHash : VectorHash) (puts : List Put) (cdbw : Cdbw) (descr : List UInt8)
    (scratch : State) (seed : BitVec 32) (bytes : List UInt8) (junk : Magic) (map : Mapping),
    puts.length = n
    → runPuts vectorHash cdbwOpen puts = some cdbw
    → cdbwOutput vectorHash cdbw descr scratch seed = some bytes
    → map.bytes = bytes
    → RoundTrip vectorHash junk map puts

/-- Databases of fewer than `2 ^ 30` puts come back if there are no more than 858993458 puts;
with more of them, some do not.
-/
theorem allRoundTrip_iff {n : Nat} (small : n < 2 ^ 30) : AllRoundTrip n ↔ n ≤ 858993458 := by
  constructor
  · intro all
    by_contra many
    obtain ⟨cdbw, map, stored, written, lost⟩ := starPuts_not_roundTrip (by omega) small []
      freshState 0 ⟨0, 0, 0⟩
    exact lost (all starHash (starPuts n) cdbw [] freshState 0 map.bytes ⟨0, 0, 0⟩ map
      (by simp [starPuts]) stored written rfl)
  · intro limit vectorHash puts cdbw descr scratch seed bytes junk map length stored written mapped
    exact roundTrip_of_length stored written mapped (by omega) junk

theorem allRoundTrip_million : AllRoundTrip 1000000 :=
  (allRoundTrip_iff (by decide)).mpr (by decide)

/-- The least number of puts for which the index table takes `2 ^ 32` bytes. -/
theorem starPuts_858993459_not_roundTrip
    : (starPuts 858993459).length < 2 ^ 30
      ∧ ∃ (cdbw : Cdbw) (map : Mapping),
        runPuts starHash cdbwOpen (starPuts 858993459) = some cdbw
        ∧ cdbwOutput starHash cdbw [] freshState 0 = some map.bytes
        ∧ ¬ RoundTrip starHash ⟨0, 0, 0⟩ map (starPuts 858993459) :=
  ⟨by simp [starPuts], starPuts_not_roundTrip (by decide) (by decide) [] freshState 0 ⟨0, 0, 0⟩⟩

-----------------------------------------------------------------------------------------
-- Data and keys put apart from each other
-----------------------------------------------------------------------------------------

/-- Data within the limits are all put. -/
theorem writerAfter_putData (vectorHash : VectorHash) {data : List (List UInt8)}
    (count : data.length ≤ maxDataCounter) (size : data.flatten.length ≤ 0xffffffff)
    : (writerAfter vectorHash (data.map (.putData Alloc.all))).data = data
      ∧ (writerAfter vectorHash (data.map (.putData Alloc.all))).keyHashes = [] := by
  induction data using List.reverseRecOn with
  | nil => exact ⟨rfl, keyHashes_cdbwOpen⟩
  | append_singleton rest datum ih =>
      simp only [List.length_append, List.length_singleton, List.flatten_append,
        List.flatten_singleton] at count size
      obtain ⟨data, keys⟩ := ih (by omega) (by omega)
      rw [List.map_append, List.map_singleton, writerAfter_snoc]
      have total := (writerAfter_ok vectorHash (rest.map (.putData Alloc.all))).dataSize
      rw [data] at total
      generalize writerAfter vectorHash (rest.map (.putData Alloc.all)) = cdbw at *
      have room : cdbw.data.length < maxDataCounter := by rw [data]; omega
      have fits : cdbw.dataSize + datum.length ≤ 0xffffffff := by omega
      obtain ⟨allocated, run⟩ := cdbwPutData_success room fits
      rw [WriterCall.apply, run]
      exact ⟨by rw [data], keys⟩

/-- All data, and then keys with consecutive numbers that share one of them. -/
def starCalls (data : List (List UInt8)) (k idx : Nat) : List WriterCall :=
  data.map (.putData Alloc.all)
    ++ (List.range k).map (fun i => .putKey Alloc.all (leBytes 4 i) idx)

theorem writerAfter_starCalls {data : List (List UInt8)} {k idx : Nat}
    (count : data.length ≤ maxDataCounter) (size : data.flatten.length ≤ 0xffffffff)
    (inside : idx < data.length) (bound : k ≤ maxDataCounter)
    : (writerAfter starHash (starCalls data k idx)).data = data
      ∧ (writerAfter starHash (starCalls data k idx)).keyCounter = k
      ∧ (∀ keyHash ∈ (writerAfter starHash (starCalls data k idx)).keyHashes,
          ∃ i < k, keyHash.key = leBytes 4 i)
      ∧ ∀ i < k, (writerAfter starHash (starCalls data k idx)).Stores (leBytes 4 i) idx := by
  induction k with
  | zero =>
      obtain ⟨same, none⟩ := writerAfter_putData starHash count size
      rw [starCalls, List.range_zero, List.map_nil, List.append_nil]
      refine ⟨same, ?_, ?_, ?_⟩
      · rw [(writerAfter_ok starHash _).keyCounter, none, List.length_nil]
      · simp [none]
      · simp
  | succ k ih =>
      simp only [maxDataCounter] at bound
      obtain ⟨same, counter, keys, stores⟩ := ih (by simp only [maxDataCounter]; omega)
      have ok := writerAfter_ok starHash (starCalls data k idx)
      have next : starCalls data (k + 1) idx
          = starCalls data k idx ++ [.putKey Alloc.all (leBytes 4 k) idx] := by
        simp [starCalls, List.range_succ]
      rw [next, writerAfter_snoc]
      generalize writerAfter starHash (starCalls data k idx) = cdbw at *
      have fresh : leBytes 4 k ∉ cdbw.keyHashes.map KeyHash.key := by
        intro stored
        obtain ⟨keyHash, member, key⟩ := List.mem_map.mp stored
        obtain ⟨i, below, key'⟩ := keys keyHash member
        have := leBytes_injOn (by omega) (by omega) (key.symm.trans key')
        omega
      obtain ⟨cdbw', run, data', entries, ok'⟩ := cdbwPutKey_success ok (same.symm ▸ inside)
        (by simp only [maxDataCounter]; omega) fresh
      rw [WriterCall.apply, run]
      refine ⟨data'.trans same, ?_, ?_, ?_⟩
      · rw [ok'.keyCounter, entries.length_eq, List.length_cons, ← ok.keyCounter, counter]
      · intro keyHash member
        rcases List.mem_cons.mp (entries.mem_iff.mp member) with rfl | old
        · exact ⟨k, by omega, rfl⟩
        · obtain ⟨i, below, key⟩ := keys keyHash old
          exact ⟨i, by omega, key⟩
      · intro i below
        rcases Nat.lt_succ_iff_lt_or_eq.mp below with earlier | rfl
        · obtain ⟨keyHash, member, held⟩ := stores i earlier
          exact ⟨keyHash, entries.mem_iff.mpr (List.mem_cons_of_mem _ member), held⟩
        · exact ⟨_, entries.mem_iff.mpr List.mem_cons_self, rfl, rfl⟩

/-- The writer has a file that does not read back. -/
def SomeLost (vectorHash : VectorHash) (cdbw : Cdbw) : Prop :=
  ∃ (state : State) (map : Mapping), Assembled vectorHash cdbw freshState 0 state
    ∧ map.bytes = printHash cdbw state []
    ∧ ¬ ReadsBack vectorHash ⟨0, 0, 0⟩ map cdbw state

/-- The file of a star, up to the property that fails. -/
theorem Star.someLost (star : Star cdbw)
    (lost : ∀ (state : State) (map : Mapping), Assembled starHash cdbw freshState 0 state
      → map.bytes = printHash cdbw state []
      → state.entries = entriesFor cdbw.keyCounter
      → cdbrOpenMem ⟨0, 0, 0⟩ map = some (opened ⟨0, 0, 0⟩ map cdbw state)
      → ¬ ReadsBack starHash ⟨0, 0, 0⟩ map cdbw state)
    : SomeLost starHash cdbw := by
  obtain ⟨state, assembled⟩ := star.assembled freshState 0
  obtain ⟨entries, -⟩ := assembled.sizes star.ok
  have bound := entriesFor_lt star.ok.keyBound
  obtain ⟨map, bytes⟩ := exists_mapping star.ok [] (by omega : state.entries < 2 ^ 32)
  exact ⟨state, map, assembled, bytes,
    lost state map assembled bytes entries (star.ok.opens _ bytes (by omega))⟩

/-- Data of which the first is long. -/
def longData (d : Nat) : List (List UInt8) := longDatum :: List.replicate (d - 1) []

/-- A table of `2 ^ 32` bytes or more makes the long datum unreadable. -/
theorem starCalls_lost_of_wrapped {k d : Nat} (keys : 0 < k) (keyBound : k ≤ maxDataCounter)
    (data : 0 < d) (dataBound : d ≤ maxDataCounter)
    (large : 2 ^ 30 ≤ entriesFor k ∨ 2 ^ 30 ≤ d + 1)
    : (longData d).length = d
      ∧ SomeLost starHash (writerAfter starHash (starCalls (longData d) k 0)) := by
  have total : (longData d).flatten.length = 65536 := by
    simp [longData, length_longDatum]
  have length : (longData d).length = d := by
    simp only [longData, List.length_cons, List.length_replicate]
    omega
  obtain ⟨same, counter, numbered, stores⟩ :=
    writerAfter_starCalls (by omega) (by omega) (by omega : 0 < (longData d).length) keyBound
  have ok := writerAfter_ok starHash (starCalls (longData d) k 0)
  generalize writerAfter starHash (starCalls (longData d) k 0) = cdbw at *
  refine ⟨length, Star.someLost ⟨ok, counter.symm ▸ numbered⟩ ?_⟩
  rintro state map assembled bytes entries isOpen ⟨cdbr, isOpen', -, finds⟩
  obtain rfl := Option.some.inj (isOpen.symm.trans isOpen')
  obtain ⟨addr, size, found, read⟩ :=
    finds (leBytes 4 0) 0 longDatum (stores 0 keys) (by rw [same]; rfl)
  obtain ⟨i, get⟩ := cdbrFind_some found
  refine not_returns_of_wrapped ok ⟨0, 0, 0⟩ bytes (assembled.lt_dataBound ok (by rw [same]; omega))
    (by rw [ok.dataSize, same, total]) ?_ i ⟨addr, size, get, read⟩
  rw [entries, counter, same, length]
  exact large

/-- An index that does not fit the width of a vertex value is not read back. -/
theorem starCalls_lost_of_wide {k d : Nat} (keys : 0 < k) (keyBound : k ≤ maxDataCounter)
    (dataBound : d + 1 < 2 ^ 30) (wide : 256 ^ computeSize (entriesFor k) < d)
    : SomeLost starHash (writerAfter starHash
        (starCalls (List.replicate d []) k (256 ^ computeSize (entriesFor k)))) := by
  have ten : 10 ≤ entriesFor k := by
    unfold entriesFor
    split <;> omega
  obtain ⟨same, counter, numbered, stores⟩ := writerAfter_starCalls
    (by rw [List.length_replicate]; simp only [maxDataCounter]; omega)
    (by simp : (List.replicate d ([] : List UInt8)).flatten.length ≤ 0xffffffff)
    (by rwa [List.length_replicate] : 256 ^ computeSize (entriesFor k) < _) keyBound
  have ok := writerAfter_ok starHash
    (starCalls (List.replicate d []) k (256 ^ computeSize (entriesFor k)))
  generalize writerAfter starHash
    (starCalls (List.replicate d []) k (256 ^ computeSize (entriesFor k))) = cdbw at *
  have star : Star cdbw := ⟨ok, counter.symm ▸ numbered⟩
  have length : cdbw.data.length = d := by rw [same, List.length_replicate]
  refine star.someLost ?_
  rintro state map assembled bytes entries isOpen ⟨cdbr, isOpen', values, -⟩
  obtain rfl := Option.some.inj (isOpen.symm.trans isOpen')
  -- The value at vertex 2 is the index of the first key.
  obtain ⟨small, sums⟩ := assembled.solved ok (length ▸ Nat.zero_lt_of_lt wide) (by omega)
  have value := sums (leBytes 4 0) _ (stores 0 keys)
  obtain ⟨v0, v1, v2⟩ := vertexOf_star entries (counter ▸ keys) ok.keyBound
  have g0 := star.shared_zero assembled (by decide : 0 < 2)
  have g1 := star.shared_zero assembled (by decide : 1 < 2)
  rw [v0, v1, v2, g0, g1, Nat.add_zero, Nat.add_zero, Nat.mod_eq_of_lt (small _)] at value
  have field := getUintX_lt (values 2 (by rw [entries, counter]; omega))
  have width : (opened ⟨0, 0, 0⟩ map cdbw state).indexSize = computeSize (entriesFor k) := by
    rw [← counter, ← entries]
    rfl
  rw [width, value] at field
  exact Nat.lt_irrefl _ field

/-- Every file of a writer with `k` keys and `d` data is read back. -/
def AllReadBack (k d : Nat) : Prop :=
  ∀ (vectorHash : VectorHash) (calls : List WriterCall) (descr : List UInt8) (scratch : State)
    (seed : BitVec 32) (state : State) (junk : Magic) (map : Mapping),
    (writerAfter vectorHash calls).keyCounter = k
    → (writerAfter vectorHash calls).data.length = d
    → Assembled vectorHash (writerAfter vectorHash calls) scratch seed state
    → map.bytes = printHash (writerAfter vectorHash calls) state descr
    → ReadsBack vectorHash junk map (writerAfter vectorHash calls) state

theorem AllReadBack.not_lost {k d : Nat} {calls : List WriterCall} (all : AllReadBack k d)
    (counter : (writerAfter starHash calls).keyCounter = k)
    (length : (writerAfter starHash calls).data.length = d)
    : ¬ SomeLost starHash (writerAfter starHash calls) := by
  rintro ⟨state, map, assembled, bytes, lost⟩
  exact lost (all starHash calls [] freshState 0 state ⟨0, 0, 0⟩ map counter length assembled bytes)

/-- The vertex values of all writers with `k` keys and `d` data are read back, and their keys
found, exactly if the width computed from the number of vertices holds every number below `d` and
neither table can reach `2 ^ 32` bytes.
-/
theorem allReadBack_iff {k d : Nat} (keys : 0 < k) (keyBound : k ≤ maxDataCounter) (data : 0 < d)
    (dataBound : d ≤ maxDataCounter)
    : AllReadBack k d
      ↔ d ≤ 256 ^ computeSize (entriesFor k) ∧ entriesFor k < 2 ^ 30 ∧ d + 1 < 2 ^ 30 := by
  constructor
  · intro all
    have tables : entriesFor k < 2 ^ 30 ∧ d + 1 < 2 ^ 30 := by
      by_contra large
      obtain ⟨length, lost⟩ := starCalls_lost_of_wrapped keys keyBound data dataBound (by omega)
      have size : (longData d).flatten.length ≤ 0xffffffff := by
        simp [longData, length_longDatum]
      obtain ⟨same, counter, -, -⟩ :=
        writerAfter_starCalls (by omega) size (by omega : 0 < (longData d).length) keyBound
      exact all.not_lost counter (by rw [same, length]) lost
    refine ⟨?_, tables⟩
    by_contra wide
    rw [Nat.not_le] at wide
    obtain ⟨same, counter, -, -⟩ := writerAfter_starCalls
      (by rwa [List.length_replicate])
      (by simp : (List.replicate d ([] : List UInt8)).flatten.length ≤ 0xffffffff)
      (by rwa [List.length_replicate] : 256 ^ computeSize (entriesFor k) < _) keyBound
    exact all.not_lost counter (by rw [same, List.length_replicate])
      (starCalls_lost_of_wide keys keyBound tables.2 wide)
  · rintro ⟨values, entries, offsets⟩ vectorHash calls descr scratch seed state junk map counter
      length assembled bytes
    have index := Nat.mul_le_mul_left (entriesFor k) (computeSize_le (entriesFor k))
    have offset := Nat.mul_le_mul_left (d + 1)
      (computeSize_le (writerAfter vectorHash calls).dataSize)
    refine assembled.readsBack (writerAfter_ok vectorHash calls) ?_ ?_ ?_ ?_ ?_ junk bytes
    · omega
    · omega
    · rwa [length, counter]
    · rw [counter]
      omega
    · rw [length]
      omega

/-- With one key, 256 data are fine. -/
theorem allReadBack_one_key : AllReadBack 1 256 :=
  (allReadBack_iff (by decide) (by decide) (by decide) (by decide)).mpr (by decide)

/-- With one key, 300 data are too many for the one byte of a vertex value. -/
theorem starCalls_300_lost
    : SomeLost starHash
        (writerAfter starHash (starCalls (List.replicate 300 []) 1 256)) :=
  starCalls_lost_of_wide (by decide) (by decide) (by decide) (by decide)

end BSDLibC.Cdb
