import BSDLibC.Bitops.FastDivide
import BSDLibC.Bytes.Endian
import Mathlib.Logic.Function.Basic

/-! The writer of `libc/cdb/cdbw.c`. `mi_vector_hash` is a parameter. Which of the allocations
of a call succeed is an argument of the call, and a failed call returns the writer it leaves.
-/

namespace BSDLibC.Cdb
open BSDLibC.Bitops BSDLibC.Bytes

/-- One instance for the numerals that select a hash of a key. -/
instance neZeroThree : NeZero 3 := ⟨by decide⟩

/-- `mi_vector_hash(key, keylen, seed, hashes)` -/
abbrev VectorHash := List UInt8 → BitVec 32 → Fin 3 → BitVec 32

structure KeyHash where
  hashes : Fin 3 → BitVec 32
  idx : Nat
  key : List UInt8

/-- `data` holds the strings behind `data_ptr` and `data_len`, so its length is
`data_counter`; `hash i` is the list of bucket `i`.
-/
structure Cdbw where
  data : List (List UInt8)
  dataAllocated : Nat
  dataSize : Nat
  hashSize : Nat
  hash : Nat → List KeyHash
  keyCounter : Nat

def maxDataCounter : Nat := 0xcccccccc

/-- `cdbw_open` -/
def cdbwOpen : Cdbw :=
  { data := [], dataAllocated := 0, dataSize := 0, hashSize := 1024, hash := fun _ => [],
    keyCounter := 0 }

/-- Which allocations of one call succeed. -/
structure Alloc where
  dataPtr : Bool
  dataLen : Bool
  datum : Bool
  keyHash : Bool
  key : Bool
  table : Bool

/-- `cdbw_put_data`, with the new index unless it returns -1. -/
def cdbwPutData (alloc : Alloc) (cdbw : Cdbw) (data : List UInt8) : Cdbw × Option Nat :=
  if cdbw.data.length = maxDataCounter then
    (cdbw, none)
  else if cdbw.dataSize + data.length ≥ 2 ^ 64 ∨ cdbw.dataSize + data.length > 0xffffffff then
    -- The sum of the two `size_t` values wraps around, or does not fit 32 bits.
    (cdbw, none)
  else if cdbw.dataAllocated = cdbw.data.length ∧ ¬ (alloc.dataPtr ∧ alloc.dataLen) then
    (cdbw, none)
  else
    let cdbw :=
      { cdbw with
        dataAllocated :=
          if cdbw.dataAllocated = cdbw.data.length then
            if cdbw.dataAllocated = 0 then 256 else cdbw.dataAllocated * 2
          else
            cdbw.dataAllocated }
    if alloc.datum then
      ({ cdbw with
          data := cdbw.data ++ [data]
          dataSize := cdbw.dataSize + data.length },
        some cdbw.data.length)
    else
      (cdbw, none)

/-- `hashes[0] & (hash_size - 1)` -/
def bucketOf (hashes : Fin 3 → BitVec 32) (hashSize : Nat) : Nat :=
  (hashes 0).toNat &&& (hashSize - 1)

/-- The comparison of the duplicate search. -/
def KeyHash.same (keyHash : KeyHash) (hashes : Fin 3 → BitVec 32) (key : List UInt8) : Bool :=
  keyHash.key.length = key.length
    && keyHash.hashes 0 = hashes 0
    && keyHash.hashes 1 = hashes 1
    && keyHash.hashes 2 = hashes 2
    && key = keyHash.key

/-- `SLIST_INSERT_HEAD` into bucket `i` -/
def insertHead (table : Nat → List KeyHash) (i : Nat) (keyHash : KeyHash) : Nat → List KeyHash :=
  Function.update table i (keyHash :: table i)

/-- The table of twice the size, filled bucket by bucket. -/
def rehash (hashSize : Nat) (hash : Nat → List KeyHash) : Nat → List KeyHash :=
  ((List.range hashSize).flatMap hash).foldl
    (fun table keyHash => insertHead table (bucketOf keyHash.hashes (hashSize * 2)) keyHash)
    (fun _ => [])

/-- `cdbw_put_key`, with whether it returns 0. -/
def cdbwPutKey (vectorHash : VectorHash) (alloc : Alloc) (cdbw : Cdbw) (key : List UInt8)
    (idx : Nat)
    : Cdbw × Bool :=
  if idx ≥ cdbw.data.length ∨ cdbw.keyCounter = maxDataCounter then
    (cdbw, false)
  else
    let hashes := vectorHash key 0
    let head := bucketOf hashes cdbw.hashSize
    if (cdbw.hash head).any (fun keyHash => keyHash.same hashes key) then
      (cdbw, false)
    else if ¬ (alloc.keyHash ∧ alloc.key) then
      (cdbw, false)
    else
      let cdbw :=
        { cdbw with
          hash := insertHead cdbw.hash head ⟨hashes, idx, key⟩
          keyCounter := cdbw.keyCounter + 1 }
      if cdbw.keyCounter ≤ cdbw.hashSize ∨ ¬ alloc.table then
        (cdbw, true)
      else
        ({ cdbw with
            hash := rehash cdbw.hashSize cdbw.hash
            hashSize := cdbw.hashSize * 2 },
          true)

/-- `cdbw_put`, with whether it returns 0. -/
def cdbwPut (vectorHash : VectorHash) (alloc : Alloc) (cdbw : Cdbw) (key data : List UInt8)
    : Cdbw × Bool :=
  match cdbwPutData alloc cdbw data with
  | (cdbw, none) => (cdbw, false)
  | (cdbw, some idx) =>
      match cdbwPutKey vectorHash alloc cdbw key idx with
      | (cdbw, true) => (cdbw, true)
      | (cdbw, false) =>
          ({ cdbw with
              data := cdbw.data.dropLast
              dataSize := cdbw.dataSize - data.length },
            false)

-----------------------------------------------------------------------------------------
-- The graph
-----------------------------------------------------------------------------------------

structure Vertex where
  degree : Nat
  edges : Nat

structure Edge where
  vertices : Fin 3 → Nat
  idx : Nat

/-- The work area of `cdbw_output`; the arrays are functions of their index. -/
structure State where
  dataEntries : Nat
  entries : Nat
  keys : Nat
  seed : BitVec 32
  g : Nat → Nat
  visited : Nat → Bool
  vertices : Nat → Vertex
  edges : Nat → Edge
  outputIndex : Nat
  outputOrder : Nat → Nat

/-- `change_edge`, where `delta` is 1 or -1 as a 32-bit word. -/
def changeEdge (state : State) (delta e : Nat) : State :=
  [0, 1, 2].foldl
    (fun state i =>
      let v := (state.edges e).vertices i
      { state with
        vertices := Function.update state.vertices v
          { edges := (state.vertices v).edges ^^^ e
            degree := ((state.vertices v).degree + delta) % 2 ^ 32 } })
    state

/-- `remove_vertex` -/
def removeVertex (state : State) (v : Nat) : State :=
  if (state.vertices v).degree = 1 then
    let e := (state.vertices v).edges
    let state :=
      { state with
        outputIndex := state.outputIndex - 1
        outputOrder := Function.update state.outputOrder (state.outputIndex - 1) e }
    changeEdge state (2 ^ 32 - 1) e
  else
    state

/-- The stored keys in the order in which `build_graph` visits them. -/
def Cdbw.keyHashes (cdbw : Cdbw) : List KeyHash := (List.range cdbw.hashSize).flatMap cdbw.hash

/-- The edge of a key under the current seed. -/
def edgeOf (vectorHash : VectorHash) (state : State) (magic : Magic) (keyHash : KeyHash) : Edge :=
  { vertices := fun j =>
      fastRemainder32 (vectorHash keyHash.key state.seed j).toNat state.entries magic
    idx := keyHash.idx }

def Edge.degenerate (e : Edge) : Bool :=
  e.vertices 0 = e.vertices 1 || e.vertices 0 = e.vertices 2 || e.vertices 1 = e.vertices 2

/-- The last loop of `build_graph`: follow the edges in the order in which they came out. -/
def buildGraph.drain (state : State) : Nat → State
  | 0 => state
  | i + 1 =>
      if i + 1 > state.outputIndex then
        let e := state.edges (state.outputOrder i)
        buildGraph.drain
          (removeVertex (removeVertex (removeVertex state (e.vertices 0)) (e.vertices 1))
            (e.vertices 2))
          i
      else
        state

/-- `build_graph`: the state when it returns 0, nothing when it returns -1. -/
def buildGraph (vectorHash : VectorHash) (cdbw : Cdbw) (state : State) : Option State :=
  let magic := fastDivide32Prepare state.entries
  let edges := cdbw.keyHashes.map (edgeOf vectorHash state magic)
  if edges.any Edge.degenerate then
    none
  else
    let state :=
      { state with
        vertices := fun _ => ⟨0, 0⟩
        edges := fun i => edges.getD i (state.edges i) }
    let state := (List.range state.keys).foldl (fun state e => changeEdge state 1 e) state
    let state := { state with outputIndex := state.keys }
    let state := (List.range state.entries).foldl removeVertex state
    let state := buildGraph.drain state state.keys
    if state.outputIndex = 0 then some state else none

/-- One pass of the loop of `assign_nodes`. -/
def assignEdge (magic : Magic) (state : State) (i : Nat) : State :=
  let e := state.edges (state.outputOrder i)
  let (v0, v1, v2) :=
    if ¬ state.visited (e.vertices 0) then
      (e.vertices 0, e.vertices 1, e.vertices 2)
    else if ¬ state.visited (e.vertices 1) then
      (e.vertices 1, e.vertices 0, e.vertices 2)
    else
      (e.vertices 2, e.vertices 0, e.vertices 1)
  let sum := (2 * state.dataEntries + e.idx + 2 ^ 33 - state.g v1 - state.g v2) % 2 ^ 32
  { state with
    g := Function.update state.g v0 (fastRemainder32 sum state.dataEntries magic)
    visited :=
      Function.update (Function.update (Function.update state.visited v0 true) v1 true) v2 true }

/-- `assign_nodes` -/
def assignNodes (state : State) : State :=
  (List.range state.keys).foldl (assignEdge (fastDivide32Prepare state.dataEntries)) state

-----------------------------------------------------------------------------------------
-- The file
-----------------------------------------------------------------------------------------

def computeSize (size : Nat) : Nat :=
  if size < 0x100 then 1 else if size < 0x10000 then 2 else 4

/-- What has been written to the file and the filled part of `buf`. -/
structure Output where
  file : List UInt8
  buf : List UInt8

/-- `COND_FLUSH_BUFFER` -/
def Output.condFlush (out : Output) (n : Nat) : Output :=
  if out.buf.length + n ≥ 90000 then { file := out.file ++ out.buf, buf := [] } else out

/-- `COND_FLUSH_BUFFER(4); le32enc(buf + cur_pos, value); cur_pos += size` -/
def Output.encode (size : Nat) (out : Output) (value : Nat) : Output :=
  let out := out.condFlush 4
  { out with buf := out.buf ++ (leBytes 4 value).take size }

/-- One datum: copied into the buffer, or written directly when it does not fit. -/
def Output.datum (out : Output) (data : List UInt8) : Output :=
  let out := out.condFlush data.length
  if data.length < 90000 then
    { out with buf := out.buf ++ data }
  else
    { out with file := out.file ++ data }

/-- The table of start offsets, as `print_hash` accumulates them in `data_size`. -/
def offsets : Nat → List (List UInt8) → List Nat
  | start, [] => [start]
  | start, data :: rest => start :: offsets ((start + data.length) % 2 ^ 32) rest

/-- The first 40 bytes; `descr` is cut or padded to 16 bytes. -/
def header (cdbw : Cdbw) (state : State) (descr : List UInt8) : List UInt8 :=
  [0x4e, 0x42, 0x43, 0x44, 0x42, 0x0a, 0, 1]
    ++ (descr.takeWhile (· ≠ 0) ++ List.replicate 16 0).take 16
    ++ leBytes 4 cdbw.dataSize
    ++ leBytes 4 cdbw.data.length
    ++ leBytes 4 state.entries
    ++ leBytes 4 state.seed.toNat

/-- `print_hash`, as the bytes it writes. -/
def printHash (cdbw : Cdbw) (state : State) (descr : List UInt8) : List UInt8 :=
  let out : Output := { file := [], buf := header cdbw state descr }
  let size := computeSize state.entries
  let out := ((List.range state.entries).map state.g).foldl (Output.encode size) out
  let size2 := computeSize cdbw.dataSize
  let rest := size * state.entries % size2
  let out := if rest ≠ 0 then Output.encode (size2 - rest) out 0 else out
  let out := (offsets 0 cdbw.data).foldl (Output.encode size2) out
  let out := cdbw.data.foldl Output.datum out
  out.file ++ out.buf

/-- The work area in which `cdbw_output` tries a seed. `scratch` is what earlier attempts left
in the arrays that `build_graph` fills anew.
-/
def attemptState (cdbw : Cdbw) (scratch : State) (seed : BitVec 32) : State :=
  let keys := cdbw.keyCounter % 2 ^ 32
  let entries := (keys + (keys + 3) % 2 ^ 32 / 4) % 2 ^ 32
  { scratch with
    dataEntries := cdbw.data.length % 2 ^ 32
    entries := if entries < 10 then 10 else entries
    keys := keys
    seed := seed
    g := fun _ => 0
    visited := fun _ => false }

/-- `cdbw_output` when its last attempt is with `seed`: the bytes written, or nothing when
`build_graph` rejects the seed.
-/
def cdbwOutput (vectorHash : VectorHash) (cdbw : Cdbw) (descr : List UInt8) (scratch : State)
    (seed : BitVec 32)
    : Option (List UInt8) :=
  if cdbw.data.length = 0 ∨ cdbw.keyCounter = 0 then
    some (printHash cdbw { scratch with entries := 0, seed := 0 } descr)
  else do
    let state ← buildGraph vectorHash cdbw (attemptState cdbw scratch seed)
    return printHash cdbw (assignNodes state) descr

end BSDLibC.Cdb
