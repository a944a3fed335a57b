import BSDLibC.Cdb.Reader
import Mathlib.Data.List.Flatten

/-! The file that `print_hash` writes, as one byte string: header, index table, padding, offset
table and data, and what the reader gets out of such a file.
-/

namespace BSDLibC.Cdb
open BSDLibC.Bitops BSDLibC.Bytes

variable {cdbw : Cdbw} {state : State} {descr : List UInt8}

-----------------------------------------------------------------------------------------
-- Writing
-----------------------------------------------------------------------------------------

/-- All bytes so far, flushed or not. -/
def Output.total (out : Output) : List UInt8 := out.file ++ out.buf

theorem Output.total_condFlush (out : Output) (n : Nat)
    : (out.condFlush n).total = out.total := by
  unfold Output.condFlush
  split
  · simp [Output.total]
  · rfl

theorem Output.total_encode {size : Nat} (narrow : size ≤ 4) (out : Output) (value : Nat)
    : (out.encode size value).total = out.total ++ leBytes size value := by
  rw [← Output.total_condFlush out 4]
  simp [Output.encode, Output.total, take_leBytes narrow]

theorem Output.total_foldl_encode {size : Nat} (narrow : size ≤ 4) (out : Output)
    (values : List Nat)
    : (values.foldl (Output.encode size) out).total = out.total ++ leTable size values := by
  induction values generalizing out with
  | nil => simp [leTable]
  | cons value rest ih =>
      rw [List.foldl_cons, ih, Output.total_encode narrow]
      simp [leTable]

/-- A datum is written after everything before it, whichever way it takes. -/
theorem Output.total_datum (out : Output) (data : List UInt8)
    : (out.datum data).total = out.total ++ data := by
  unfold Output.datum
  split
  · rw [← Output.total_condFlush out data.length]
    simp [Output.total]
  · have flushed : (out.condFlush data.length).buf = [] := by
      rw [Output.condFlush, if_pos (by omega)]
    rw [← Output.total_condFlush out data.length]
    simp [Output.total, flushed]

theorem Output.total_foldl_datum (out : Output) (data : List (List UInt8))
    : (data.foldl Output.datum out).total = out.total ++ data.flatten := by
  induction data generalizing out with
  | nil => simp
  | cons first rest ih =>
      rw [List.foldl_cons, ih, Output.total_datum]
      simp

theorem computeSize_cases (size : Nat)
    : computeSize size = 1 ∧ size < 0x100
      ∨ computeSize size = 2 ∧ 0x100 ≤ size ∧ size < 0x10000
      ∨ computeSize size = 4 ∧ 0x10000 ≤ size := by
  unfold computeSize
  split
  · omega
  · split <;> omega

theorem computeSize_le (size : Nat) : computeSize size ≤ 4 := by
  have := computeSize_cases size
  omega

theorem computeSize_pos (size : Nat) : 0 < computeSize size := by
  have := computeSize_cases size
  omega

/-- A 32-bit count fits the width computed from it. -/
theorem lt_computeSize {size : Nat} (small : size < 2 ^ 32) : size < 256 ^ computeSize size := by
  rcases computeSize_cases size with ⟨width, bound⟩ | ⟨width, -, bound⟩ | ⟨width, -⟩
  · rwa [width]
  · rwa [width]
  · rwa [width]

/-- The bytes between an index table of `size` bytes and offsets of `width` bytes. -/
def paddingOf (size width : Nat) : Nat := if size % width ≠ 0 then width - size % width else 0

def indexTable (state : State) : List UInt8 :=
  leTable (computeSize state.entries) ((List.range state.entries).map state.g)

def offsetTable (cdbw : Cdbw) : List UInt8 :=
  leTable (computeSize cdbw.dataSize) (offsets 0 cdbw.data)

def padding (cdbw : Cdbw) (state : State) : Nat :=
  paddingOf (state.entries * computeSize state.entries) (computeSize cdbw.dataSize)

theorem leBytes_zero (width : Nat) : leBytes width 0 = List.replicate width 0 := by
  induction width with
  | zero => rfl
  | succ width ih => simp [leBytes, ih, List.replicate_succ]

theorem printHash_eq (cdbw : Cdbw) (state : State) (descr : List UInt8)
    : printHash cdbw state descr
      = header cdbw state descr ++ indexTable state ++ List.replicate (padding cdbw state) 0
        ++ offsetTable cdbw ++ cdbw.data.flatten := by
  have start (bytes : List UInt8) : Output.total { file := [], buf := bytes } = bytes := rfl
  have pad (out : Output) :
      (if computeSize state.entries * state.entries % computeSize cdbw.dataSize ≠ 0 then
        Output.encode (computeSize cdbw.dataSize
          - computeSize state.entries * state.entries % computeSize cdbw.dataSize) out 0
      else
        out).total = out.total ++ List.replicate (padding cdbw state) 0 := by
    rw [padding, paddingOf, Nat.mul_comm state.entries]
    split
    · have := computeSize_le cdbw.dataSize
      rw [Output.total_encode (by omega), leBytes_zero]
    · simp
  show (List.foldl Output.datum _ cdbw.data).total = _
  rw [Output.total_foldl_datum, Output.total_foldl_encode (computeSize_le _), pad,
    Output.total_foldl_encode (computeSize_le _), start]
  rfl

/-- The table of offsets has one more entry than there are data. -/
theorem length_offsets (start : Nat) (data : List (List UInt8))
    : (offsets start data).length = data.length + 1 := by
  induction data generalizing start with
  | nil => rfl
  | cons first rest ih => simp [offsets, ih]

/-- Each offset is the length of the data before it. -/
theorem offsets_getElem? {start i : Nat} {data : List (List UInt8)}
    (small : start + data.flatten.length < 2 ^ 32) (inside : i ≤ data.length)
    : (offsets start data)[i]? = some (start + (data.take i).flatten.length) := by
  induction data generalizing start i with
  | nil =>
      obtain rfl : i = 0 := by simpa using inside
      simp [offsets]
  | cons first rest ih =>
      cases i with
      | zero => simp [offsets]
      | succ i =>
          simp only [List.flatten_cons, List.length_append] at small
          have wraps : (start + first.length) % 2 ^ 32 = start + first.length :=
            Nat.mod_eq_of_lt (by omega)
          rw [offsets, List.getElem?_cons_succ, wraps, ih (by omega) (by simpa using inside)]
          simp [Nat.add_assoc]

/-- The data around one datum. -/
theorem flatten_split {data : List (List UInt8)} {i : Nat} (inside : i < data.length)
    : data.flatten = (data.take i).flatten ++ data[i] ++ (data.drop (i + 1)).flatten := by
  have whole : data = data.take i ++ data[i] :: data.drop (i + 1) := by
    rw [← List.drop_eq_getElem_cons inside, List.take_append_drop]
  calc
    data.flatten = (data.take i ++ data[i] :: data.drop (i + 1)).flatten := by rw [← whole]
    _ = _ := by rw [List.flatten_append, List.flatten_cons, List.append_assoc]

theorem length_flatten_take_succ {data : List (List UInt8)} {i : Nat} (inside : i < data.length)
    : (data.take (i + 1)).flatten.length = (data.take i).flatten.length + data[i].length := by
  rw [List.take_add_one, List.getElem?_eq_getElem inside, Option.toList_some, List.flatten_append,
    List.flatten_singleton, List.length_append]

theorem length_flatten_take_le (data : List (List UInt8)) (i : Nat)
    : (data.take i).flatten.length ≤ data.flatten.length := by
  have whole : data.flatten = (data.take i).flatten ++ (data.drop i).flatten := by
    rw [← List.flatten_append, List.take_append_drop]
  rw [whole, List.length_append]
  exact Nat.le_add_right _ _

@[simp] theorem length_header (cdbw : Cdbw) (state : State) (descr : List UInt8)
    : (header cdbw state descr).length = 40 := by
  simp only [header, List.length_append, List.length_take, List.length_cons, List.length_nil,
    length_leBytes, List.length_replicate]
  omega

@[simp] theorem length_indexTable (state : State)
    : (indexTable state).length = state.entries * computeSize state.entries := by
  simp [indexTable]

@[simp] theorem length_offsetTable (cdbw : Cdbw)
    : (offsetTable cdbw).length = (cdbw.data.length + 1) * computeSize cdbw.dataSize := by
  simp [offsetTable, length_offsets]

-----------------------------------------------------------------------------------------
-- Reading
-----------------------------------------------------------------------------------------

theorem Mapping.read_eq (map : Mapping) {k size : Nat} (inside : k + size ≤ map.bytes.length)
    : map.read (map.base + k) size = some ((map.bytes.drop k).take size) := by
  rw [Mapping.read, if_pos (by omega), Nat.add_sub_cancel_left]

theorem Mapping.length_of_read {map : Mapping} {addr size : Nat} {bytes : List UInt8}
    (read : map.read addr size = some bytes)
    : bytes.length = size := by
  rw [Mapping.read] at read
  split at read
  case isFalse => cases read
  case isTrue range =>
    obtain rfl := Option.some.inj read
    rw [List.length_take, List.length_drop]
    omega

theorem getUintX_lt {map : Mapping} {addr idx size value : Nat}
    (read : getUintX map addr idx size = some value)
    : value < 256 ^ size := by
  obtain ⟨bytes, found, rfl⟩ := Option.map_eq_some_iff.mp read
  exact Mapping.length_of_read found ▸ leValue_lt bytes

/-- Reading a table entry; `j` is where the 32-bit product of index and width leads. -/
theorem getUintX_table {map : Mapping} {before after : List UInt8} {width i j : Nat}
    {values : List Nat} (bytes : map.bytes = before ++ leTable width values ++ after)
    (position : i * width % 2 ^ 32 = j * width) (inside : j < values.length)
    : getUintX map (map.base + before.length) i width = some (values[j] % 256 ^ width) := by
  have total : map.bytes.length = before.length + values.length * width + after.length := by
    simp [bytes, Nat.add_assoc]
  have bound : j * width + width ≤ values.length * width := by
    rw [← Nat.succ_mul]
    exact Nat.mul_le_mul_right _ inside
  have fits := map.fits
  have address : ptrAdd (map.base + before.length) (i * width % 2 ^ 32)
      = map.base + (before.length + j * width) := by
    rw [ptrAdd, position, Nat.mod_eq_of_lt (by omega), Nat.add_assoc]
  rw [getUintX, address, map.read_eq (by omega), bytes, slice_leTable before after inside,
    Option.map_some, leValue_leBytes]

/-- Reading a part of the file. -/
theorem Mapping.read_part {map : Mapping} {before part after : List UInt8}
    (bytes : map.bytes = before ++ part ++ after)
    : map.read (map.base + before.length) part.length = some part := by
  rw [map.read_eq (by simp [bytes]), bytes]
  simp

/-- `cdbr_get` once the two offsets are known. -/
theorem cdbrGet_eq {map : Mapping} {cdbr : Cdbr} {i start stop : Nat} (inside : i < cdbr.entries)
    (first : getUintX map cdbr.offsetBase i cdbr.offsetSize = some start)
    (second : getUintX map cdbr.offsetBase ((i + 1) % 2 ^ 32) cdbr.offsetSize = some stop)
    : cdbrGet map cdbr i
      = some (if start > stop then none
        else if stop > cdbr.dataSize then none
        else some (ptrAdd cdbr.dataBase start, stop - start)) := by
  rw [cdbrGet, if_neg (Nat.not_le.mpr inside), first, second]
  simp only [Option.bind_eq_bind, Option.bind_some]
  split
  · rfl
  · split <;> rfl

/-- What a successful `cdbr_get` has read and checked. -/
theorem cdbrGet_some {map : Mapping} {cdbr : Cdbr} {i addr length : Nat}
    (found : cdbrGet map cdbr i = some (some (addr, length)))
    : ∃ start, addr = ptrAdd cdbr.dataBase start ∧ start + length ≤ cdbr.dataSize := by
  rw [cdbrGet] at found
  split at found
  · simp at found
  simp only [Option.bind_eq_bind, Option.bind_eq_some_iff] at found
  obtain ⟨start, -, stop, -, checked⟩ := found
  split at checked
  · simp at checked
  split at checked
  · simp at checked
  case isFalse order bound =>
    simp only [Option.pure_def, Option.some.injEq, Prod.mk.injEq] at checked
    obtain ⟨rfl, rfl⟩ := checked
    exact ⟨start, rfl, by omega⟩

/-- A successful `cdbr_find` is a successful `cdbr_get`. -/
theorem cdbrFind_some {vectorHash : VectorHash} {map : Mapping} {cdbr : Cdbr} {key : List UInt8}
    {result : Nat × Nat} (found : cdbrFind vectorHash map cdbr key = some (some result))
    : ∃ i, cdbrGet map cdbr i = some (some result) := by
  rw [cdbrFind] at found
  split at found
  · simp at found
  · simp only [Option.bind_eq_bind, Option.bind_eq_some_iff] at found
    obtain ⟨i0, -, i1, -, i2, -, get⟩ := found
    exact ⟨_, get⟩

/-- The header fields of a file. -/
theorem header32_printHash {map : Mapping} {rest : List UInt8}
    (bytes : map.bytes = header cdbw state descr ++ rest) (i : Nat) {value : Nat}
    (field : [cdbw.dataSize, cdbw.data.length, state.entries, state.seed.toNat][i]? = some value)
    (small : value < 2 ^ 32)
    : map.header32 (24 + i * 4) = value := by
  obtain ⟨inside, rfl⟩ := List.getElem?_eq_some_iff.mp field
  have start : ([0x4e, 0x42, 0x43, 0x44, 0x42, 0x0a, 0, 1]
      ++ (descr.takeWhile (· ≠ 0) ++ List.replicate 16 0).take 16 : List UInt8).length = 24 := by
    simp
  have split : header cdbw state descr
      = [0x4e, 0x42, 0x43, 0x44, 0x42, 0x0a, 0, 1]
        ++ (descr.takeWhile (· ≠ 0) ++ List.replicate 16 0).take 16
        ++ leTable 4 [cdbw.dataSize, cdbw.data.length, state.entries, state.seed.toNat] := by
    simp [header, leTable]
  rw [Mapping.header32, bytes, split, ← start, slice_leTable _ _ inside,
    leValue_leBytes_of_lt small]

/-- What the reader has after it opened a file; the sizes of its tables are 32-bit products. -/
def opened (junk : Magic) (map : Mapping) (cdbw : Cdbw) (state : State) : Cdbr :=
  let table := state.entries * computeSize state.entries % 2 ^ 32
  let offsetBase := map.base + (40 + table + padding cdbw state)
  { mmapBase := map.base
    mmapSize := map.bytes.length
    hashBase := map.base + 40
    offsetBase := offsetBase
    dataBase := offsetBase + (cdbw.data.length + 1) * computeSize cdbw.dataSize % 2 ^ 32
    dataSize := cdbw.dataSize
    entries := cdbw.data.length
    entriesIndex := state.entries
    seed := state.seed
    offsetSize := computeSize cdbw.dataSize
    indexSize := computeSize state.entries
    entriesMagic := if cdbw.data.length ≠ 0 then fastDivide32Prepare cdbw.data.length else junk
    entriesIndexMagic := if state.entries ≠ 0 then fastDivide32Prepare state.entries else junk }

/-- The padding does not change when the size of the table wraps around. -/
theorem paddingOf_mod {width : Nat} (size : Nat) (power : width = 1 ∨ width = 2 ∨ width = 4)
    : paddingOf (size % 2 ^ 32) width = paddingOf size width := by
  have same : size % 2 ^ 32 % width = size % width := by
    rcases power with rfl | rfl | rfl <;> omega
  rw [paddingOf, paddingOf, same]

theorem length_printHash (dataSize : cdbw.dataSize = cdbw.data.flatten.length)
    (state : State) (descr : List UInt8)
    : (printHash cdbw state descr).length
      = 40 + state.entries * computeSize state.entries + padding cdbw state
        + (cdbw.data.length + 1) * computeSize cdbw.dataSize + cdbw.dataSize := by
  rw [printHash_eq]
  simp only [List.length_append, length_header, length_indexTable, List.length_replicate,
    length_offsetTable, dataSize]

/-- The reader's pointer past the index table and the padding. -/
theorem offsetBase_eq (base table width : Nat)
    : (if table % width ≠ 0 then
        ptrAdd (ptrAdd (ptrAdd base 40) table) (width - table % width)
      else
        ptrAdd (ptrAdd base 40) table)
      = (base + (40 + table + paddingOf table width)) % 2 ^ 64 := by
  unfold paddingOf ptrAdd
  split <;> omega

/-- Every file written is accepted, whether or not the sizes of its tables wrap around. -/
theorem cdbrOpenMem_printHash {map : Mapping} (junk : Magic)
    (bytes : map.bytes = printHash cdbw state descr)
    (dataSize : cdbw.dataSize = cdbw.data.flatten.length) (dataSmall : cdbw.dataSize < 2 ^ 32)
    (count : cdbw.data.length + 1 < 2 ^ 32) (entries : state.entries < 2 ^ 32)
    : cdbrOpenMem junk map = some (opened junk map cdbw state) := by
  have start := bytes
  rw [printHash_eq] at start
  simp only [List.append_assoc] at start
  have h24 := header32_printHash start 0 rfl dataSmall
  have h28 := header32_printHash start 1 rfl (by omega : cdbw.data.length < 2 ^ 32)
  have h32 := header32_printHash start 2 rfl entries
  have h36 := header32_printHash start 3 rfl state.seed.isLt
  simp only [Nat.zero_mul, Nat.add_zero, Nat.reduceMul, Nat.reduceAdd] at h24 h28 h32 h36
  have total := bytes ▸ length_printHash dataSize state descr
  have magic : map.bytes.take 8 = [0x4e, 0x42, 0x43, 0x44, 0x42, 0x0a, 0, 1] := by
    rw [start]
    simp [header]
  have fits := map.fits
  have width := computeSize_cases cdbw.dataSize
  have pad := paddingOf_mod (state.entries * computeSize state.entries)
    (by omega : computeSize cdbw.dataSize = 1 ∨ computeSize cdbw.dataSize = 2
      ∨ computeSize cdbw.dataSize = 4)
  have table := Nat.mod_le (state.entries * computeSize state.entries) (2 ^ 32)
  have offsets := Nat.mod_le ((cdbw.data.length + 1) * computeSize cdbw.dataSize) (2 ^ 32)
  have more := Nat.mul_le_mul_right (computeSize cdbw.dataSize) (Nat.le_add_left 1 cdbw.data.length)
  rw [cdbrOpenMem, if_neg (by rw [magic]; simp only [ne_eq, not_true_eq_false, or_false]; omega)]
  simp only [h24, h28, h32, h36]
  rw [offsetBase_eq, pad, Nat.mod_eq_of_lt count, ← padding,
    Nat.mod_eq_of_lt (by omega : map.base + _ < 2 ^ 64)]
  have hashBase : ptrAdd map.base 40 = map.base + 40 := by unfold ptrAdd; omega
  have dataBase : ptrAdd
      (map.base + (40 + state.entries * computeSize state.entries % 2 ^ 32 + padding cdbw state))
      ((cdbw.data.length + 1) * computeSize cdbw.dataSize % 2 ^ 32)
      = (opened junk map cdbw state).dataBase := by
    simp only [ptrAdd, opened]
    omega
  have dataEnd : ptrAdd (opened junk map cdbw state).dataBase cdbw.dataSize
      = (opened junk map cdbw state).dataBase + cdbw.dataSize := by
    simp only [ptrAdd, opened]
    omega
  have mapEnd : ptrAdd map.base map.bytes.length = map.base + map.bytes.length :=
    Nat.mod_eq_of_lt fits
  rw [hashBase, dataBase, dataEnd, mapEnd, if_neg (by simp only [opened]; omega), BitVec.ofNat_toNat,
    BitVec.setWidth_eq]
  rfl

end BSDLibC.Cdb
