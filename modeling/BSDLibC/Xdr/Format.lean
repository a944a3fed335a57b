import BSDLibC.Codec.Sequence
import BSDLibC.Xdr.Filters

/-! The external data representation: the bytes of a value, and how the bytes of a value are taken
from the front of a byte string. Nothing here depends on where the bytes are.
-/

namespace BSDLibC.Xdr

open Bytes Codec

/-- The number of bytes an opaque object takes. -/
def padded (cnt : Nat) : Nat := cnt + rndup cnt

/-- An opaque object with its padding. -/
def opaqueBytes (value : List Byte) : List Byte := value ++ List.replicate (rndup value.length) 0

/-- A count. -/
def countBytes (n : Nat) : List Byte := beBytes (BitVec.ofNat 32 n)

/-- The bytes of a value. -/
def wire (host : Host) : (ty : Ty) → Val ty → List Byte
  | .int, value => beBytes value
  | .uInt, value => beBytes value
  | .short, value => beBytes (BitVec.signExtend 32 value)
  | .char, value =>
      beBytes (if host.signedChar then BitVec.signExtend 32 value else BitVec.setWidth 32 value)
  | .bool, value => beBytes (cond value 1 0)
  | .int64, value => beBytes (BitVec.extractLsb' 32 32 value) ++ beBytes (BitVec.extractLsb' 0 32 value)
  | .fixedBytes _, value => opaqueBytes value
  | .bytes _, value => countBytes (List.length value) ++ opaqueBytes value
  | .string _, none => []
  | .string _, some value => countBytes (List.length value) ++ opaqueBytes value
  | .array _ _ elem, values => countBytes (List.length values) ++ List.flatMap (wire host elem) values
  | .vector _ elem, values => List.flatMap (wire host elem) values

/-- A word from the front of the input. -/
def readWord : Reader Byte (BitVec 32) := fun input =>
  if input.length < 4 then none else some (beWord (input.take 4), input.drop 4)

/-- An opaque object from the front of the input; its padding is not looked at. -/
def readOpaque (cnt : Nat) : Reader Byte (List Byte) := fun input =>
  if input.length < padded cnt then none else some (input.take cnt, input.drop (padded cnt))

/-- A value from the front of the input. -/
def read : (ty : Ty) → Reader Byte (Val ty)
  | .int => readWord
  | .uInt => readWord
  | .short => fun input => (readWord input).map (fun p => (p.1.setWidth 16, p.2))
  | .char => fun input => (readWord input).map (fun p => (p.1.setWidth 8, p.2))
  | .bool => fun input => (readWord input).map (fun p => (p.1 != 0, p.2))
  | .int64 => fun input => do
      let (high, input) ← readWord input
      let (low, input) ← readWord input
      return (high ++ low, input)
  | .fixedBytes cnt => readOpaque cnt.toNat
  | .bytes maxsize => fun input => do
      let (size, input) ← readWord input
      if size > maxsize then none else readOpaque size.toNat input
  | .string maxsize => fun input => do
      let (size, input) ← readWord input
      if size > maxsize then
        none
      else if size + 1 = 0 then
        some (none, input)
      else
        (readOpaque size.toNat input).map (fun p => (some p.1, p.2))
  | .array maxsize elsize elem => fun input => do
      let (c, input) ← readWord input
      if tooMany maxsize c elsize then none else readMany (read elem) c.toNat input
  | .vector nelem elem => readMany (read elem) nelem.toNat

/-- Every element of an array has a property. -/
def Each {α : Type} (valid : α → Prop) (values : List α) : Prop := ∀ value ∈ values, valid value

/-- The lengths in a value are within the given maximum sizes. -/
def Within : (ty : Ty) → Val ty → Prop
  | .fixedBytes cnt, value => List.length value = cnt.toNat
  | .bytes maxsize, value => List.length value ≤ maxsize.toNat
  | .string _, none => True
  | .string maxsize, some value => List.length value ≤ maxsize.toNat
  | .array maxsize _ elem, values =>
      List.length values ≤ maxsize.toNat ∧ Each (Within elem) values
  | .vector nelem elem, values =>
      List.length values = nelem.toNat ∧ Each (Within elem) values
  | _, _ => True

/-- The strings in a value are strings. -/
def Proper : (ty : Ty) → Val ty → Prop
  | .string _, none => False
  | .string _, some value => (0 : Byte) ∉ (value : List Byte)
  | .array _ _ elem, values => Each (Proper elem) values
  | .vector _ elem, values => Each (Proper elem) values
  | _, _ => True

/-- The memory of every array in a value has a size that fits the `u_int` it is computed in. -/
def Fits : (ty : Ty) → Val ty → Prop
  | .array _ elsize elem, values =>
      List.length values ≤ (2 ^ 32 - 1) / (elsize : Nat) ∧ Each (Fits elem) values
  | .vector _ elem, values => Each (Fits elem) values
  | _, _ => True

theorem padded_mod (cnt : Nat) : padded cnt % 4 = 0 := by
  rw [padded, rndup]
  split <;> omega

@[simp]
theorem length_opaqueBytes (value : List Byte) : (opaqueBytes value).length = padded value.length := by
  simp [opaqueBytes, padded]

@[simp]
theorem length_countBytes (n : Nat) : (countBytes n).length = 4 := rfl

theorem length_flatMap_mod {α : Type} (write : α → List Byte) (values : List α)
    (units : ∀ value ∈ values, (write value).length % 4 = 0)
    : (values.flatMap write).length % 4 = 0 := by
  induction values with
  | nil => rfl
  | cons value values ih =>
      have first := units value List.mem_cons_self
      have others := ih (fun other h => units other (List.mem_cons_of_mem value h))
      rw [List.flatMap_cons, List.length_append]
      omega

/-- Every value takes full units. -/
theorem length_wire_mod (host : Host) (ty : Ty) (value : Val ty) : (wire host ty value).length % 4 = 0 := by
  induction ty with
  | int | uInt | short | char | bool | int64 => simp [wire]
  | fixedBytes cnt =>
      rw [wire, length_opaqueBytes]
      exact padded_mod _
  | bytes maxsize =>
      have := padded_mod (List.length value)
      rw [wire, List.length_append, length_opaqueBytes, length_countBytes]
      omega
  | string maxsize =>
      cases value with
      | none => rfl
      | some value =>
          have := padded_mod (List.length value)
          rw [wire, List.length_append, length_opaqueBytes, length_countBytes]
          omega
  | array maxsize elsize elem ih =>
      have := length_flatMap_mod (wire host elem) value (fun value _ => ih value)
      rw [wire, List.length_append, length_countBytes]
      omega
  | vector nelem elem ih => exact length_flatMap_mod (wire host elem) value (fun value _ => ih value)

theorem readWord_beBytes (word : BitVec 32) (rest : List Byte)
    : readWord (beBytes word ++ rest) = some (word, rest) := by
  rw [readWord, if_neg (by simp), List.take_left' (length_beBytes word),
    List.drop_left' (length_beBytes word), beWord_beBytes]

theorem readOpaque_opaqueBytes (value rest : List Byte)
    : readOpaque value.length (opaqueBytes value ++ rest) = some (value, rest) := by
  rw [readOpaque, if_neg (by simp), List.drop_left' (length_opaqueBytes value), opaqueBytes,
    List.append_assoc, List.take_left' rfl]

/-- The count of a value that is within its maximum size. -/
theorem toNat_count {n : Nat} {maxsize : BitVec 32} (within : n ≤ maxsize.toNat)
    : (BitVec.ofNat 32 n).toNat = n := by
  have := maxsize.isLt
  rw [BitVec.toNat_ofNat, Nat.mod_eq_of_lt (by omega)]

theorem not_count_gt {n : Nat} {maxsize : BitVec 32} (within : n ≤ maxsize.toNat)
    : ¬ BitVec.ofNat 32 n > maxsize := by
  rw [gt_iff_lt, BitVec.lt_def, toNat_count within]
  omega

theorem not_tooMany {n : Nat} {maxsize : BitVec 32} {elsize : ℕ+} (within : n ≤ maxsize.toNat)
    (fits : n ≤ (2 ^ 32 - 1) / (elsize : Nat))
    : ¬ tooMany maxsize (BitVec.ofNat 32 n) elsize := by
  rintro (above | above)
  · exact not_count_gt within above
  · rw [toNat_count within] at above
    omega

/-- What a filter needs of a value to give it back. -/
structure Sound (host : Host) (ty : Ty) (value : Val ty) : Prop where
  within : Within ty value
  proper : Proper ty value
  fits : Fits ty value
  short : (wire host ty value).length < 2 ^ 32

/-- The elements of a sound array are sound. -/
theorem sound_element (host : Host) {elem : Ty} {values : List (Val elem)}
    (within : Each (Within elem) values) (proper : Each (Proper elem) values)
    (fits : Each (Fits elem) values)
    (short : (values.flatMap (wire host elem)).length < 2 ^ 32)
    : Each (Sound host elem) values := by
  intro value member
  refine ⟨within value member, proper value member, fits value member, ?_⟩
  obtain ⟨before, after, rfl⟩ := List.append_of_mem member
  simp only [List.flatMap_append, List.flatMap_cons, List.length_append] at short
  omega

theorem setWidth_signExtend {w v : Nat} (value : BitVec w) (wider : w ≤ v)
    : (value.signExtend v).setWidth w = value := by
  ext i inside
  simp only [BitVec.getElem_setWidth, BitVec.getLsbD_signExtend]
  have : i < v := by omega
  simp [this, inside]

theorem setWidth_setWidth_self {w v : Nat} (value : BitVec w) (wider : w ≤ v)
    : (value.setWidth v).setWidth w = value := by
  rw [BitVec.setWidth_setWidth_of_le _ wider, BitVec.setWidth_eq]

theorem append_halves (value : BitVec 64)
    : value.extractLsb' 32 32 ++ value.extractLsb' 0 32 = value := by
  ext i inside
  have bit (j : Nat) (same : j = i) : value.getLsbD j = value[i] := by
    rw [same, BitVec.getLsbD_eq_getElem]
  simp only [BitVec.getElem_append, BitVec.getElem_extractLsb']
  split
  · exact bit _ (by omega)
  · exact bit _ (by omega)

/-- A value is read back from its bytes. -/
theorem read_inverts (host : Host) (ty : Ty) : Inverts (read ty) (wire host ty) (Sound host ty) := by
  induction ty with
  | int | uInt => exact fun value _ rest => readWord_beBytes value rest
  | short =>
      intro value _ rest
      simp only [read, wire, readWord_beBytes, Option.map_some]
      rw [setWidth_signExtend value (by decide)]
  | char =>
      intro value _ rest
      simp only [read, wire, readWord_beBytes, Option.map_some]
      split
      · rw [setWidth_signExtend value (by decide)]
      · rw [setWidth_setWidth_self value (by decide)]
  | bool =>
      intro value _ rest
      simp only [read, wire, readWord_beBytes, Option.map_some]
      cases value <;> rfl
  | int64 =>
      intro value _ rest
      simp only [read, wire, List.append_assoc, readWord_beBytes, Option.bind_eq_bind,
        Option.bind_some]
      exact congrArg some (Prod.ext (append_halves value) rfl)
  | fixedBytes cnt =>
      intro value sound rest
      have length : value.length = cnt.toNat := sound.within
      rw [read, wire, ← length, readOpaque_opaqueBytes]
  | bytes maxsize =>
      intro value sound rest
      have within : value.length ≤ maxsize.toNat := sound.within
      simp only [read, wire, countBytes, List.append_assoc, readWord_beBytes, Option.bind_eq_bind,
        Option.bind_some, if_neg (not_count_gt within), toNat_count within,
        readOpaque_opaqueBytes]
  | string maxsize =>
      intro value sound rest
      cases value with
      | none => exact absurd sound.proper id
      | some value =>
          have within : value.length ≤ maxsize.toNat := sound.within
          have short := sound.short
          rw [wire, List.length_append, length_countBytes, length_opaqueBytes, padded] at short
          have room : ¬ BitVec.ofNat 32 value.length + 1 = 0 := by
            intro wraps
            have sum := congrArg BitVec.toNat wraps
            rw [BitVec.toNat_add, toNat_count within] at sum
            have : (value.length + 1) % 2 ^ 32 = 0 := sum
            omega
          simp only [read, wire, countBytes, List.append_assoc, readWord_beBytes,
            Option.bind_eq_bind, Option.bind_some, if_neg (not_count_gt within), if_neg room,
            toNat_count within, readOpaque_opaqueBytes, Option.map_some]
  | array maxsize elsize elem ih =>
      intro values sound rest
      obtain ⟨within, each⟩ := sound.within
      have many : ¬ tooMany maxsize (BitVec.ofNat 32 values.length) elsize :=
        not_tooMany within sound.fits.1
      have short := sound.short
      rw [wire, List.length_append] at short
      have elements := sound_element host each sound.proper sound.fits.2 (by omega)
      simp only [read, wire, countBytes, List.append_assoc, readWord_beBytes, Option.bind_eq_bind,
        Option.bind_some, if_neg many, toNat_count within]
      exact ih.many values elements rest
  | vector nelem elem ih =>
      intro values sound rest
      obtain ⟨length, each⟩ := sound.within
      rw [read, wire, ← length]
      exact ih.many values (sound_element host each sound.proper sound.fits sound.short) rest

theorem length_readOpaque {cnt : Nat} {input value rest : List Byte}
    (done : readOpaque cnt input = some (value, rest))
    : value.length = cnt := by
  rw [readOpaque] at done
  split at done
  · cases done
  · cases done
    have : cnt ≤ padded cnt := Nat.le_add_right ..
    rw [List.length_take]
    omega

/-- A length that is read is within its maximum size. -/
theorem read_yields (ty : Ty) : Yields (read ty) (Within ty) := by
  induction ty with
  | int | uInt | short | char | bool | int64 => exact fun _ _ _ _ => trivial
  | fixedBytes cnt => exact fun input value rest done => length_readOpaque done
  | bytes maxsize =>
      intro input value rest done
      obtain ⟨⟨size, input'⟩, -, done⟩ := Option.bind_eq_some_iff.mp done
      simp only at done
      split at done
      · cases done
      next small =>
      rw [Within, length_readOpaque done]
      exact BitVec.not_lt.mp small
  | string maxsize =>
      intro input value rest done
      obtain ⟨⟨size, input'⟩, -, done⟩ := Option.bind_eq_some_iff.mp done
      simp only at done
      split at done
      · cases done
      next small =>
      split at done
      · cases done
        trivial
      · obtain ⟨⟨text, rest'⟩, taken, same⟩ := Option.map_eq_some_iff.mp done
        cases same
        rw [Within, length_readOpaque taken]
        exact BitVec.not_lt.mp small
  | array maxsize elsize elem ih =>
      intro input values rest done
      obtain ⟨⟨c, input'⟩, -, done⟩ := Option.bind_eq_some_iff.mp done
      simp only at done
      split at done
      · cases done
      next few =>
      obtain ⟨length, each⟩ := ih.many c.toNat input' values rest done
      refine ⟨?_, each⟩
      rw [length]
      exact BitVec.not_lt.mp fun above => few (.inl above)
  | vector nelem elem ih =>
      intro input values rest done
      exact ih.many nelem.toNat input values rest done

end BSDLibC.Xdr
