import BSDLibC.Xdr.RoundTrip

/-! The filters on a stream of any kind, which they know by its table of operations only, and the size
of an encoding by `xdr_sizeof.c`, which is such a stream.
-/

namespace BSDLibC.Xdr

open Bytes Codec

/-- `struct xdr_ops`, what the filters call to encode. -/
structure PutOps (σ : Type) where
  xPutlong : σ → BitVec 64 → Except Fail σ
  xPutbytes : σ → List Byte → Except Fail σ

/-- `struct xdr_ops`, what the filters call to decode. -/
structure GetOps (σ : Type) where
  xGetlong : σ → Except Fail (BitVec 64 × σ)
  xGetbytes : σ → Nat → Except Fail (List Byte × σ)

variable {σ α β : Type}

-----------------------------------------------------------------------------------------
-- The filters
-----------------------------------------------------------------------------------------

namespace PutOps

variable (ops : PutOps σ)

/-- The integer filters; the value goes through a `long`. -/
def integer (signed : Bool) {w : Nat} (value : BitVec w) (xdrs : σ) : Except Fail σ :=
  ops.xPutlong xdrs (if signed then value.signExtend 64 else value.setWidth 64)

/-- `xdr_opaque` -/
def opaqueObject (cp : List Byte) (cnt : Nat) (xdrs : σ) : Except Fail σ :=
  if cnt = 0 then
    .ok xdrs
  else do
    let xdrs ← ops.xPutbytes xdrs (cp.take cnt)
    if rndup cnt = 0 then
      return xdrs
    else
      ops.xPutbytes xdrs (List.replicate (rndup cnt) 0)

/-- The elements of an array one after the other. -/
def elements (elproc : α → σ → Except Fail σ) : List α → σ → Except Fail σ
  | [], xdrs => .ok xdrs
  | value :: values, xdrs => do
      let xdrs ← elproc value xdrs
      elements elproc values xdrs

/-- A count that is within a bound, and what is counted -/
def counted (count : BitVec 32) (larger : Prop) [Decidable larger] (body : σ → Except Fail σ) (xdrs : σ)
    : Except Fail σ := do
  let xdrs ← ops.integer false count xdrs
  if larger then .error .refused else body xdrs

/-- `xdr_string`; the length of a null pointer is a fault. -/
def string (maxsize : BitVec 32) : Option (List Byte) → σ → Except Fail σ
  | none, _ => .error .fault
  | some sp, xdrs =>
      let size := BitVec.ofNat 32 (strlen sp)
      ops.counted size (size > maxsize) (ops.opaqueObject sp size.toNat) xdrs

/-- A filter applied to a value. -/
def encode (signedChar : Bool) : (ty : Ty) → Val ty → σ → Except Fail σ
  | .int, value => ops.integer true value
  | .uInt, value => ops.integer false value
  | .short, value => ops.integer true value
  | .char, value => fun xdrs =>
      ops.integer true (if signedChar then BitVec.signExtend 32 value else BitVec.setWidth 32 value) xdrs
  | .bool, value => fun xdrs => ops.xPutlong xdrs (cond value 1 0)
  | .int64, value => fun xdrs => do
      let xdrs ← ops.xPutlong xdrs ((value >>> 32) &&& 0xffffffff#64)
      ops.xPutlong xdrs (value &&& 0xffffffff#64)
  | .fixedBytes cnt, value => ops.opaqueObject value cnt.toNat
  | .bytes maxsize, value =>
      let size := BitVec.ofNat 32 (List.length value)
      ops.counted size (size > maxsize) (ops.opaqueObject value size.toNat)
  | .string maxsize, value => ops.string maxsize value
  | .array maxsize elsize elem, values =>
      let c := BitVec.ofNat 32 (List.length values)
      ops.counted c (tooMany maxsize c elsize) (elements (encode signedChar elem) (List.take c.toNat values))
  | .vector nelem elem, values => elements (encode signedChar elem) (List.take nelem.toNat values)

end PutOps

namespace GetOps

variable (ops : GetOps σ)

/-- The integer filters -/
def integer (w : Nat) (xdrs : σ) : Except Fail (BitVec w × σ) := do
  let (l, xdrs) ← ops.xGetlong xdrs
  return (l.setWidth w, xdrs)

/-- `xdr_opaque` -/
def opaqueObject (cnt : Nat) (xdrs : σ) : Except Fail (List Byte × σ) :=
  if cnt = 0 then
    .ok ([], xdrs)
  else do
    let (cp, xdrs) ← ops.xGetbytes xdrs cnt
    if rndup cnt = 0 then
      return (cp, xdrs)
    else do
      let (_, xdrs) ← ops.xGetbytes xdrs (rndup cnt)
      return (cp, xdrs)

/-- The elements of an array one after the other. -/
def elements (elproc : σ → Except Fail (α × σ)) : Nat → σ → Except Fail (List α × σ)
  | 0, xdrs => .ok ([], xdrs)
  | n + 1, xdrs => do
      let (value, xdrs) ← elproc xdrs
      let (values, xdrs) ← elements elproc n xdrs
      return (value :: values, xdrs)

/-- The object behind a count. -/
def sized (maxsize : BitVec 32) (body : BitVec 32 → σ → Except Fail (α × σ)) (xdrs : σ)
    : Except Fail (α × σ) := do
  let (size, xdrs) ← ops.integer 32 xdrs
  if size > maxsize then .error .refused else body size xdrs

/-- A filter filling in a value. -/
def decode : (ty : Ty) → σ → Except Fail (Val ty × σ)
  | .int => ops.integer 32
  | .uInt => ops.integer 32
  | .short => ops.integer 16
  | .char => fun xdrs => do
      let (i, xdrs) ← ops.integer 32 xdrs
      return (i.setWidth 8, xdrs)
  | .bool => fun xdrs => do
      let (lb, xdrs) ← ops.xGetlong xdrs
      return (lb != 0, xdrs)
  | .int64 => fun xdrs => do
      let (high, xdrs) ← ops.xGetlong xdrs
      let (low, xdrs) ← ops.xGetlong xdrs
      return ((high <<< 32) ||| low, xdrs)
  | .fixedBytes cnt => ops.opaqueObject cnt.toNat
  | .bytes maxsize => ops.sized maxsize fun size => ops.opaqueObject size.toNat
  | .string maxsize => ops.sized maxsize fun size xdrs =>
      if size + 1 = 0 then
        .ok (none, xdrs)
      else do
        let (sp, xdrs) ← ops.opaqueObject size.toNat xdrs
        return (some sp, xdrs)
  | .array maxsize elsize elem => fun xdrs => do
      let (c, xdrs) ← ops.integer 32 xdrs
      if tooMany maxsize c elsize then .error .refused else elements (decode elem) c.toNat xdrs
  | .vector nelem elem => elements (decode elem) nelem.toNat

end GetOps

/-- The table of a memory stream. -/
def memoryPut (host : Host) : PutOps Handle where
  xPutlong := xdrPutlong host
  xPutbytes := xdrmemPutbytes

def memoryGet (host : Host) : GetOps Handle where
  xGetlong := xdrGetlong host
  xGetbytes := xdrmemGetbytes

/-- `sizeof` streams: `x_handy` counts, and wraps around. -/
def sizePut : PutOps (BitVec 32) where
  xPutlong xHandy _ := .ok (xHandy + 4)
  xPutbytes xHandy bytes := .ok (xHandy + BitVec.ofNat 32 bytes.length)

/-- `xdr_sizeof` -/
def xdrSizeof (host : Host) (ty : Ty) (value : Val ty) : Except Fail (BitVec 32) :=
  match sizePut.encode host.signedChar ty value 0 with
  | .ok xHandy => .ok xHandy
  | .error .refused => .ok 0
  | .error .fault => .error .fault

-----------------------------------------------------------------------------------------
-- Encoding
-----------------------------------------------------------------------------------------

theorem strlen_of_proper {value : List Byte} (proper : (0 : Byte) ∉ value) : strlen value = value.length := by
  rw [strlen, List.takeWhile_eq_self_iff.mpr]
  intro byte member
  have : byte ≠ 0 := fun zero => proper (zero ▸ member)
  simpa using this

theorem elements_eq (elproc : α → Handle → Except Fail Handle) (values : List α) (xdrs : Handle)
    : PutOps.elements elproc values xdrs = encodeElements elproc values xdrs := by
  induction values generalizing xdrs with
  | nil => rfl
  | cons value values ih =>
      simp only [PutOps.elements, encodeElements, ih]

/-- On a memory stream the filters are the ones for memory streams. -/
theorem encode_memoryPut (host : Host) (ty : Ty)
    : (memoryPut host).encode host.signedChar ty = encode host ty := by
  induction ty with
  | int | uInt | short | fixedBytes cnt | bytes maxsize | int64 => rfl
  | char => rfl
  | bool =>
      funext value xdrs
      cases value <;> rfl
  | string maxsize =>
      funext value xdrs
      cases value <;> rfl
  | array maxsize elsize elem ih =>
      funext values xdrs
      rw [PutOps.encode, encode, ih]
      simp only [PutOps.counted, xdrArrayEncode, elements_eq]
      rfl
  | vector nelem elem ih =>
      funext values xdrs
      rw [PutOps.encode, encode, ih, elements_eq]
      rfl

/-- A stream that takes all bytes: its states hold what was put into them. -/
structure Takes (ops : PutOps σ) (holds : σ → List Byte → Prop) : Prop where
  putlong : ∀ {xdrs content}, holds xdrs content → ∀ l,
    ∃ xdrs', ops.xPutlong xdrs l = .ok xdrs' ∧ holds xdrs' (content ++ beBytes (l.setWidth 32))
  putbytes : ∀ {xdrs content}, holds xdrs content → ∀ bytes,
    ∃ xdrs', ops.xPutbytes xdrs bytes = .ok xdrs' ∧ holds xdrs' (content ++ bytes)

/-- What an encoding does on such a stream: it puts bytes unless it is refused. -/
structure Puts (holds : σ → List Byte → Prop) (content : List Byte) (result : Except Fail σ) (fits : Prop)
    (bytes : List Byte)
    : Prop where
  put : fits → ∃ xdrs', result = .ok xdrs' ∧ holds xdrs' (content ++ bytes)
  refused : ¬ fits → result = .error .refused

section

variable {ops : PutOps σ} {holds : σ → List Byte → Prop} (takes : Takes ops holds)

theorem Puts.bind {content bytes bytes' : List Byte} {result : Except Fail σ} {fits fits' : Prop}
    (puts : Puts holds content result fits bytes) (next : σ → Except Fail σ)
    (step : ∀ xdrs', holds xdrs' (content ++ bytes) → Puts holds (content ++ bytes) (next xdrs') fits' bytes')
    : Puts holds content (result >>= next) (fits ∧ fits') (bytes ++ bytes') := by
  constructor
  · rintro ⟨first, second⟩
    obtain ⟨xdrs', done, held⟩ := puts.put first
    rw [done, ← List.append_assoc]
    exact (step xdrs' held).put second
  · intro not
    by_cases first : fits
    · obtain ⟨xdrs', done, held⟩ := puts.put first
      rw [done]
      exact (step xdrs' held).refused fun second => not ⟨first, second⟩
    · rw [puts.refused first]
      rfl

theorem puts_nil {content : List Byte} {xdrs : σ} (held : holds xdrs content)
    : Puts holds content (.ok xdrs) True [] :=
  ⟨fun _ => ⟨xdrs, rfl, by rwa [List.append_nil]⟩, fun not => absurd trivial not⟩

include takes

theorem puts_long {content : List Byte} {xdrs : σ} (held : holds xdrs content) (l : BitVec 64)
    : Puts holds content (ops.xPutlong xdrs l) True (beBytes (l.setWidth 32)) :=
  ⟨fun _ => takes.putlong held l, fun not => absurd trivial not⟩

theorem puts_bytes {content : List Byte} {xdrs : σ} (held : holds xdrs content) (bytes : List Byte)
    : Puts holds content (ops.xPutbytes xdrs bytes) True bytes :=
  ⟨fun _ => takes.putbytes held bytes, fun not => absurd trivial not⟩

theorem puts_integer {content : List Byte} {xdrs : σ} (held : holds xdrs content) (signed : Bool) {w : Nat}
    (value : BitVec w)
    : Puts holds content (ops.integer signed value xdrs) True
        (beBytes (if signed then value.signExtend 32 else value.setWidth 32)) := by
  have puts := puts_long takes held (if signed then value.signExtend 64 else value.setWidth 64)
  cases signed with
  | true =>
      simp only [if_true, setWidth_signExtend_word value] at puts ⊢
      exact puts
  | false =>
      simp only [Bool.false_eq_true, if_false] at puts ⊢
      rwa [BitVec.setWidth_setWidth_of_le value (by decide)] at puts

theorem puts_object {content : List Byte} {xdrs : σ} (held : holds xdrs content) (value : List Byte)
    : Puts holds content (ops.opaqueObject value value.length xdrs) True (opaqueBytes value) := by
  rw [PutOps.opaqueObject, opaqueBytes, List.take_length]
  split
  · next empty =>
    rw [List.eq_nil_of_length_eq_zero empty]
    exact puts_nil held
  · have padding (xdrs' : σ) (held' : holds xdrs' (content ++ value))
        : Puts holds (content ++ value)
            (if rndup value.length = 0 then pure xdrs'
              else ops.xPutbytes xdrs' (List.replicate (rndup value.length) 0))
            True (List.replicate (rndup value.length) 0) := by
      split
      · next full =>
        rw [full]
        exact puts_nil held'
      · exact puts_bytes takes held' _
    have both := (puts_bytes takes held value).bind
      (fun xdrs =>
        if rndup value.length = 0 then pure xdrs
        else ops.xPutbytes xdrs (List.replicate (rndup value.length) 0)) padding
    simpa only [and_true] using both

omit takes in
theorem puts_elements {elproc : α → σ → Except Fail σ} {fits : α → Prop} {write : α → List Byte}
    (values : List α)
    (element : ∀ value ∈ values, ∀ xdrs content, holds xdrs content →
      Puts holds content (elproc value xdrs) (fits value) (write value))
    : ∀ {xdrs content}, holds xdrs content →
      Puts holds content (PutOps.elements elproc values xdrs) (Each fits values)
        (values.flatMap write) := by
  induction values with
  | nil =>
      intro xdrs content held
      have nil := puts_nil held
      exact ⟨fun _ => nil.put trivial, fun not => absurd (fun _ member => by simp at member) not⟩
  | cons value values ih =>
      intro xdrs content held
      have each : Each fits (value :: values) ↔ fits value ∧ Each fits values := List.forall_mem_cons
      rw [each, List.flatMap_cons]
      exact (element value List.mem_cons_self xdrs content held).bind (PutOps.elements elproc values)
        fun xdrs' held' => ih (fun other h => element other (List.mem_cons_of_mem value h)) held'

theorem puts_counted {content : List Byte} {xdrs : σ} (held : holds xdrs content) (n : Nat) {larger fits : Prop}
    [Decidable larger] {body : σ → Except Fail σ} {bytes : List Byte}
    (step : ¬ larger → ∀ xdrs' content', holds xdrs' content' → Puts holds content' (body xdrs') fits bytes)
    : Puts holds content (ops.counted (BitVec.ofNat 32 n) larger body xdrs) (¬ larger ∧ fits)
        (countBytes n ++ bytes) := by
  have count := puts_integer takes held false (BitVec.ofNat 32 n)
  simp only [Bool.false_eq_true, if_false, BitVec.setWidth_eq] at count
  have rest (xdrs' : σ) (held' : holds xdrs' (content ++ countBytes n))
      : Puts holds (content ++ countBytes n) (if larger then .error .refused else body xdrs') (¬ larger ∧ fits)
          bytes := by
    split
    · next large => exact ⟨fun fits => absurd large fits.1, fun _ => rfl⟩
    · next small =>
      rw [and_iff_right small]
      exact step small xdrs' _ held'
  have both := count.bind (fun xdrs => if larger then .error .refused else body xdrs) rest
  rwa [true_and] at both

/-- A counted object that is within its maximum size. -/
theorem puts_sized {content : List Byte} {xdrs : σ} (held : holds xdrs content) {value : List Byte}
    {maxsize : BitVec 32} (within : value.length ≤ maxsize.toNat)
    : Puts holds content
        (ops.counted (BitVec.ofNat 32 value.length) (BitVec.ofNat 32 value.length > maxsize)
          (ops.opaqueObject value (BitVec.ofNat 32 value.length).toNat) xdrs)
        True (countBytes value.length ++ opaqueBytes value) := by
  have puts := puts_counted takes held value.length
    (fun (_ : ¬ BitVec.ofNat 32 value.length > maxsize) _ _ held' => puts_object takes held' value)
  rw [and_true] at puts
  rw [toNat_count within]
  exact ⟨fun _ => puts.put (not_count_gt within), fun not => absurd trivial not⟩

/-- On every stream that takes all bytes a filter puts the bytes of the format. -/
theorem Takes.encode (host : Host) (ty : Ty)
    : ∀ {value : Val ty}, Within ty value → Proper ty value → ∀ {xdrs content}, holds xdrs content →
      Puts holds content (ops.encode host.signedChar ty value xdrs) (Fits ty value)
        (wire host ty value) := by
  induction ty with
  | int =>
      intro value _ _ xdrs content held
      have puts := puts_integer takes held true value
      simp only [if_true, BitVec.signExtend_eq] at puts
      exact puts
  | uInt =>
      intro value _ _ xdrs content held
      have puts := puts_integer takes held false value
      simp only [Bool.false_eq_true, if_false, BitVec.setWidth_eq] at puts
      exact puts
  | short => exact fun _ _ _ _ held => puts_integer takes held true _
  | char =>
      intro value _ _ xdrs content held
      have puts := puts_integer takes held true
        (if host.signedChar then value.signExtend 32 else value.setWidth 32)
      simp only [if_true, BitVec.signExtend_eq] at puts
      exact puts
  | bool =>
      intro value _ _ xdrs content held
      cases value
      · exact puts_long takes held 0
      · exact puts_long takes held 1
  | int64 =>
      intro value _ _ xdrs content held
      have both := (puts_long takes held ((value >>> 32) &&& 0xffffffff#64)).bind
        (fun xdrs => ops.xPutlong xdrs (value &&& 0xffffffff#64))
        (fun xdrs' held' => puts_long takes held' _)
      have low := setWidth_mask value 0
      rw [BitVec.ushiftRight_zero] at low
      rw [and_self, setWidth_mask, low] at both
      exact both
  | fixedBytes cnt =>
      intro value within _ xdrs content held
      have length : List.length value = cnt.toNat := within
      rw [PutOps.encode, ← length]
      exact puts_object takes held value
  | bytes maxsize => exact fun within _ _ _ held => puts_sized takes held within
  | string maxsize =>
      intro value within proper xdrs content held
      cases value with
      | none => exact absurd proper id
      | some value =>
          rw [PutOps.encode, PutOps.string, strlen_of_proper proper]
          exact puts_sized takes held within
  | array maxsize elsize elem ih =>
      intro values within proper xdrs content held
      obtain ⟨length, each⟩ := within
      have many : ¬ tooMany maxsize (BitVec.ofNat 32 values.length) elsize
          ↔ values.length ≤ (2 ^ 32 - 1) / (elsize : Nat) := by
        rw [tooMany, toNat_count length, or_iff_right (not_count_gt length), Nat.not_lt]
      have puts := puts_counted takes held values.length
        (fun (_ : ¬ tooMany maxsize (BitVec.ofNat 32 values.length) elsize) _ _ held' =>
          puts_elements values
            (fun value member _ _ held => ih (each value member) (proper value member) held) held')
      rw [many] at puts
      rw [PutOps.encode, toNat_count length, List.take_length]
      exact puts
  | vector nelem elem ih =>
      intro values within proper xdrs content held
      obtain ⟨length, each⟩ := within
      rw [PutOps.encode, ← length, List.take_length]
      exact puts_elements values
        (fun value member _ _ held => ih (each value member) (proper value member) held) held

end

-----------------------------------------------------------------------------------------
-- Decoding
-----------------------------------------------------------------------------------------

theorem get_elements_eq (elproc : Handle → Except Fail (α × Handle)) (n : Nat) (xdrs : Handle)
    : GetOps.elements elproc n xdrs = decodeElements elproc n xdrs := by
  induction n generalizing xdrs with
  | zero => rfl
  | succ n ih => simp only [GetOps.elements, decodeElements, ih]

/-- On a memory stream the filters are the ones for memory streams. -/
theorem decode_memoryGet (host : Host) (ty : Ty) : (memoryGet host).decode ty = decode host ty := by
  induction ty with
  | int | uInt | short | char | bool | int64 | fixedBytes cnt | bytes maxsize | string maxsize => rfl
  | array maxsize elsize elem ih =>
      funext xdrs
      rw [GetOps.decode, decode, ih]
      simp only [get_elements_eq]
      rfl
  | vector nelem elem ih =>
      funext xdrs
      rw [GetOps.decode, decode, ih, get_elements_eq]
      rfl

/-- What a step does that takes a value from the front of what is left. -/
def Obtains (left : σ → List Byte → Prop) (result : Except Fail (α × σ)) : Option (α × List Byte) → Prop
  | none => result = .error .refused
  | some (value, rest) => ∃ xdrs', result = .ok (value, xdrs') ∧ left xdrs' rest

/-- A stream that supplies the bytes that are left, or refuses if they are too few. -/
structure Supplies (ops : GetOps σ) (left : σ → List Byte → Prop) : Prop where
  getlong : ∀ {xdrs content}, left xdrs content →
    Obtains left (ops.xGetlong xdrs) ((readWord content).map fun p => (p.1.setWidth 64, p.2))
  getbytes : ∀ {xdrs content}, left xdrs content → ∀ len,
    Obtains left (ops.xGetbytes xdrs len)
      (if len ≤ content.length then some (content.take len, content.drop len) else none)

section

variable {ops : GetOps σ} {left : σ → List Byte → Prop} (supplies : Supplies ops left) {xdrs : σ}
  {content : List Byte}

theorem Obtains.map {result : Except Fail (α × σ)} {parsed : Option (α × List Byte)}
    (got : Obtains left result parsed) (f : α → β)
    : Obtains left (result >>= fun p => .ok (f p.1, p.2)) (parsed.map fun p => (f p.1, p.2)) := by
  cases parsed with
  | none =>
      rw [show result = .error .refused from got]
      rfl
  | some p =>
      obtain ⟨xdrs', done, rest⟩ := got
      rw [done]
      exact ⟨xdrs', rfl, rest⟩

/-- Two steps one after the other. -/
theorem Obtains.bind {result : Except Fail (α × σ)} {parsed : Option (α × List Byte)}
    (got : Obtains left result parsed) (next : α → σ → Except Fail (β × σ))
    (follow : α → List Byte → Option (β × List Byte))
    (step : ∀ value xdrs' rest, left xdrs' rest → Obtains left (next value xdrs') (follow value rest))
    : Obtains left (result >>= fun p => next p.1 p.2) (parsed >>= fun p => follow p.1 p.2) := by
  cases parsed with
  | none =>
      rw [show result = .error .refused from got]
      rfl
  | some p =>
      obtain ⟨xdrs', done, rest⟩ := got
      rw [done]
      exact step p.1 xdrs' p.2 rest

theorem obtains_elements {elproc : σ → Except Fail (α × σ)} {read : Reader Byte α}
    (element : ∀ xdrs content, left xdrs content → Obtains left (elproc xdrs) (read content)) (n : Nat)
    : ∀ {xdrs content}, left xdrs content →
      Obtains left (GetOps.elements elproc n xdrs) (readMany read n content) := by
  induction n with
  | zero => exact fun here => ⟨_, rfl, here⟩
  | succ n ih =>
      intro xdrs content here
      refine (element xdrs content here).bind
        (fun value xdrs => GetOps.elements elproc n xdrs >>= fun p => .ok (value :: p.1, p.2))
        (fun value input => (readMany read n input).bind fun p => some (value :: p.1, p.2)) ?_
      intro value xdrs' rest here'
      have mapped := (ih here').map (fun values => value :: values)
      rwa [Option.map_eq_bind] at mapped

include supplies

theorem obtains_integer (here : left xdrs content) {w : Nat} (narrow : w ≤ 64)
    : Obtains left (ops.integer w xdrs) ((readWord content).map fun p => (p.1.setWidth w, p.2)) := by
  have mapped := (supplies.getlong here).map (fun l => l.setWidth w)
  simp only [Option.map_map, Function.comp_def, BitVec.setWidth_setWidth_of_le _ narrow] at mapped
  exact mapped

theorem obtains_word (here : left xdrs content) : Obtains left (ops.integer 32 xdrs) (readWord content) := by
  have got := obtains_integer supplies here (show 32 ≤ 64 by decide)
  simp only [BitVec.setWidth_eq, Prod.mk.eta, Option.map_id'] at got
  exact got

theorem obtains_object (here : left xdrs content) (cnt : Nat)
    : Obtains left (ops.opaqueObject cnt xdrs) (readOpaque cnt content) := by
  have whole : padded cnt = cnt + rndup cnt := rfl
  rw [GetOps.opaqueObject, readOpaque]
  split
  · next zero =>
    subst zero
    rw [if_neg (by simp [padded, rndup])]
    exact ⟨xdrs, rfl, here⟩
  have first := supplies.getbytes here cnt
  by_cases short : content.length < cnt
  · rw [if_neg (by omega)] at first
    rw [if_pos (by omega), show ops.xGetbytes xdrs cnt = _ from first]
    rfl
  rw [if_pos (by omega)] at first
  obtain ⟨xdrs', done, rest⟩ := first
  rw [done]
  simp only [bind, Except.bind]
  by_cases full : rndup cnt = 0
  · rw [if_pos full, if_neg (by omega), whole, full, Nat.add_zero]
    exact ⟨xdrs', rfl, rest⟩
  have second := supplies.getbytes rest (rndup cnt)
  rw [List.length_drop] at second
  by_cases cut : content.length < padded cnt
  · rw [if_neg (by omega)] at second
    rw [if_neg full, if_pos cut, show ops.xGetbytes xdrs' (rndup cnt) = _ from second]
    rfl
  · rw [if_pos (by omega), List.drop_drop] at second
    obtain ⟨xdrs'', done', rest'⟩ := second
    rw [if_neg full, if_neg cut, done']
    exact ⟨xdrs'', rfl, rest'⟩

/-- On every stream that supplies what is left of its bytes, a filter reads them as the format says. -/
theorem Supplies.decode (ty : Ty)
    : ∀ {xdrs content}, left xdrs content → Obtains left (ops.decode ty xdrs) (read ty content) := by
  induction ty with
  | int | uInt => exact fun here => obtains_word supplies here
  | short => exact fun here => obtains_integer supplies here (by decide)
  | char => exact fun here => (obtains_word supplies here).map (fun i => i.setWidth 8)
  | bool =>
      intro xdrs content here
      have mapped := (supplies.getlong here).map (fun lb => lb != 0)
      simp only [Option.map_map, Function.comp_def, setWidth_bne_zero] at mapped
      exact mapped
  | int64 =>
      intro xdrs content here
      have both := (supplies.getlong here).bind
        (fun high xdrs => ops.xGetlong xdrs >>= fun p => .ok ((high <<< 32) ||| p.1, p.2))
        (fun high input =>
          ((readWord input).map (fun p => (p.1.setWidth 64, p.2))).map
            (fun p => ((high <<< 32) ||| p.1, p.2)))
        (fun high _ _ here' => (supplies.getlong here').map (fun low => (high <<< 32) ||| low))
      simp only [Option.map_map, Function.comp_def, Option.bind_eq_bind, Option.bind_map,
        shiftLeft_or_eq_append] at both
      simp only [Option.map_eq_bind] at both
      exact both
  | fixedBytes cnt => exact fun here => obtains_object supplies here cnt.toNat
  | bytes maxsize =>
      intro xdrs content here
      refine (obtains_word supplies here).bind
        (fun size xdrs => if size > maxsize then .error .refused else ops.opaqueObject size.toNat xdrs)
        (fun size input => if size > maxsize then none else readOpaque size.toNat input) ?_
      intro size xdrs' rest here'
      split
      · rfl
      · exact obtains_object supplies here' size.toNat
  | string maxsize =>
      intro xdrs content here
      refine (obtains_word supplies here).bind
        (fun size xdrs =>
          if size > maxsize then .error .refused
          else if size + 1 = 0 then .ok (none, xdrs)
          else ops.opaqueObject size.toNat xdrs >>= fun p => .ok (some p.1, p.2))
        (fun size input =>
          if size > maxsize then none
          else if size + 1 = 0 then some (none, input)
          else (readOpaque size.toNat input).map (fun p => (some p.1, p.2))) ?_
      intro size xdrs' rest here'
      split
      · rfl
      split
      · exact ⟨xdrs', rfl, here'⟩
      · exact (obtains_object supplies here' size.toNat).map some
  | array maxsize elsize elem ih =>
      intro xdrs content here
      refine (obtains_word supplies here).bind
        (fun c xdrs =>
          if tooMany maxsize c elsize then .error .refused
          else GetOps.elements (ops.decode elem) c.toNat xdrs)
        (fun c input =>
          if tooMany maxsize c elsize then none else readMany (read elem) c.toNat input) ?_
      intro c xdrs' rest here'
      split
      · rfl
      · exact obtains_elements (fun _ _ here => ih here) c.toNat here'
  | vector nelem elem ih =>
      exact fun here => obtains_elements (fun _ _ here => ih here) nelem.toNat here

end

-----------------------------------------------------------------------------------------
-- Sizes
-----------------------------------------------------------------------------------------

theorem takes_size : Takes sizePut fun xHandy content => xHandy = BitVec.ofNat 32 content.length := by
  constructor
  · rintro xHandy content rfl l
    refine ⟨_, rfl, ?_⟩
    rw [List.length_append, length_beBytes, BitVec.ofNat_add]
    rfl
  · rintro xHandy content rfl bytes
    refine ⟨_, rfl, ?_⟩
    rw [List.length_append, BitVec.ofNat_add]

end BSDLibC.Xdr
