import BSDLibC.Xdr.Format
import Mathlib.Data.List.TakeWhile

/-! The filters on a memory stream do what the format says, whichever table of operations the
address of the buffer selects: values come back, and no buffer makes a filter read outside it.
-/

namespace BSDLibC.Xdr

open Bytes Codec

variable {α β : Type} {xdrs : Handle}

/-- A decoding step does at the cursor what a reader does with what is left behind it. -/
def Reads (xdrs : Handle) (result : Except Fail (α × Handle)) : Option (α × List Byte) → Prop
  | none => result = .error .refused
  | some (value, rest) =>
      ∃ n ≤ xdrs.handy, n % 4 = 0 ∧ result = .ok (value, xdrs.skip n) ∧ rest = xdrs.rest.drop n

theorem Reads.map {result : Except Fail (α × Handle)} {parsed : Option (α × List Byte)}
    (reads : Reads xdrs result parsed) (f : α → β)
    : Reads xdrs (result >>= fun p => .ok (f p.1, p.2)) (parsed.map (fun p => (f p.1, p.2))) := by
  cases parsed with
  | none =>
      rw [show result = .error .refused from reads]
      rfl
  | some p =>
      obtain ⟨n, left, units, done, rest⟩ := reads
      rw [done]
      exact ⟨n, left, units, rfl, rest⟩

/-- Two decoding steps one after the other. -/
theorem Reads.bind (good : Good xdrs) {result : Except Fail (α × Handle)}
    {parsed : Option (α × List Byte)} (reads : Reads xdrs result parsed)
    (next : α → Handle → Except Fail (β × Handle))
    (follow : α → List Byte → Option (β × List Byte))
    (step : ∀ value (xdrs' : Handle), Good xdrs' →
      Reads xdrs' (next value xdrs') (follow value xdrs'.rest))
    : Reads xdrs (result >>= fun p => next p.1 p.2) (parsed >>= fun p => follow p.1 p.2) := by
  cases parsed with
  | none =>
      rw [show result = .error .refused from reads]
      rfl
  | some p =>
      obtain ⟨value, rest⟩ := p
      obtain ⟨n, left, units, done, same⟩ := reads
      have after := step value (xdrs.skip n) (good.skip left units)
      rw [done, same, ← good.rest_skip]
      show Reads xdrs (next value (xdrs.skip n)) (follow value (xdrs.skip n).rest)
      generalize follow value (xdrs.skip n).rest = parsed' at after
      cases parsed' with
      | none => exact after
      | some p' =>
          obtain ⟨m, left', units', done', same'⟩ := after
          have fewer : m ≤ xdrs.handy - n := left'
          refine ⟨n + m, by omega, by omega, ?_, ?_⟩
          · rw [done', skip_skip]
          · rw [same', good.rest_skip, List.drop_drop]

theorem reads_getlong (good : Good xdrs) (host : Host)
    : Reads xdrs (xdrGetlong host xdrs)
        ((readWord xdrs.rest).map (fun p => (p.1.setWidth 64, p.2))) := by
  rw [good.getlong_eq, readWord, good.length_rest]
  split
  · rfl
  · next long => exact ⟨4, by omega, rfl, rfl, rfl⟩

theorem reads_padded (good : Good xdrs) (cnt : Nat)
    : Reads xdrs (xdrOpaqueDecode cnt xdrs) (readOpaque cnt xdrs.rest) := by
  rw [xdrOpaqueDecode, readOpaque, good.length_rest]
  split
  · next zero =>
    subst zero
    rw [if_neg (by simp [padded, rndup])]
    exact ⟨0, Nat.zero_le _, rfl, rfl, rfl⟩
  have whole : padded cnt = cnt + rndup cnt := rfl
  rw [good.getbytes_eq]
  by_cases short : xdrs.handy < cnt
  · rw [if_pos short, if_pos (by omega)]
    rfl
  have inside := good.toInside.skip (show cnt ≤ xdrs.handy by omega)
  rw [if_neg short]
  simp only [bind, Except.bind]
  by_cases full : rndup cnt = 0
  · rw [if_pos full, if_neg (by omega)]
    exact ⟨padded cnt, by omega, padded_mod cnt, by rw [whole, full]; rfl, rfl⟩
  rw [if_neg full, inside.getbytes_eq]
  have counter : (xdrs.skip cnt).handy = xdrs.handy - cnt := rfl
  by_cases cut : xdrs.handy < padded cnt
  · rw [if_pos (by omega), if_pos cut]
    rfl
  · rw [if_neg (by omega), if_neg cut]
    exact ⟨padded cnt, by omega, padded_mod cnt, by rw [whole, ← skip_skip]; rfl, rfl⟩

theorem reads_integer (good : Good xdrs) (host : Host) {w : Nat} (narrow : w ≤ 64)
    : Reads xdrs (decodeInteger host w xdrs)
        ((readWord xdrs.rest).map (fun p => (p.1.setWidth w, p.2))) := by
  have mapped := (reads_getlong good host).map (fun l => l.setWidth w)
  simp only [Option.map_map, Function.comp_def, BitVec.setWidth_setWidth_of_le _ narrow] at mapped
  exact mapped

theorem reads_word (good : Good xdrs) (host : Host)
    : Reads xdrs (decodeInteger host 32 xdrs) (readWord xdrs.rest) := by
  have reads := reads_integer good host (show 32 ≤ 64 by decide)
  simp only [BitVec.setWidth_eq, Prod.mk.eta, Option.map_id'] at reads
  exact reads

theorem reads_elements {elproc : Handle → Except Fail (α × Handle)} {read : Reader Byte α}
    (element : ∀ xdrs, Good xdrs → Reads xdrs (elproc xdrs) (read xdrs.rest)) (n : Nat)
    : ∀ {xdrs : Handle}, Good xdrs →
      Reads xdrs (decodeElements elproc n xdrs) (readMany read n xdrs.rest) := by
  induction n with
  | zero => exact fun _ => ⟨0, Nat.zero_le _, rfl, rfl, rfl⟩
  | succ n ih =>
      intro xdrs good
      refine (element xdrs good).bind good
        (fun value xdrs => decodeElements elproc n xdrs >>= fun p => .ok (value :: p.1, p.2))
        (fun value input => (readMany read n input).bind fun p => some (value :: p.1, p.2)) ?_
      intro value xdrs' good'
      have mapped := (ih good').map (fun values => value :: values)
      rwa [Option.map_eq_bind] at mapped

theorem setWidth_bne_zero (word : BitVec 32) : (word.setWidth 64 != 0) = (word != 0) := by
  have := word.isLt
  rw [Bool.eq_iff_iff, bne_iff_ne, bne_iff_ne, ne_eq, ne_eq, ← BitVec.toNat_inj, ← BitVec.toNat_inj,
    BitVec.toNat_setWidth, Nat.mod_eq_of_lt (by omega)]
  rfl

theorem shiftLeft_or_eq_append (high low : BitVec 32)
    : (high.setWidth 64 <<< 32) ||| low.setWidth 64 = high ++ low := by
  have := high.isLt
  have := low.isLt
  apply BitVec.eq_of_toNat_eq
  rw [BitVec.toNat_append, BitVec.toNat_or, BitVec.toNat_shiftLeft, BitVec.toNat_setWidth,
    BitVec.toNat_setWidth, Nat.mod_eq_of_lt (show high.toNat < 2 ^ 64 by omega),
    Nat.mod_eq_of_lt (show low.toNat < 2 ^ 64 by omega), Nat.mod_eq_of_lt]
  rw [Nat.shiftLeft_eq]
  omega

/-- Decoding at the cursor is reading what is left behind it. -/
theorem decode_reads (host : Host) (ty : Ty)
    : ∀ {xdrs : Handle}, Good xdrs → Reads xdrs (decode host ty xdrs) (read ty xdrs.rest) := by
  induction ty with
  | int | uInt => exact fun good => reads_word good host
  | short => exact fun good => reads_integer good host (by decide)
  | char =>
      intro xdrs good
      exact (reads_word good host).map (fun i => i.setWidth 8)
  | bool =>
      intro xdrs good
      have mapped := (reads_getlong good host).map (fun lb => lb != 0)
      simp only [Option.map_map, Function.comp_def, setWidth_bne_zero] at mapped
      exact mapped
  | int64 =>
      intro xdrs good
      have both := (reads_getlong good host).bind good
        (fun high xdrs => xdrGetlong host xdrs >>= fun p => .ok ((high <<< 32) ||| p.1, p.2))
        (fun high input =>
          ((readWord input).map (fun p => (p.1.setWidth 64, p.2))).map
            (fun p => ((high <<< 32) ||| p.1, p.2)))
        (fun high xdrs' good' => (reads_getlong good' host).map (fun low => (high <<< 32) ||| low))
      simp only [Option.map_map, Function.comp_def, Option.bind_eq_bind, Option.bind_map,
        shiftLeft_or_eq_append] at both
      simp only [Option.map_eq_bind] at both
      exact both
  | fixedBytes cnt => exact fun good => reads_padded good cnt.toNat
  | bytes maxsize =>
      intro xdrs good
      refine (reads_word good host).bind good
        (fun size xdrs => if size > maxsize then .error .refused else xdrOpaqueDecode size.toNat xdrs)
        (fun size input => if size > maxsize then none else readOpaque size.toNat input) ?_
      intro size xdrs' good'
      split
      · rfl
      · exact reads_padded good' size.toNat
  | string maxsize =>
      intro xdrs good
      refine (reads_word good host).bind good
        (fun size xdrs =>
          if size > maxsize then .error .refused
          else if size + 1 = 0 then .ok (none, xdrs)
          else xdrOpaqueDecode size.toNat xdrs >>= fun p => .ok (some p.1, p.2))
        (fun size input =>
          if size > maxsize then none
          else if size + 1 = 0 then some (none, input)
          else (readOpaque size.toNat input).map (fun p => (some p.1, p.2))) ?_
      intro size xdrs' good'
      split
      · rfl
      split
      · exact ⟨0, Nat.zero_le _, rfl, rfl, rfl⟩
      · exact (reads_padded good' size.toNat).map some
  | array maxsize elsize elem ih =>
      intro xdrs good
      refine (reads_word good host).bind good
        (fun c xdrs =>
          if tooMany maxsize c elsize then .error .refused
          else decodeElements (decode host elem) c.toNat xdrs)
        (fun c input =>
          if tooMany maxsize c elsize then none else readMany (read elem) c.toNat input) ?_
      intro c xdrs' good'
      split
      · rfl
      · exact reads_elements (fun _ good => ih good) c.toNat good'
  | vector nelem elem ih =>
      exact fun good => reads_elements (fun _ good => ih good) nelem.toNat good

/-- An encoding step writes the bytes of the format at the cursor, or is refused. -/
structure Writes (xdrs : Handle) (result : Except Fail Handle) (fits : Prop) (bytes : List Byte)
    : Prop where
  wrote : fits → bytes.length ≤ xdrs.handy → result = .ok (xdrs.write bytes)
  refused : ¬ (fits ∧ bytes.length ≤ xdrs.handy) → result = .error .refused

theorem writes_nil (xdrs : Handle) : Writes xdrs (.ok xdrs) True [] :=
  ⟨fun _ _ => by rw [write_nil], fun not => absurd ⟨trivial, Nat.zero_le _⟩ not⟩

/-- Two encoding steps one after the other. -/
theorem Writes.bind (inside : Inside xdrs) {result : Except Fail Handle} {fits fits' : Prop}
    {bytes bytes' : List Byte} (writes : Writes xdrs result fits bytes)
    (next : Handle → Except Fail Handle)
    (step : bytes.length ≤ xdrs.handy →
      Writes (xdrs.write bytes) (next (xdrs.write bytes)) fits' bytes')
    : Writes xdrs (result >>= next) (fits ∧ fits') (bytes ++ bytes') := by
  have left : (xdrs.write bytes).handy = xdrs.handy - bytes.length := rfl
  constructor
  · rintro ⟨first, second⟩ room
    rw [List.length_append] at room
    rw [writes.wrote first (by omega), ← inside.write_write]
    exact (step (by omega)).wrote second (by omega)
  · intro not
    by_cases first : fits ∧ bytes.length ≤ xdrs.handy
    · rw [writes.wrote first.1 first.2]
      refine (step first.2).refused fun second => not ⟨⟨first.1, second.1⟩, ?_⟩
      have := first.2
      have := second.2
      rw [List.length_append]
      omega
    · rw [writes.refused first]
      rfl

theorem writes_putlong (good : Good xdrs) (host : Host) (l : BitVec 64)
    : Writes xdrs (xdrPutlong host xdrs l) True (beBytes (l.setWidth 32)) := by
  rw [good.putlong_eq]
  constructor
  · intro _ room
    rw [length_beBytes] at room
    rw [if_neg (by omega)]
  · intro not
    rw [length_beBytes] at not
    exact if_pos (Nat.lt_of_not_le fun room => not ⟨trivial, room⟩)

theorem setWidth_signExtend_word {w : Nat} (value : BitVec w)
    : (value.signExtend 64).setWidth 32 = value.signExtend 32 := by
  ext i inside
  have : i < 64 := by omega
  rw [BitVec.getElem_setWidth, BitVec.getLsbD_signExtend, BitVec.getElem_signExtend]
  by_cases low : i < w <;> simp [this, low]

theorem writes_integer (good : Good xdrs) (host : Host) (signed : Bool) {w : Nat}
    (value : BitVec w)
    : Writes xdrs (encodeInteger host signed value xdrs) True
        (beBytes (if signed then value.signExtend 32 else value.setWidth 32)) := by
  have writes := writes_putlong good host (if signed then value.signExtend 64 else value.setWidth 64)
  cases signed with
  | true =>
      simp only [if_true, setWidth_signExtend_word value] at writes ⊢
      exact writes
  | false =>
      simp only [Bool.false_eq_true, if_false] at writes ⊢
      rwa [BitVec.setWidth_setWidth_of_le value (by decide)] at writes

theorem writes_putbytes (inside : Inside xdrs) (bytes : List Byte)
    : Writes xdrs (xdrmemPutbytes xdrs bytes) True bytes := by
  rw [inside.putbytes_eq]
  constructor
  · exact fun _ room => if_neg (by omega)
  · exact fun not => if_pos (Nat.lt_of_not_le fun room => not ⟨trivial, room⟩)

theorem writes_padded (inside : Inside xdrs) (value : List Byte) {cnt : Nat}
    (length : value.length = cnt)
    : Writes xdrs (xdrOpaqueEncode value cnt xdrs) True (opaqueBytes value) := by
  subst length
  rw [xdrOpaqueEncode, opaqueBytes, List.take_length]
  split
  · next empty =>
    rw [List.eq_nil_of_length_eq_zero empty]
    exact writes_nil xdrs
  · have step (room : value.length ≤ xdrs.handy)
        : Writes (xdrs.write value)
            (if rndup value.length = 0 then pure (xdrs.write value)
              else xdrmemPutbytes (xdrs.write value) (List.replicate (rndup value.length) 0))
            True (List.replicate (rndup value.length) 0) := by
      split
      · next full =>
        rw [full]
        exact writes_nil _
      · exact writes_putbytes (inside.write room) _
    have both := (writes_putbytes inside value).bind inside
      (fun xdrs =>
        if rndup value.length = 0 then pure xdrs
        else xdrmemPutbytes xdrs (List.replicate (rndup value.length) 0)) step
    simpa only [and_true] using both

theorem writes_elements {elproc : α → Handle → Except Fail Handle} {fits : α → Prop}
    {write : α → List Byte} (units : ∀ value, (write value).length % 4 = 0) (values : List α)
    (element : ∀ value ∈ values, ∀ xdrs, Good xdrs →
      Writes xdrs (elproc value xdrs) (fits value) (write value))
    : ∀ {xdrs : Handle}, Good xdrs →
      Writes xdrs (encodeElements elproc values xdrs) (Each fits values)
        (values.flatMap write) := by
  induction values with
  | nil =>
      intro xdrs _
      have nil := writes_nil xdrs
      exact ⟨fun _ => nil.wrote trivial,
        fun not => absurd ⟨fun _ member => by simp at member, Nat.zero_le _⟩ not⟩
  | cons value values ih =>
      intro xdrs good
      have first := element value List.mem_cons_self xdrs good
      have both := first.bind good.toInside (encodeElements elproc values) fun room =>
        ih (fun other h => element other (List.mem_cons_of_mem value h))
          (good.write room (units value))
      have each : Each fits (value :: values) ↔ fits value ∧ Each fits values :=
        List.forall_mem_cons
      rw [each, List.flatMap_cons]
      exact both

/-- A count, and then what is counted unless there are too many. -/
theorem writes_counted (good : Good xdrs) (host : Host) (n : Nat) {next : Handle → Except Fail Handle}
    {fits : Prop} {bytes : List Byte}
    (step : ∀ xdrs', Good xdrs' → Writes xdrs' (next xdrs') fits bytes)
    : Writes xdrs (xdrUIntEncode host (BitVec.ofNat 32 n) xdrs >>= next) fits
        (countBytes n ++ bytes) := by
  have count := writes_integer good host false (BitVec.ofNat 32 n)
  simp only [Bool.false_eq_true, if_false, BitVec.setWidth_eq] at count
  have both := count.bind good.toInside next (fun room => step _ (good.write room (by simp)))
  rwa [true_and] at both

theorem writes_refused {bytes : List Byte} : Writes xdrs (.error .refused) False bytes :=
  ⟨fun h => absurd h id, fun _ => rfl⟩

theorem setWidth_mask (value : BitVec 64) (start : Nat)
    : ((value >>> start) &&& 0xffffffff#64).setWidth 32 = value.extractLsb' start 32 := by
  apply BitVec.eq_of_toNat_eq
  rw [BitVec.toNat_setWidth, BitVec.toNat_and, BitVec.toNat_ushiftRight, BitVec.extractLsb'_toNat]
  show (value.toNat >>> start &&& (2 ^ 32 - 1)) % 2 ^ 32 = _
  rw [Nat.and_two_pow_sub_one_eq_mod, Nat.mod_mod]

/-- Encoding writes the bytes of the value at the cursor. -/
theorem encode_writes (host : Host) (ty : Ty)
    : ∀ {value : Val ty}, Within ty value → Proper ty value → ∀ {xdrs : Handle}, Good xdrs →
      Writes xdrs (encode host ty value xdrs) (Fits ty value) (wire host ty value) := by
  induction ty with
  | int =>
      intro value _ _ xdrs good
      have writes := writes_integer good host true value
      simp only [if_true, BitVec.signExtend_eq] at writes
      exact writes
  | uInt =>
      intro value _ _ xdrs good
      have writes := writes_integer good host false value
      simp only [Bool.false_eq_true, if_false, BitVec.setWidth_eq] at writes
      exact writes
  | short => exact fun _ _ _ good => writes_integer good host true _
  | char =>
      intro value _ _ xdrs good
      have writes := writes_integer good host true
        (if host.signedChar then value.signExtend 32 else value.setWidth 32)
      simp only [if_true, BitVec.signExtend_eq] at writes
      exact writes
  | bool =>
      intro value _ _ xdrs good
      cases value
      · exact writes_putlong good host 0
      · exact writes_putlong good host 1
  | int64 =>
      intro value _ _ xdrs good
      have both := (writes_putlong good host ((value >>> 32) &&& 0xffffffff#64)).bind good.toInside
        (fun xdrs => xdrPutlong host xdrs (value &&& 0xffffffff#64))
        (fun room => writes_putlong (good.write room (by simp)) host _)
      have low := setWidth_mask value 0
      rw [BitVec.ushiftRight_zero] at low
      rw [and_self, setWidth_mask, low] at both
      exact both
  | fixedBytes cnt => exact fun within _ _ good => writes_padded good.toInside _ within
  | bytes maxsize =>
      intro value within _ xdrs good
      refine writes_counted good host value.length fun xdrs' good' => ?_
      rw [if_neg (not_count_gt within), toNat_count within]
      exact writes_padded good'.toInside value rfl
  | string maxsize =>
      intro value within proper xdrs good
      cases value with
      | none => exact absurd proper id
      | some value =>
          have nonzero : (0 : Byte) ∉ value := proper
          have length : strlen value = value.length := by
            rw [strlen, List.takeWhile_eq_self_iff.mpr]
            intro byte member
            have : byte ≠ 0 := fun zero => nonzero (zero ▸ member)
            simpa using this
          rw [encode, xdrStringEncode, length]
          refine writes_counted good host value.length fun xdrs' good' => ?_
          rw [if_neg (not_count_gt within), toNat_count within]
          exact writes_padded good'.toInside value rfl
  | array maxsize elsize elem ih =>
      intro values within proper xdrs good
      obtain ⟨length, each⟩ := within
      refine writes_counted good host values.length fun xdrs' good' => ?_
      have many : tooMany maxsize (BitVec.ofNat 32 values.length) elsize
          ↔ ¬ values.length ≤ (2 ^ 32 - 1) / (elsize : Nat) := by
        rw [tooMany, toNat_count length, or_iff_right (not_count_gt length), Nat.not_le]
      have elements := writes_elements (length_wire_mod host elem) values
        (fun value member xdrs good => ih (each value member) (proper value member) good) good'
      rw [toNat_count length, List.take_length]
      split
      · next above => exact ⟨fun fits => absurd fits.1 (many.mp above), fun _ => rfl⟩
      · next below =>
        have fits : Fits (.array maxsize elsize elem) values ↔ Each (Fits elem) values :=
          and_iff_right (not_not.mp fun h => below (many.mpr h))
        rw [fits]
        exact elements
  | vector nelem elem ih =>
      intro values within proper xdrs good
      obtain ⟨length, each⟩ := within
      rw [encode, xdrVectorEncode, ← length, List.take_length]
      exact writes_elements (length_wire_mod host elem) values
        (fun value member xdrs good => ih (each value member) (proper value member) good) good

/-- Decoding a buffer from its start is reading its bytes, at any address. -/
theorem decode_create (host : Host) (ty : Ty) (addr : Nat) (buf : List Byte)
    : Reads (xdrmemCreate addr buf) (decode host ty (xdrmemCreate addr buf)) (read ty buf) := by
  have reads := decode_reads host ty (good_create addr buf)
  have rest : (xdrmemCreate addr buf).rest = buf := by
    simp [xdrmemCreate, Handle.rest]
  rwa [rest] at reads

/-- What is consumed of a buffer is what is not left of it. -/
theorem decode_create_some (host : Host) {ty : Ty} {buf rest : List Byte} {value : Val ty}
    (taken : read ty buf = some (value, rest)) (addr : Nat)
    : (buf.length - rest.length) % 4 = 0
      ∧ decode host ty (xdrmemCreate addr buf)
        = .ok (value, (xdrmemCreate addr buf).skip (buf.length - rest.length)) := by
  have reads := decode_create host ty addr buf
  rw [taken] at reads
  obtain ⟨n, left, units, done, same⟩ := reads
  have length := congrArg List.length same
  have total : (xdrmemCreate addr buf).rest.length = buf.length :=
    (good_create addr buf).length_rest
  have inside : n ≤ buf.length := left
  rw [List.length_drop, total] at length
  have consumed : n = buf.length - rest.length := by omega
  rw [← consumed]
  exact ⟨units, done⟩

/-- A filter on memory streams at any address. A value within its maximum sizes is encoded as its
bytes, full units, if they fit, and comes back from them at any other address with exactly these
bytes consumed; and what any buffer is decoded to depends on its bytes only, lies within the
buffer and within the maximum sizes.
-/
theorem xdrmem_codec (host : Host) (ty : Ty)
    : (∀ value, Within ty value → Proper ty value →
        (wire host ty value).length % 4 = 0
        ∧ ∀ addr (buf : List Byte), buf.length < 2 ^ 32 →
          ((Fits ty value ∧ (wire host ty value).length ≤ buf.length)
            ∧ encode host ty value (xdrmemCreate addr buf)
              = .ok ((xdrmemCreate addr buf).write (wire host ty value))
            ∧ ∀ addr' tail,
              decode host ty (xdrmemCreate addr' (wire host ty value ++ tail))
                = .ok (value, (xdrmemCreate addr' (wire host ty value ++ tail)).skip
                  (wire host ty value).length))
          ∨ (¬ (Fits ty value ∧ (wire host ty value).length ≤ buf.length)
            ∧ encode host ty value (xdrmemCreate addr buf) = .error .refused))
      ∧ ∀ buf : List Byte,
        (∀ addr, decode host ty (xdrmemCreate addr buf) = .error .refused)
        ∨ ∃ value n, n ≤ buf.length ∧ n % 4 = 0 ∧ Within ty value
          ∧ ∀ addr, decode host ty (xdrmemCreate addr buf)
            = .ok (value, (xdrmemCreate addr buf).skip n) := by
  constructor
  · intro value within proper
    refine ⟨length_wire_mod host ty value, fun addr buf small => ?_⟩
    have writes := encode_writes host ty within proper (good_create addr buf)
    by_cases room : Fits ty value ∧ (wire host ty value).length ≤ buf.length
    · refine .inl ⟨room, writes.wrote room.1 room.2, fun addr' tail => ?_⟩
      have taken := read_inverts host ty value ⟨within, proper, room.1, by omega⟩ tail
      have decoded := (decode_create_some host taken addr').2
      rwa [List.length_append, Nat.add_sub_cancel_right] at decoded
    · exact .inr ⟨room, writes.refused room⟩
  · intro buf
    cases taken : read ty buf with
    | none =>
        refine .inl fun addr => ?_
        have reads := decode_create host ty addr buf
        rw [taken] at reads
        exact reads
    | some p =>
        obtain ⟨value, rest⟩ := p
        exact .inr ⟨value, buf.length - rest.length, Nat.sub_le _ _,
          (decode_create_some host taken 0).1, read_yields ty buf value rest taken,
          fun addr => (decode_create_some host taken addr).2⟩

/-- An array of one string at an address that is not aligned. -/
theorem xdrmem_codec_strings
    : ∃ out, encode ⟨false, true⟩ (.array 3 ⟨8, by decide⟩ (.string 5)) [some [104, 105]]
        (xdrmemCreate 1 (List.replicate 12 7)) = .ok out
      ∧ out.buf = [0, 0, 0, 1, 0, 0, 0, 2, 104, 105, 0, 0] := by
  obtain ⟨-, coded⟩ := (xdrmem_codec ⟨false, true⟩ (.array 3 ⟨8, by decide⟩ (.string 5))).1 [some [104, 105]]
    ⟨by decide, by simp [Each, Within]⟩ (by simp [Each, Proper])
  rcases coded 1 (List.replicate 12 7) (by decide) with ⟨-, done, -⟩ | ⟨not, -⟩
  · exact ⟨_, done, by decide⟩
  · exact absurd ⟨⟨by decide, by simp [Each, Fits]⟩, by decide⟩ not

end BSDLibC.Xdr
