import BSDLibC.Xdrrec.Reading

/-! Records through a connection that blocks: a reader gets what was written, record by record,
however the writer puts it, the buffers hold it and the connection cuts it.
-/

namespace BSDLibC.Xdrrec

open Bytes Xdr

/-- A reader of records that are simply there: what is left of the current one, and those behind
it.
-/
structure Place where
  left : List Byte
  rest : List (List Byte)

/-- What a call gets: all it asks for or nothing, and never a byte of the next record. -/
def Place.get (place : Place) : Get → Got × Place
  | .skip => (.skipped true, ⟨place.rest.headD [], place.rest.tail⟩)
  | .bytes len =>
      (.bytes (if len ≤ place.left.length then some (place.left.take len) else none),
        ⟨place.left.drop len, place.rest⟩)
  | .long =>
      (.long
        (if 4 ≤ place.left.length then some ((beWord (place.left.take 4)).setWidth 64) else none),
        ⟨place.left.drop 4, place.rest⟩)

def Place.getAll : List Get → Place → List Got
  | [], _ => []
  | call :: calls, place =>
      let (got, place) := place.get call
      got :: Place.getAll calls place

/-- How often a reader goes to the next record. -/
def skips : List Get → Nat
  | [] => 0
  | .skip :: calls => skips calls + 1
  | _ :: calls => skips calls

/-- The reader of a stream is a reader of its records. -/
theorem At.getAll (cut : Nat → Nat) (host : Host) (calls : List Get)
    : ∀ {rstrm : InStrm} {left : List Byte} {rest : List Record}, At rstrm left rest →
      skips calls ≤ rest.length →
      getAll cut host calls rstrm = Place.getAll calls ⟨left, rest.map Record.content⟩ := by
  induction calls with
  | nil => exact fun _ _ => rfl
  | cons call calls ih =>
      intro rstrm left rest at' enough
      cases call with
      | skip =>
          cases rest with
          | nil => simp [skips] at enough
          | cons record rest =>
              obtain ⟨rstrm', done, next⟩ := at'.skiprecord cut host
              have following := ih next (by simpa [skips] using enough)
              simp only [BSDLibC.Xdrrec.getAll, Place.getAll, BSDLibC.Xdrrec.get, Place.get, done]
              rw [following]
              rfl
      | bytes len =>
          obtain ⟨rstrm', done, next⟩ := at'.getbytes cut host len
          have following := ih next (by simpa [skips] using enough)
          simp only [BSDLibC.Xdrrec.getAll, Place.getAll, BSDLibC.Xdrrec.get, Place.get, done]
          rw [following]
      | long =>
          obtain ⟨rstrm', done, next⟩ := at'.getlong cut host
          have following := ih next (by simpa [skips] using enough)
          simp only [BSDLibC.Xdrrec.getAll, Place.getAll, BSDLibC.Xdrrec.get, Place.get, done]
          rw [following]

theorem at_create {recvsize : Nat} (small : recvsize ≤ 2 ^ 31 - 4) (inBase : Nat)
    {records : List Record} (framed : ∀ record ∈ records, record.Framed)
    : At (inCreate recvsize inBase (stream records)) [] records := by
  have size : 4 ≤ fixBufSize recvsize ∧ fixBufSize recvsize < 2 ^ 31 := by
    simp only [fixBufSize]
    split <;> omega
  exact .last ⟨size.1, size.2⟩ rfl rfl rfl framed

/-- Streams with buffers of these sizes bring records over: records of full units, the last one
sent at once, are written, and any reader gets them.
-/
def RoundTrips (sendsize recvsize : Nat) : Prop :=
  ∀ writtens : List Written, (∀ written ∈ writtens, written.content.length % 4 = 0) →
    (∀ written ∈ writtens.getLast?, written.sendnow = true) →
    ∀ writer : Host, ∃ out, writeAll writer writtens (outCreate sendsize) = some out
      ∧ ∀ (reader : Host) (cut : Nat → Nat) (inBase : Nat) (calls : List Get),
        skips calls ≤ writtens.length →
        getAll cut reader calls (inCreate recvsize inBase out.sent)
          = Place.getAll calls ⟨[], writtens.map Written.content⟩

theorem roundTrips_of_small {sendsize recvsize : Nat} (sendSmall : sendsize ≤ 2 ^ 31 - 4)
    (recvSmall : recvsize ≤ 2 ^ 31 - 4)
    : RoundTrips sendsize recvsize := by
  intro writtens units sent writer
  obtain ⟨out, records, written, writing, contents, streamed⟩ :=
    Writing.writeAll writer writtens (writing_create sendSmall) units
  refine ⟨out, written, fun reader cut inBase calls enough => ?_⟩
  have wire : out.sent = stream records := by
    cases writtens with
    | nil =>
        cases written
        have none : records = [] := by simpa using contents
        rw [none]
        rfl
    | cons first others =>
        have member : (first :: others).getLast (by simp) ∈ (first :: others).getLast? := by
          simp [List.getLast?_eq_some_getLast]
        simpa using streamed _ member (sent _ member)
  have length : records.length = writtens.length := by
    simpa using congrArg List.length contents
  rw [wire, ← contents]
  exact (at_create recvSmall inBase (by simpa using writing.framed)).getAll cut reader calls
    (by omega)

/-- A size that is too large is rounded to nothing, or to more than an `int` counts. -/
theorem fixBufSize_large {s : Nat} (bound : s < 2 ^ 32) (large : 2 ^ 31 - 4 < s)
    : fixBufSize s % 4 = 0 ∧ (fixBufSize s = 0 ∨ 2 ^ 31 ≤ fixBufSize s) := by
  simp only [fixBufSize]
  split <;> omega

/-- In a send buffer of no size the header of a fragment has no place. -/
theorem putlong_overruns (host : Host) {sendsize : Nat} (empty : fixBufSize sendsize = 0)
    (l : BitVec 64)
    : xdrrecPutlong host (outCreate sendsize) l = none := by
  simp [xdrrecPutlong, outCreate, empty, flushOut]

/-- A full send buffer that is too large cannot be written. -/
theorem putbytes_overruns (host : Host) {sendsize : Nat} (large : 2 ^ 31 ≤ fixBufSize sendsize)
    : xdrrecPutbytes host (outCreate sendsize) (List.replicate (fixBufSize sendsize - 4) 0)
      = none := by
  obtain ⟨n, count⟩ : ∃ n, fixBufSize sendsize - 4 = n + 1 := ⟨fixBufSize sendsize - 5, by omega⟩
  have rounds : 2 * (List.replicate (n + 1) (0 : Byte)).length = (2 * n + 1) + 1 := by
    rw [List.length_replicate]
    omega
  have current : min (List.replicate (n + 1) (0 : Byte)).length (fixBufSize sendsize - 4) = n + 1 := by
    rw [List.length_replicate]
    omega
  have whole : (List.replicate (n + 1) (0 : Byte)).take (n + 1) = List.replicate (n + 1) 0 := by
    rw [List.take_of_length_le (by simp)]
  have filled : (List.replicate 4 (0 : Byte) ++ List.replicate (n + 1) 0).length
      = fixBufSize sendsize := by
    simp only [List.length_append, List.length_replicate]
    omega
  rw [count, xdrrecPutbytes, rounds, List.replicate_succ, xdrrecPutbytes.loop, ← List.replicate_succ]
  have stored : (outCreate sendsize).store (List.replicate (n + 1) 0)
      = some { outCreate sendsize with
          outBase := List.replicate 4 0 ++ List.replicate (n + 1) 0 } := by
    rw [OutStrm.store, if_neg]
    · rfl
    · rw [← List.length_append]
      exact Nat.lt_irrefl _ ∘ (filled ▸ ·)
  have start : (outCreate sendsize).sendsize - (outCreate sendsize).outBase.length
      = fixBufSize sendsize - 4 := rfl
  simp only [start, current, whole, stored, Option.bind_eq_bind, Option.bind_some]
  rw [if_pos (show _ = (outCreate sendsize).sendsize from filled), flushOut, if_neg, if_pos]
  · rfl
  · show 2 ^ 31 ≤ (List.replicate 4 (0 : Byte) ++ List.replicate (n + 1) 0).length
    omega
  · show ¬ fixBufSize sendsize < 0 + 4
    omega

theorem not_roundTrips_of_send {sendsize : Nat} (bound : sendsize < 2 ^ 32)
    (large : 2 ^ 31 - 4 < sendsize) (recvsize : Nat)
    : ¬ RoundTrips sendsize recvsize := by
  intro trips
  obtain ⟨units, empty | many⟩ := fixBufSize_large bound large
  · obtain ⟨out, written, -⟩ := trips [⟨[.long 0], true⟩] (by simp [Written.content, Put.content])
      (by simp) ⟨false, true⟩
    rw [writeAll, putAll, put, putlong_overruns _ empty] at written
    cases written
  · obtain ⟨out, written, -⟩ := trips
      [⟨[.bytes (List.replicate (fixBufSize sendsize - 4) 0)], true⟩]
      (by
        intro written member
        rw [List.mem_singleton.mp member]
        simp only [Written.content, Put.content, List.flatMap_cons, List.flatMap_nil,
          List.append_nil, List.length_replicate]
        omega)
      (by simp) ⟨false, true⟩
    rw [writeAll, putAll, put, putbytes_overruns _ many] at written
    cases written

/-- A reader whose buffer is too large, or has no size, reads nothing. -/
theorem fillInputBuf_none (cut : Nat → Nat) {recvsize : Nat} (bound : recvsize < 2 ^ 32)
    (large : 2 ^ 31 - 4 < recvsize) (rstrm : InStrm) (size : rstrm.inSize = fixBufSize recvsize)
    (boundry : rstrm.inBoundry = fixBufSize recvsize)
    : fillInputBuf cut rstrm = none := by
  obtain ⟨units, extreme⟩ := fixBufSize_large bound large
  have len : rstrm.inSize - rstrm.inBoundry % 4 = fixBufSize recvsize := by
    rw [size, boundry, units, Nat.sub_zero]
  rw [fillInputBuf, InStrm.readit]
  simp only [len]
  rw [if_pos (.inr extreme)]
  rfl

theorem not_roundTrips_of_recv {recvsize : Nat} (bound : recvsize < 2 ^ 32)
    (large : 2 ^ 31 - 4 < recvsize) (sendsize : Nat)
    : ¬ RoundTrips sendsize recvsize := by
  intro trips
  obtain ⟨out, -, reads⟩ := trips [⟨[.long 0], true⟩] (by simp [Written.content, Put.content])
    (by simp) ⟨false, true⟩
  have got := reads ⟨false, true⟩ (fun _ => 0) 0 [.skip, .bytes 4] (by simp [skips])
  generalize opened : inCreate recvsize 0 out.sent = rstrm at got
  have size : rstrm.inSize = fixBufSize recvsize := by rw [← opened]; rfl
  have boundry : rstrm.inBoundry = fixBufSize recvsize := by
    rw [← opened]
    exact Nat.zero_add _
  have empty : rstrm.inBuf = [] := by rw [← opened]; rfl
  have none : rstrm.fbtbc = 0 := by rw [← opened]; rfl
  have mark : rstrm.lastFrag = true := by rw [← opened]; rfl
  have skipped : xdrrecSkiprecord (fun _ => 0) ⟨false, true⟩ rstrm
      = (true, { rstrm with lastFrag := false }) := by
    rw [xdrrecSkiprecord, xdrrecSkiprecord.loop, if_neg (by simp [none, mark])]
  have stuck : getInputBytes (fun _ => 0) { rstrm with lastFrag := false } 4
      = (.none, { rstrm with lastFrag := false }) := by
    rw [getInputBytes, getInputBytes.loop, if_pos empty,
      fillInputBuf_none _ bound large { rstrm with lastFrag := false } size boundry]
  have unread : xdrrecGetbytes (fun _ => 0) ⟨false, true⟩ { rstrm with lastFrag := false } 4
      = (.none, { rstrm with lastFrag := false }) := by
    rw [xdrrecGetbytes, xdrrecGetbytes.loop, if_pos none, if_neg (by simp), setInputFragment, stuck]
  simp only [getAll, get, skipped, unread, Place.getAll, Place.get] at got
  simp [Written.content, Put.content] at got

/-- Records come over exactly if no buffer is larger than an `int` counts after rounding. -/
theorem roundTrips_iff (sendsize recvsize : BitVec 32)
    : RoundTrips sendsize.toNat recvsize.toNat
      ↔ sendsize.toNat ≤ 2 ^ 31 - 4 ∧ recvsize.toNat ≤ 2 ^ 31 - 4 := by
  constructor
  · intro trips
    constructor
    · exact Nat.le_of_not_lt fun large => not_roundTrips_of_send sendsize.isLt large _ trips
    · exact Nat.le_of_not_lt fun large => not_roundTrips_of_recv recvsize.isLt large _ trips
  · exact fun small => roundTrips_of_small small.1 small.2

/-- The largest send buffer is rounded to none at all. -/
theorem largest_send_buffer_overruns
    : fixBufSize 0xffffffff = 0
      ∧ writeAll ⟨false, true⟩ [⟨[.long 7], true⟩] (outCreate 0xffffffff) = none
      ∧ ¬ RoundTrips 0xffffffff 4000 := by
  refine ⟨rfl, ?_, not_roundTrips_of_send (by decide) (by decide) 4000⟩
  rw [writeAll, putAll, put, putlong_overruns _ rfl]
  rfl

end BSDLibC.Xdrrec
