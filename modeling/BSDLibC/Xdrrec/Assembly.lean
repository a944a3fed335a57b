import BSDLibC.Xdrrec.Output

/-! Records from a connection that does not block, `__xdrrec_getrec`: each call reads what is there
of a header and of the fragment behind it. Over whole runs, a header that has been read is never
remembered as read, and the mark of the last fragment never goes away: the records arrive exactly
as long as each one is a single fragment that is handed over whole behind its header.
-/

namespace BSDLibC.Xdrrec

open Bytes Xdr

/-- `enum xprt_stat` -/
inductive XprtStat where
  | died
  | moreReqs
  | idle
deriving DecidableEq

/-- `RECSTREAM` as a connection that does not block uses it. The bytes of the header that have
arrived are `inHeader`; `inBase` is what has arrived of the record.
-/
structure RecStrm where
  inHaveheader : Bool
  inHeader : List Byte
  inBase : List Byte
  inReclen : Nat
  inReceived : Nat
  inMaxrec : Nat
  recvsize : Nat
  lastFrag : Bool
  fbtbc : Nat
deriving DecidableEq

/-- `xdrrec_create` and `__xdrrec_setnonblock` -/
def createNonblock (recvsize maxrec : Nat) : RecStrm :=
  { inHaveheader := false
    inHeader := []
    inBase := []
    inReclen := 0
    inReceived := 0
    inMaxrec := if maxrec = 0 then fixBufSize recvsize else maxrec
    recvsize := fixBufSize recvsize
    lastFrag := true
    fbtbc := 0 }

/-- `readit`, asked for `len` bytes: it fails, or hands over what it is willing to give. -/
def readit (give : Option Nat) (len : Nat) (pending : List Byte)
    : Option (List Byte) × List Byte :=
  match give with
  | none => (none, pending)
  | some give => (some (pending.take (min give len)), pending.drop (min give len))

/-- What `__xdrrec_getrec` returns, the status it sets, and what it leaves. -/
structure Answer where
  ready : Bool
  stat : XprtStat
  rstrm : RecStrm
  pending : List Byte

/-- `__xdrrec_getrec` behind the header. -/
def xdrrecGetrec.body (expectdata : Bool) (give : Option Nat) (rstrm : RecStrm)
    (pending : List Byte)
    : Answer :=
  match readit give (rstrm.inReclen - rstrm.inReceived) pending with
  | (none, pending) => ⟨false, .died, rstrm, pending⟩
  | (some [], pending) => ⟨false, if expectdata then .died else .idle, rstrm, pending⟩
  | (some bytes, pending) =>
      let rstrm :=
        { rstrm with
          inBase := rstrm.inBase.take rstrm.inReceived ++ bytes
          inReceived := rstrm.inReceived + bytes.length }
      if rstrm.inReceived = rstrm.inReclen then
        let rstrm := { rstrm with inHaveheader := false, inHeader := [] }
        if rstrm.lastFrag then
          ⟨true, .moreReqs,
            { rstrm with fbtbc := rstrm.inReclen, inReclen := 0, inReceived := 0 }, pending⟩
        else
          ⟨false, .moreReqs, rstrm, pending⟩
      else
        ⟨false, .moreReqs, rstrm, pending⟩

/-- `__xdrrec_getrec`, with what `readit` is willing to give for a header and for a fragment;
`realloc` succeeds.
-/
def xdrrecGetrec (host : Host) (expectdata : Bool) (first second : Option Nat)
    (rstrm : RecStrm) (pending : List Byte)
    : Answer :=
  if !rstrm.inHaveheader then
    match readit first (4 - rstrm.inHeader.length) pending with
    | (none, pending) => ⟨false, .died, rstrm, pending⟩
    | (some [], pending) => ⟨false, if expectdata then .died else .idle, rstrm, pending⟩
    | (some bytes, pending) =>
        let rstrm := { rstrm with inHeader := rstrm.inHeader ++ bytes }
        if rstrm.inHeader.length < 4 then
          ⟨false, .moreReqs, rstrm, pending⟩
        else
          let header := host.ntohl (host.word rstrm.inHeader)
          let len := fraglen header
          if len = 0 ∨ len > rstrm.inMaxrec ∨ rstrm.inReclen + len > rstrm.inMaxrec then
            ⟨false, .died, rstrm, pending⟩
          else
            let reclen := rstrm.inReclen + len
            let rstrm :=
              { rstrm with
                inReclen := reclen
                recvsize := max rstrm.recvsize reclen
                lastFrag := rstrm.lastFrag || isLast header }
            xdrrecGetrec.body expectdata second rstrm pending
  else
    xdrrecGetrec.body expectdata second rstrm pending

-----------------------------------------------------------------------------------------
-- Whole runs
-----------------------------------------------------------------------------------------

/-- A connection: its stream, what is still to come, the records returned so far, and whether it
was found dead.
-/
structure Conn where
  rstrm : RecStrm
  pending : List Byte
  returned : List (List Byte)
  dead : Bool

/-- What `readit` is willing to give in one call, for a header and for a fragment. -/
structure Gives where
  first : Nat
  second : Nat

/-- One call. -/
def Conn.step (host : Host) (conn : Conn) (gives : Gives) : Conn :=
  let answer := xdrrecGetrec host false (some gives.first) (some gives.second) conn.rstrm conn.pending
  { rstrm := answer.rstrm
    pending := answer.pending
    returned :=
      if answer.ready then
        conn.returned ++ [answer.rstrm.inBase.take answer.rstrm.fbtbc]
      else
        conn.returned
    dead := conn.dead || answer.stat = .died }

/-- The records among the first bytes of a stream. -/
def delivered : List Record → Nat → List (List Byte)
  | [], _ => []
  | record :: records, n =>
      if record.wire.length ≤ n then
        record.content :: delivered records (n - record.wire.length)
      else
        []

/-- A connection does its work: it is not dead, it has returned the records that have been handed
over, and while more is to come it takes what it is given.
-/
structure Assembled (host : Host) (records : List Record) (conn : Conn) : Prop where
  alive : conn.dead = false
  exact : conn.returned = delivered records ((stream records).length - conn.pending.length)
  live : conn.pending ≠ [] → ∀ gives : Gives, 0 < gives.first → 0 < gives.second →
    (conn.step host gives).pending.length < conn.pending.length

/-- Something holds before the first call of a run and after each one. -/
def Always (host : Host) (holds : Conn → Prop) : List Gives → Conn → Prop
  | [], conn => holds conn
  | gives :: run, conn => holds conn ∧ Always host holds run (conn.step host gives)

/-- The header as far as it is there with what a call is given for it. -/
def arrived (conn : Conn) (gives : Gives) : List Byte :=
  conn.rstrm.inHeader ++ conn.pending.take (min gives.first (4 - conn.rstrm.inHeader.length))

/-- If a call completes a header, it is the header of a last fragment that is not empty, and the
call is given the whole fragment.
-/
def Whole (conn : Conn) (gives : Gives) : Prop :=
  (arrived conn gives).length = 4 →
    isLast (beWord (arrived conn gives)) = true
    ∧ 0 < fraglen (beWord (arrived conn gives))
    ∧ fraglen (beWord (arrived conn gives)) ≤ gives.second

/-- Every call of a run is given whole fragments. -/
def AllWhole (host : Host) : List Gives → Conn → Prop
  | [], _ => True
  | gives :: run, conn => Whole conn gives ∧ AllWhole host run (conn.step host gives)

/-- What holds between two calls that were given whole fragments. -/
structure Ready (records : List Record) (maxrec : Nat) (conn : Conn) (rest : List Record)
    : Prop where
  alive : conn.dead = false
  split : ∃ done, records = done ++ rest ∧ conn.returned = done.map Record.content
  noHeader : conn.rstrm.inHaveheader = false
  last : conn.rstrm.lastFrag = true
  reclen : conn.rstrm.inReclen = 0
  received : conn.rstrm.inReceived = 0
  maximum : conn.rstrm.inMaxrec = maxrec
  unread : conn.rstrm.inHeader.length < 4
  coming : conn.rstrm.inHeader ++ conn.pending = stream rest

/-- Of records handed over whole and less than a header of the next one, the former count. -/
theorem delivered_append (done rest : List Record) {n : Nat}
    (less : ∀ record ∈ rest.head?, n < record.wire.length)
    : delivered (done ++ rest) ((stream done).length + n) = done.map Record.content := by
  induction done with
  | nil =>
      cases rest with
      | nil => rfl
      | cons record rest =>
          have : n < record.wire.length := less record rfl
          rw [List.nil_append, delivered, if_neg]
          · rfl
          · simp only [stream, List.flatMap_nil, List.length_nil]
            omega
  | cons record done ih =>
      have length : (stream (record :: done)).length + n
          = record.wire.length + ((stream done).length + n) := by
        rw [stream_cons, List.length_append]
        omega
      rw [List.cons_append, delivered, length, if_pos (Nat.le_add_right _ _),
        Nat.add_sub_cancel_left, ih, List.map_cons]

/-- The first fragment of a stream: it is all of the first record, or the record goes on. -/
inductive Front : List Record → List Byte → Bool → List Byte → Prop where
  | whole (bytes : List Byte) (rest : List Record)
      : Front (⟨[], bytes⟩ :: rest) bytes true (stream rest)
  | part (bytes : List Byte) (parts : List (List Byte)) (last : List Byte) (rest : List Record)
      : Front (⟨bytes :: parts, last⟩ :: rest) bytes false
          (Record.wire ⟨parts, last⟩ ++ stream rest)

theorem Front.stream_eq {rest : List Record} {bytes more : List Byte} {last : Bool}
    (front : Front rest bytes last more)
    : stream rest = beBytes (header bytes.length last) ++ (bytes ++ more) := by
  cases front with
  | whole bytes rest => simp [stream_cons, Record.wire, fragment]
  | part bytes parts last rest => simp [stream_cons, Record.wire, fragment]

theorem Front.eq_of_last {rest : List Record} {bytes more : List Byte}
    (front : Front rest bytes true more)
    : ∃ rest', rest = ⟨[], bytes⟩ :: rest' ∧ more = stream rest' := by
  cases front with
  | whole bytes rest => exact ⟨rest, rfl, rfl⟩

theorem exists_front {rest : List Record} (nonempty : rest ≠ [])
    : ∃ bytes last more, Front rest bytes last more := by
  match rest, nonempty with
  | ⟨[], bytes⟩ :: rest, _ => exact ⟨_, _, _, .whole bytes rest⟩
  | ⟨bytes :: parts, last⟩ :: rest, _ => exact ⟨_, _, _, .part bytes parts last rest⟩

section

variable {host : Host} {records rest : List Record} {maxrec : Nat} {conn : Conn} {gives : Gives}

/-- What is still to come behind what a call is given for a header. -/
def behind (conn : Conn) (gives : Gives) : List Byte :=
  conn.pending.drop (min gives.first (4 - conn.rstrm.inHeader.length))

/-- A call that does not complete the header. -/
theorem step_short (noHeader : conn.rstrm.inHaveheader = false)
    (short : (arrived conn gives).length < 4)
    : conn.step host gives
      = { conn with
          rstrm := { conn.rstrm with inHeader := arrived conn gives }
          pending := behind conn gives } := by
  rw [Conn.step, xdrrecGetrec, if_pos (by rw [noHeader]; rfl)]
  simp only [readit]
  rw [arrived] at short ⊢
  rw [behind]
  generalize conn.pending.take (min gives.first (4 - conn.rstrm.inHeader.length)) = bytes
    at short ⊢
  cases bytes with
  | nil => simp
  | cons byte bytes =>
      simp only [short, if_true]
      simp

/-- A call that completes the header. -/
theorem step_header (noHeader : conn.rstrm.inHaveheader = false)
    (room : conn.rstrm.inHeader.length < 4) (full : (arrived conn gives).length = 4)
    (reclen : conn.rstrm.inReclen = 0)
    : xdrrecGetrec host false (some gives.first) (some gives.second) conn.rstrm conn.pending
      = if fraglen (beWord (arrived conn gives)) = 0
            ∨ fraglen (beWord (arrived conn gives)) > conn.rstrm.inMaxrec then
          ⟨false, .died, { conn.rstrm with inHeader := arrived conn gives }, behind conn gives⟩
        else
          xdrrecGetrec.body false (some gives.second)
            { conn.rstrm with
              inHeader := arrived conn gives
              inReclen := fraglen (beWord (arrived conn gives))
              recvsize := max conn.rstrm.recvsize (fraglen (beWord (arrived conn gives)))
              lastFrag := conn.rstrm.lastFrag || isLast (beWord (arrived conn gives)) }
            (behind conn gives) := by
  rw [xdrrecGetrec, if_pos (by rw [noHeader]; rfl)]
  simp only [readit]
  rw [arrived] at full ⊢
  rw [behind]
  generalize conn.pending.take (min gives.first (4 - conn.rstrm.inHeader.length)) = bytes
    at full ⊢
  cases bytes with
  | nil =>
      rw [List.append_nil] at full
      omega
  | cons byte bytes =>
      have complete : ¬ (conn.rstrm.inHeader ++ byte :: bytes).length < 4 := by omega
      simp only [complete, if_false, host.ntohl_word full, reclen, Nat.zero_add, or_self]

theorem length_body_le (expectdata : Bool) (give : Option Nat) (rstrm : RecStrm)
    (pending : List Byte)
    : (xdrrecGetrec.body expectdata give rstrm pending).pending.length ≤ pending.length := by
  rw [xdrrecGetrec.body]
  cases give with
  | none => exact Nat.le_refl _
  | some give =>
      have fewer : (pending.drop (min give (rstrm.inReclen - rstrm.inReceived))).length
          ≤ pending.length := by
        rw [List.length_drop]
        omega
      simp only [readit]
      cases pending.take (min give (rstrm.inReclen - rstrm.inReceived)) with
      | nil => exact fewer
      | cons byte bytes =>
          simp only
          split
          · split <;> exact fewer
          · exact fewer

/-- Between two such calls the connection does its work. -/
theorem Ready.assembled (ready : Ready records maxrec conn rest) : Assembled host records conn := by
  refine ⟨ready.alive, ?_, ?_⟩
  · obtain ⟨done, rfl, returned⟩ := ready.split
    have coming := congrArg List.length ready.coming
    rw [List.length_append] at coming
    have consumed : (stream (done ++ rest)).length - conn.pending.length
        = (stream done).length + conn.rstrm.inHeader.length := by
      rw [stream_append, List.length_append]
      omega
    rw [returned, consumed, delivered_append]
    intro record _
    have := four_le_length_wire record
    have := ready.unread
    omega
  · intro more gives first _
    have room := ready.unread
    have some : 0 < conn.pending.length := List.length_pos_of_ne_nil more
    have fewer : (behind conn gives).length < conn.pending.length := by
      rw [behind, List.length_drop]
      omega
    by_cases full : (arrived conn gives).length = 4
    · refine Nat.lt_of_le_of_lt ?_ fewer
      rw [Conn.step, step_header ready.noHeader room full ready.reclen]
      split
      · exact Nat.le_refl _
      · exact length_body_le ..
    · have short : (arrived conn gives).length < 4 := by
        rw [arrived, List.length_append, List.length_take] at full ⊢
        omega
      rw [step_short ready.noHeader short]
      exact fewer

/-- A header that a call completes is that of the first fragment to come. -/
theorem Ready.front (ready : Ready records maxrec conn rest)
    (full : (arrived conn gives).length = 4)
    : ∃ bytes last more, Front rest bytes last more
      ∧ arrived conn gives = beBytes (header bytes.length last)
      ∧ behind conn gives = bytes ++ more := by
  have parts : arrived conn gives ++ behind conn gives = stream rest := by
    rw [arrived, behind, List.append_assoc, List.take_append_drop, ready.coming]
  have nonempty : rest ≠ [] := by
    rintro rfl
    have := congrArg List.length parts
    rw [List.length_append, full] at this
    simp [stream] at this
  obtain ⟨bytes, last, more, front⟩ := exists_front nonempty
  rw [front.stream_eq] at parts
  obtain ⟨here, there⟩ := List.append_inj parts (by rw [full, length_beBytes])
  exact ⟨bytes, last, more, front, here, there⟩

/-- A fragment of a record lies within the maximum, and is not empty if the record goes on. -/
theorem Front.formed {bytes more : List Byte} {last : Bool} (front : Front rest bytes last more)
    (formed : ∀ record ∈ rest, record.Formed maxrec)
    : bytes.length ≤ maxrec ∧ (last = false → bytes ≠ []) := by
  cases front with
  | whole bytes rest =>
      have bounded := (formed _ List.mem_cons_self).bounded
      exact ⟨by simpa [Record.content] using bounded, by simp⟩
  | part bytes parts last rest =>
      have this := formed _ List.mem_cons_self
      have bounded := this.bounded
      simp only [Record.content, List.flatten_cons, List.length_append] at bounded
      exact ⟨by omega, fun _ => this.nonempty bytes List.mem_cons_self⟩

/-- A fragment that is handed over whole ends the call with a record. -/
theorem body_whole (rstrm : RecStrm) {bytes more : List Byte} {give : Nat}
    (reclen : rstrm.inReclen = bytes.length) (received : rstrm.inReceived = 0)
    (last : rstrm.lastFrag = true) (nonempty : bytes ≠ []) (enough : bytes.length ≤ give)
    : xdrrecGetrec.body false (some give) rstrm (bytes ++ more)
      = ⟨true, .moreReqs,
          { rstrm with
            inHaveheader := false
            inHeader := []
            inBase := bytes
            fbtbc := bytes.length
            inReclen := 0
            inReceived := 0 }, more⟩ := by
  have asked : min give (rstrm.inReclen - rstrm.inReceived) = bytes.length := by omega
  rw [xdrrecGetrec.body]
  simp only [readit, asked, List.take_left, List.drop_left]
  obtain ⟨byte, bytes, rfl⟩ := List.exists_cons_of_ne_nil nonempty
  simp [received, reclen, last]

/-- A fragment that is not handed over whole leaves its header behind. -/
theorem body_cut (rstrm : RecStrm) {bytes : List Byte} (more : List Byte) {give : Nat}
    (reclen : rstrm.inReclen = bytes.length) (received : rstrm.inReceived = 0)
    (cut : give < bytes.length)
    : ∃ rstrm' stat, xdrrecGetrec.body false (some give) rstrm (bytes ++ more)
        = ⟨false, stat, rstrm', (bytes ++ more).drop give⟩
      ∧ rstrm'.inHaveheader = rstrm.inHaveheader ∧ rstrm'.inHeader = rstrm.inHeader := by
  have asked : min give (rstrm.inReclen - rstrm.inReceived) = give := by omega
  have length : ((bytes ++ more).take give).length = give := by
    rw [List.length_take, List.length_append]
    omega
  rw [xdrrecGetrec.body]
  simp only [readit, asked]
  generalize (bytes ++ more).take give = taken at length
  cases taken with
  | nil => exact ⟨rstrm, _, rfl, rfl, rfl⟩
  | cons byte taken =>
      have incomplete : ¬ 0 + (byte :: taken).length = bytes.length := by omega
      simp only [received, reclen, if_neg incomplete]
      exact ⟨_, _, rfl, rfl, rfl⟩

/-- The stream behind the header of a fragment. -/
def opened (conn : Conn) (gives : Gives) (len : Nat) : RecStrm :=
  { conn.rstrm with
    inHeader := arrived conn gives
    inReclen := len
    recvsize := max conn.rstrm.recvsize len
    lastFrag := true }

/-- A call that completes a header, by the fragment behind it. -/
theorem Ready.step_full (host : Host) (small : maxrec < 2 ^ 31)
    (formed : ∀ record ∈ rest, record.Formed maxrec) (ready : Ready records maxrec conn rest) (full : (arrived conn gives).length = 4)
    : ∃ bytes last more, Front rest bytes last more
      ∧ fraglen (beWord (arrived conn gives)) = bytes.length
      ∧ isLast (beWord (arrived conn gives)) = last
      ∧ xdrrecGetrec host false (some gives.first) (some gives.second) conn.rstrm conn.pending
        = if bytes.length = 0 then
            ⟨false, .died, { conn.rstrm with inHeader := arrived conn gives }, bytes ++ more⟩
          else
            xdrrecGetrec.body false (some gives.second) (opened conn gives bytes.length)
              (bytes ++ more) := by
  obtain ⟨bytes, last, more, front, here, there⟩ := ready.front full
  have bounded := (front.formed formed).1
  have length : fraglen (beWord (arrived conn gives)) = bytes.length := by
    rw [here, beWord_beBytes, fraglen_header (by omega)]
  have mark : isLast (beWord (arrived conn gives)) = last := by
    rw [here, beWord_beBytes, isLast_header (by omega)]
  have within : ¬ bytes.length > conn.rstrm.inMaxrec := by
    rw [ready.maximum]
    omega
  refine ⟨bytes, last, more, front, length, mark, ?_⟩
  rw [step_header ready.noHeader ready.unread full ready.reclen, length, there]
  simp only [within, or_false, ready.last, Bool.true_or]
  rfl

/-- A call that is given whole fragments. -/
theorem Ready.step (small : maxrec < 2 ^ 31) (formed : ∀ record ∈ rest, record.Formed maxrec)
    (ready : Ready records maxrec conn rest) (whole : Whole conn gives)
    : ∃ rest', Ready records maxrec (conn.step host gives) rest'
      ∧ ∀ record ∈ rest', record ∈ rest := by
  by_cases full : (arrived conn gives).length = 4
  · obtain ⟨marked, positive, enough⟩ := whole full
    obtain ⟨bytes, last, more, front, length, mark, answer⟩ := ready.step_full host small formed full
    rw [length] at positive enough
    rw [if_neg (by omega), body_whole (opened conn gives bytes.length) rfl ready.received rfl
      (List.length_pos_iff.mp positive) enough] at answer
    obtain rfl : last = true := mark.symm.trans marked
    obtain ⟨rest', rfl, rfl⟩ := front.eq_of_last
    refine ⟨rest', ?_, fun record member => List.mem_cons_of_mem _ member⟩
    obtain ⟨done, split, returned⟩ := ready.split
    rw [Conn.step, answer]
    refine ⟨by simp [ready.alive], ⟨done ++ [⟨[], bytes⟩], by simp [split], ?_⟩, rfl, rfl, rfl,
      rfl, ready.maximum, by simp, by simp⟩
    simp [returned, Record.content]
  · have short : (arrived conn gives).length < 4 := by
      have := ready.unread
      rw [arrived, List.length_append, List.length_take] at full ⊢
      omega
    refine ⟨rest, ?_, fun _ member => member⟩
    rw [step_short ready.noHeader short]
    refine ⟨ready.alive, ready.split, ready.noHeader, ready.last, ready.reclen, ready.received,
      ready.maximum, short, ?_⟩
    rw [← ready.coming, arrived, behind, List.append_assoc, List.take_append_drop]

/-- Behind a header that is left behind nothing more is read. -/
theorem step_stalled (noHeader : conn.rstrm.inHaveheader = false)
    (stale : conn.rstrm.inHeader.length = 4)
    : (conn.step host gives).pending = conn.pending := by
  rw [Conn.step, xdrrecGetrec, if_pos (by rw [noHeader]; rfl)]
  simp [readit, stale]

/-- A call that is not given whole fragments. -/
theorem Ready.step_stuck (small : maxrec < 2 ^ 31)
    (formed : ∀ record ∈ rest, record.Formed maxrec)
    (ready : Ready records maxrec conn rest) (cut : ¬ Whole conn gives)
    : ¬ Assembled host records (conn.step host gives) := by
  intro assembled
  rw [Whole, Classical.not_imp] at cut
  obtain ⟨full, cut⟩ := cut
  obtain ⟨bytes, last, more, front, length, mark, answer⟩ := ready.step_full host small formed full
  rw [length, mark] at cut
  by_cases empty : bytes.length = 0
  · have alive := assembled.alive
    rw [if_pos empty] at answer
    rw [Conn.step, answer] at alive
    simp at alive
  rw [if_neg empty] at answer
  by_cases enough : bytes.length ≤ gives.second
  · -- The record goes on, but its first fragment is returned.
    have goesOn : last = false := by
      cases last with
      | false => rfl
      | true => exact absurd ⟨rfl, by omega, enough⟩ cut
    subst goesOn
    rw [body_whole (opened conn gives bytes.length) rfl ready.received rfl
      (fun nil => empty (by rw [nil]; rfl)) enough] at answer
    cases front with
    | part _ parts last rest' =>
        obtain ⟨done, split, returned⟩ := ready.split
        have exact := assembled.exact
        have wire : (Record.wire ⟨bytes :: parts, last⟩).length
            = 4 + bytes.length + (Record.wire ⟨parts, last⟩).length := by
          simp [Record.wire, Nat.add_assoc]
        have tail := four_le_length_wire ⟨parts, last⟩
        rw [Conn.step, answer] at exact
        have consumed : (stream records).length
            - (Record.wire ⟨parts, last⟩ ++ stream rest').length
            = (stream done).length + (4 + bytes.length) := by
          rw [split, stream_append, stream_cons]
          simp only [List.length_append]
          omega
        simp only [if_true] at exact
        rw [consumed, split, delivered_append done _ (fun record member => ?_), returned] at exact
        · have := congrArg List.length exact
          simp at this
        · cases member
          omega
  · -- The header stays complete, and the next call asks for nothing.
    obtain ⟨rstrm', stat, body, noHeader, stale⟩ := body_cut
      (opened conn gives bytes.length) more rfl ready.received (Nat.lt_of_not_le enough)
    rw [body] at answer
    have stuck : ((conn.step host gives).step host ⟨1, 1⟩).pending
        = (conn.step host gives).pending := by
      refine step_stalled ?_ ?_
      · rw [Conn.step, answer]
        exact noHeader.trans ready.noHeader
      · rw [Conn.step, answer]
        exact (congrArg List.length stale).trans full
    have more : (conn.step host gives).pending ≠ [] := by
      rw [Conn.step, answer]
      intro nil
      have := congrArg List.length nil
      simp only [List.length_drop, List.length_append, List.length_nil] at this
      omega
    have less := assembled.live more ⟨1, 1⟩ Nat.one_pos Nat.one_pos
    rw [stuck] at less
    exact Nat.lt_irrefl _ less

end

/-- A connection on which a stream of records is to come. -/
def opening (recvsize maxrec : Nat) (records : List Record) : Conn :=
  { rstrm := createNonblock recvsize maxrec
    pending := stream records
    returned := []
    dead := false }

theorem ready_opening (recvsize maxrec : Nat) (records : List Record)
    : Ready records (createNonblock recvsize maxrec).inMaxrec (opening recvsize maxrec records)
        records :=
  ⟨rfl, ⟨[], rfl, rfl⟩, rfl, rfl, rfl, rfl, rfl, Nat.succ_pos 3, rfl⟩

/-- From a state between two calls a run does its work exactly if it is given whole fragments. -/
theorem Ready.always_iff (host : Host) {records : List Record} {maxrec : Nat}
    (small : maxrec < 2 ^ 31) (run : List Gives)
    : ∀ {conn : Conn} {rest : List Record}, (∀ record ∈ rest, record.Formed maxrec) →
      Ready records maxrec conn rest →
      (Always host (Assembled host records) run conn ↔ AllWhole host run conn) := by
  induction run with
  | nil => exact fun _ ready => iff_of_true ready.assembled trivial
  | cons gives run ih =>
      intro conn rest formed ready
      rw [Always, AllWhole, and_iff_right ready.assembled]
      constructor
      · intro always
        have next : Assembled host records (conn.step host gives) := by
          cases run with
          | nil => exact always
          | cons _ _ => exact always.1
        have whole : Whole conn gives := not_not.mp fun cut =>
          ready.step_stuck small formed cut next
        obtain ⟨rest', ready', fewer⟩ := ready.step small formed whole
        exact ⟨whole, (ih (fun record member => formed record (fewer record member)) ready').mp always⟩
      · rintro ⟨whole, following⟩
        obtain ⟨rest', ready', fewer⟩ := ready.step small formed whole
        exact (ih (fun record member => formed record (fewer record member)) ready').mpr following

/-- A run of `__xdrrec_getrec` does its work all along exactly if each header that a call completes
is that of a last fragment that is not empty, and the same call is given the whole fragment.
-/
theorem assembled_iff_allWhole (host : Host) {recvsize maxrec : Nat} {records : List Record}
    (small : (createNonblock recvsize maxrec).inMaxrec < 2 ^ 31)
    (formed : ∀ record ∈ records, record.Formed (createNonblock recvsize maxrec).inMaxrec)
    (run : List Gives)
    : Always host (Assembled host records) run (opening recvsize maxrec records)
      ↔ AllWhole host run (opening recvsize maxrec records) :=
  Ready.always_iff host small run formed (ready_opening recvsize maxrec records)

instance (conn : Conn) (gives : Gives) : Decidable (Whole conn gives) :=
  inferInstanceAs (Decidable (_ → _))

/-- Two records, the header of the first one in pieces. -/
theorem assembled_two_records
    : Always ⟨false, true⟩ (Assembled ⟨false, true⟩ [⟨[], [1, 2, 3, 4]⟩, ⟨[], [5]⟩])
        [⟨3, 9⟩, ⟨0, 9⟩, ⟨9, 9⟩, ⟨4, 1⟩] (opening 0 100 [⟨[], [1, 2, 3, 4]⟩, ⟨[], [5]⟩]) := by
  refine (assembled_iff_allWhole ⟨false, true⟩ (by decide) ?_ _).mpr ?_
  · simp only [List.mem_cons, List.not_mem_nil, or_false, forall_eq_or_imp, forall_eq]
    exact ⟨⟨by simp, by decide⟩, ⟨by simp, by decide⟩⟩
  · exact ⟨by decide +kernel, by decide +kernel, by decide +kernel, by decide +kernel, trivial⟩

/-- A record handed over in two pieces is never finished, a record of two fragments is returned
after the first one, and an empty last fragment makes the connection dead.
-/
theorem getrec_loses_records
    : ¬ Assembled ⟨false, true⟩ [⟨[], [1, 2, 3, 4]⟩]
        ((opening 0 100 [⟨[], [1, 2, 3, 4]⟩]).step ⟨false, true⟩ ⟨4, 2⟩)
      ∧ ((opening 0 100 [⟨[[1, 2, 3, 4]], [5]⟩]).step ⟨false, true⟩ ⟨4, 4⟩).returned = [[1, 2, 3, 4]]
      ∧ ((opening 0 100 [⟨[[1, 2, 3, 4]], []⟩]).step ⟨false, true⟩ ⟨4, 4⟩ |>.step ⟨false, true⟩
        ⟨4, 4⟩).dead = true := by
  refine ⟨fun assembled => ?_, by decide +kernel, by decide +kernel⟩
  have less := assembled.live (by decide +kernel) ⟨1, 1⟩ (by decide) (by decide)
  exact absurd less (by decide +kernel)

end BSDLibC.Xdrrec
