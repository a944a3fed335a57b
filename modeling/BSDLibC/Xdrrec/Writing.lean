import BSDLibC.Xdrrec.Output

/-! What the writer has put on the wire and into its buffer. A fragment in the middle of a record is
never empty: a new header always leaves room for a unit behind it.
-/

namespace BSDLibC.Xdrrec

open Bytes Xdr

/-- The fragments of a record as the writer makes them. -/
structure Record.Framed (record : Record) : Prop where
  nonempty : ∀ part ∈ record.parts, part ≠ []
  bounded : ∀ part ∈ record.parts, part.length < 2 ^ 31
  last : record.last.length < 2 ^ 31

/-- The state of the writer: the records that are done, the fragments of the current record that
are sent, and the bytes of the current fragment.
-/
structure Writing (rstrm : OutStrm) (done : List Record) (parts : List (List Byte))
    (cur : List Byte) : Prop where
  units : rstrm.sendsize % 4 = 0
  large : 100 ≤ rstrm.sendsize
  small : rstrm.sendsize < 2 ^ 31
  aligned : rstrm.fragHeader % 4 = 0
  place : rstrm.fragHeader + 8 ≤ rstrm.sendsize
  length : rstrm.outBase.length = rstrm.fragHeader + 4 + cur.length
  inside : rstrm.outBase.length ≤ rstrm.sendsize
  held : rstrm.outBase.drop (rstrm.fragHeader + 4) = cur
  out : rstrm.sent ++ rstrm.outBase.take rstrm.fragHeader
    = stream done ++ parts.flatMap (fun part => fragment part false)
  mark : rstrm.fragSent = true ↔ parts ≠ []
  framed : ∀ record ∈ done, record.Framed
  nonempty : ∀ part ∈ parts, part ≠ []
  bounded : ∀ part ∈ parts, part.length < 2 ^ 31

section

variable {host : Host} {rstrm : OutStrm} {done : List Record} {parts : List (List Byte)}
  {cur : List Byte}

/-- The buffer with the header of the current fragment filled in. -/
theorem Writing.closed_eq (writing : Writing rstrm done parts cur) (host : Host) (last : Bool)
    : rstrm.closed host last = rstrm.outBase.take rstrm.fragHeader ++ fragment cur last := by
  have count : rstrm.outBase.length - rstrm.fragHeader - 4 = cur.length := by
    rw [writing.length]
    omega
  rw [OutStrm.closed, host.bytes_htonl, writing.held, count, fragment, List.append_assoc]

theorem Writing.flush_eq (writing : Writing rstrm done parts cur) (host : Host)
    (fragSent last : Bool)
    : flushOut host { rstrm with fragSent := fragSent } last
      = some
        { sendsize := rstrm.sendsize
          outBase := List.replicate 4 0
          fragHeader := 0
          fragSent := fragSent
          sent := rstrm.sent ++ rstrm.outBase.take rstrm.fragHeader ++ fragment cur last } := by
  have place := writing.place
  have inside := writing.inside
  have small := writing.small
  rw [flushOut, if_neg (show ¬ rstrm.sendsize < rstrm.fragHeader + 4 by omega),
    if_neg (show ¬ 2 ^ 31 ≤ rstrm.outBase.length by omega), List.append_assoc,
    ← writing.closed_eq host]
  rfl

/-- A fragment sent in the middle of a record. -/
theorem Writing.flush_mid (writing : Writing rstrm done parts cur) (host : Host)
    (nonempty : cur ≠ [])
    : ∃ rstrm', flushOut host { rstrm with fragSent := true } false = some rstrm'
      ∧ Writing rstrm' done (parts ++ [cur]) [] ∧ rstrm'.outBase.length = 4 := by
  have length := writing.length
  have inside := writing.inside
  have small := writing.small
  have large := writing.large
  rw [writing.flush_eq]
  refine ⟨_, rfl, ⟨writing.units, large, small, rfl, ?_, rfl, ?_, rfl, ?_, by simp,
    writing.framed, ?_, ?_⟩, rfl⟩
  · show 0 + 8 ≤ rstrm.sendsize
    omega
  · show 4 ≤ rstrm.sendsize
    omega
  · simp [writing.out]
  · simpa [or_imp, forall_and] using ⟨writing.nonempty, nonempty⟩
  · intro part member
    rcases List.mem_append.mp member with member | member
    · exact writing.bounded part member
    · rw [List.mem_singleton.mp member]
      omega

theorem Writing.framed_end (writing : Writing rstrm done parts cur)
    : ∀ record ∈ done ++ [⟨parts, cur⟩], record.Framed := by
  have length := writing.length
  have inside := writing.inside
  have small := writing.small
  intro record member
  rcases List.mem_append.mp member with member | member
  · exact writing.framed record member
  · rw [List.mem_singleton.mp member]
    exact ⟨writing.nonempty, writing.bounded, show cur.length < 2 ^ 31 by omega⟩

theorem stream_snoc (done : List Record) (record : Record)
    : stream (done ++ [record]) = stream done ++ record.wire := by
  simp [stream]

/-- A record ended with a write. -/
theorem Writing.flush_end (writing : Writing rstrm done parts cur) (host : Host)
    : ∃ rstrm', flushOut host { rstrm with fragSent := false } true = some rstrm'
      ∧ Writing rstrm' (done ++ [⟨parts, cur⟩]) [] []
      ∧ rstrm'.sent = stream (done ++ [⟨parts, cur⟩]) := by
  have large := writing.large
  have sent : rstrm.sent ++ rstrm.outBase.take rstrm.fragHeader ++ fragment cur true
      = stream (done ++ [⟨parts, cur⟩]) := by
    rw [writing.out, stream_snoc, Record.wire, List.append_assoc]
  rw [writing.flush_eq]
  refine ⟨_, rfl, ⟨writing.units, large, writing.small, rfl, ?_, rfl, ?_, rfl, ?_, by simp,
    writing.framed_end, by simp, by simp⟩, sent⟩
  · show 0 + 8 ≤ rstrm.sendsize
    omega
  · show 4 ≤ rstrm.sendsize
    omega
  · simpa using sent

/-- Bytes put into the current fragment. -/
theorem Writing.store (writing : Writing rstrm done parts cur) {bytes : List Byte}
    (room : rstrm.outBase.length + bytes.length ≤ rstrm.sendsize)
    : ∃ rstrm', rstrm.store bytes = some rstrm'
      ∧ Writing rstrm' done parts (cur ++ bytes)
      ∧ rstrm'.outBase.length = rstrm.outBase.length + bytes.length
      ∧ rstrm'.sendsize = rstrm.sendsize := by
  have length := writing.length
  rw [OutStrm.store, if_neg (by omega)]
  refine ⟨_, rfl, ⟨writing.units, writing.large, writing.small, writing.aligned, writing.place, ?_,
    ?_, ?_, ?_, writing.mark, writing.framed, writing.nonempty, writing.bounded⟩, ?_, rfl⟩
  · show (rstrm.outBase ++ bytes).length = rstrm.fragHeader + 4 + (cur ++ bytes).length
    simp only [List.length_append]
    omega
  · show (rstrm.outBase ++ bytes).length ≤ rstrm.sendsize
    rw [List.length_append]
    exact room
  · show (rstrm.outBase ++ bytes).drop (rstrm.fragHeader + 4) = cur ++ bytes
    rw [List.drop_append_of_le_length (by omega), writing.held]
  · show rstrm.sent ++ (rstrm.outBase ++ bytes).take rstrm.fragHeader = _
    rw [List.take_append_of_le_length (by omega), writing.out]
  · exact List.length_append

/-- A call goes through, and the current record has some content behind it. -/
def Holds (result : Option OutStrm) (done : List Record) (content : List Byte) : Prop :=
  ∃ rstrm parts cur, result = some rstrm ∧ Writing rstrm done parts cur
    ∧ parts.flatten ++ cur = content

theorem Writing.putlong (writing : Writing rstrm done parts cur) (host : Host) (l : BitVec 64)
    : Holds (xdrrecPutlong host rstrm l) done
        (parts.flatten ++ cur ++ beBytes (l.setWidth 32)) := by
  have length := writing.length
  have place := writing.place
  rw [xdrrecPutlong, host.bytes_htonl]
  by_cases full : rstrm.outBase.length + 4 > rstrm.sendsize
  · have nonempty : cur ≠ [] := by
      rintro rfl
      rw [List.length_nil] at length
      omega
    obtain ⟨rstrm', flushed, writing', empty⟩ := writing.flush_mid host nonempty
    have large := writing'.large
    obtain ⟨rstrm'', stored, writing'', -, -⟩ := writing'.store
      (show rstrm'.outBase.length + (beBytes (l.setWidth 32)).length ≤ rstrm'.sendsize by
        rw [length_beBytes]
        omega)
    refine ⟨rstrm'', _, _, ?_, writing'', by simp⟩
    simp only [full, if_true, flushed]
    exact stored
  · obtain ⟨rstrm', stored, writing', -, -⟩ := writing.store
      (show rstrm.outBase.length + (beBytes (l.setWidth 32)).length ≤ rstrm.sendsize by
        rw [length_beBytes]
        omega)
    refine ⟨rstrm', _, _, ?_, writing', by simp⟩
    simp only [full, if_false]
    exact stored

/-- The rounds that suffice for some bytes: one for each byte, and one more to make room. -/
theorem Writing.putbytes_loop (host : Host) (rounds : Nat)
    : ∀ {rstrm : OutStrm} {parts : List (List Byte)} {cur addr : List Byte},
      Writing rstrm done parts cur →
      (addr ≠ [] → addr.length + (if rstrm.outBase.length = rstrm.sendsize then 1 else 0) ≤ rounds) →
      Holds (xdrrecPutbytes.loop host rounds rstrm addr) done (parts.flatten ++ cur ++ addr) := by
  induction rounds with
  | zero =>
      intro rstrm parts cur addr writing enough
      cases addr with
      | nil => exact ⟨rstrm, parts, cur, by simp [xdrrecPutbytes.loop], writing, by simp⟩
      | cons byte addr => simp at enough
  | succ rounds ih =>
      intro rstrm parts cur addr writing enough
      cases addr with
      | nil => exact ⟨rstrm, parts, cur, by simp [xdrrecPutbytes.loop], writing, by simp⟩
      | cons byte addr =>
          have enough := enough (by simp)
          have inside := writing.inside
          have place := writing.place
          have length := writing.length
          rw [xdrrecPutbytes.loop]
          generalize counted : min (byte :: addr).length (rstrm.sendsize - rstrm.outBase.length)
            = current
          generalize byte :: addr = addr at enough counted
          have taken : (addr.take current).length = current := by
            rw [List.length_take]
            omega
          obtain ⟨rstrm', stored, writing', length', size'⟩ := writing.store
            (show rstrm.outBase.length + (addr.take current).length ≤ rstrm.sendsize by omega)
          have split := List.take_append_drop current addr
          simp only [stored, Option.bind_eq_bind, Option.bind_some]
          by_cases full : rstrm'.outBase.length = rstrm'.sendsize
          · have nonempty : cur ++ addr.take current ≠ [] := by
              intro nil
              have count := congrArg List.length nil
              rw [List.length_append, List.length_nil] at count
              omega
            obtain ⟨rstrm'', flushed, writing'', empty⟩ := writing'.flush_mid host nonempty
            have large := writing''.large
            have fewer : addr.drop current ≠ [] → (addr.drop current).length
                + (if rstrm''.outBase.length = rstrm''.sendsize then 1 else 0) ≤ rounds := by
              intro _
              rw [if_neg (by omega), List.length_drop]
              split at enough <;> omega
            have rest := ih writing'' fewer
            rw [if_pos full, flushed]
            simpa [split] using rest
          · have all : addr.drop current = [] := by
              rw [List.drop_eq_nil_iff]
              omega
            rw [if_neg full]
            have fewer : addr.drop current ≠ [] → (addr.drop current).length
                + (if rstrm'.outBase.length = rstrm'.sendsize then 1 else 0) ≤ rounds :=
              fun more => absurd all more
            have rest := ih writing' fewer
            simpa [split] using rest

theorem Writing.putbytes (writing : Writing rstrm done parts cur) (host : Host) (addr : List Byte)
    : Holds (xdrrecPutbytes host rstrm addr) done (parts.flatten ++ cur ++ addr) := by
  refine writing.putbytes_loop host (2 * addr.length) fun more => ?_
  have := List.length_pos_of_ne_nil more
  split <;> omega

theorem Writing.put (writing : Writing rstrm done parts cur) (host : Host) (call : Put)
    : Holds (put host rstrm call) done (parts.flatten ++ cur ++ call.content) := by
  cases call with
  | long l => exact writing.putlong host l
  | bytes addr => exact writing.putbytes host addr

theorem Writing.putAll (host : Host) (calls : List Put)
    : ∀ {rstrm : OutStrm} {parts : List (List Byte)} {cur : List Byte},
      Writing rstrm done parts cur →
      Holds (putAll host calls rstrm) done (parts.flatten ++ cur ++ calls.flatMap Put.content) := by
  induction calls with
  | nil => exact fun writing => ⟨_, _, _, rfl, writing, by simp⟩
  | cons call calls ih =>
      intro rstrm parts cur writing
      obtain ⟨rstrm', parts', cur', called, writing', content'⟩ := writing.put host call
      rw [BSDLibC.Xdrrec.putAll, called]
      obtain ⟨rstrm'', parts'', cur'', rest, writing'', content''⟩ := ih writing'
      refine ⟨rstrm'', parts'', cur'', rest, writing'', ?_⟩
      rw [content'', content', List.flatMap_cons, List.append_assoc _ _ (List.flatMap _ _)]

/-- The end of a record. -/
theorem Writing.endofrecord (writing : Writing rstrm done parts cur) (host : Host)
    (units : (parts.flatten ++ cur).length % 4 = 0) (sendnow : Bool)
    : ∃ rstrm', xdrrecEndofrecord host rstrm sendnow = some rstrm'
      ∧ Writing rstrm' (done ++ [⟨parts, cur⟩]) [] []
      ∧ (sendnow = true → rstrm'.sent = stream (done ++ [⟨parts, cur⟩])) := by
  rw [xdrrecEndofrecord]
  split
  · obtain ⟨rstrm', flushed, writing', sent⟩ := writing.flush_end host
    exact ⟨rstrm', flushed, writing', fun _ => sent⟩
  · next short =>
    simp only [Bool.or_eq_true, decide_eq_true_eq, not_or, Bool.not_eq_true] at short
    obtain ⟨⟨later, unsent⟩, room⟩ := short
    have whole : parts = [] := by
      refine not_not.mp fun more => ?_
      have sent := writing.mark.mpr more
      rw [unsent] at sent
      cases sent
    subst whole
    have length := writing.length
    have aligned := writing.aligned
    have sizes := writing.units
    have closed := writing.closed_eq host true
    rw [List.flatten_nil, List.nil_append] at units
    have same : (rstrm.closed host true).length = rstrm.outBase.length := by
      rw [closed, List.length_append, length_fragment, List.length_take]
      omega
    have total : (rstrm.closed host true ++ List.replicate 4 0).length = rstrm.outBase.length + 4 := by
      rw [List.length_append, same, List.length_replicate]
    refine ⟨_, rfl, ⟨sizes, writing.large, writing.small, ?_, ?_, total, ?_, ?_, ?_, ?_,
      writing.framed_end, by simp, by simp⟩, by simp [later]⟩
    · show rstrm.outBase.length % 4 = 0
      omega
    · show rstrm.outBase.length + 8 ≤ rstrm.sendsize
      omega
    · show (rstrm.closed host true ++ List.replicate 4 0).length ≤ rstrm.sendsize
      omega
    · show (rstrm.closed host true ++ List.replicate 4 0).drop (rstrm.outBase.length + 4) = []
      rw [← total, List.drop_length]
    · show rstrm.sent ++ (rstrm.closed host true ++ List.replicate 4 0).take rstrm.outBase.length = _
      rw [List.take_left' same, closed, ← List.append_assoc, writing.out, stream_snoc, Record.wire]
      simp
    · show rstrm.fragSent = true ↔ _
      simp [unsent]

/-- Records written one after the other, each of full units. -/
theorem Writing.writeAll (host : Host) (writtens : List Written)
    : ∀ {rstrm : OutStrm} {done : List Record}, Writing rstrm done [] [] →
      (∀ written ∈ writtens, written.content.length % 4 = 0) →
      ∃ rstrm' records, writeAll host writtens rstrm = some rstrm'
        ∧ Writing rstrm' (done ++ records) [] []
        ∧ records.map Record.content = writtens.map Written.content
        ∧ (∀ written ∈ writtens.getLast?, written.sendnow = true →
          rstrm'.sent = stream (done ++ records)) := by
  induction writtens with
  | nil => exact fun writing _ => ⟨_, [], rfl, by simpa using writing, rfl, by simp⟩
  | cons written writtens ih =>
      intro rstrm done writing units
      obtain ⟨rstrm₁, parts, cur, called, writing₁, content⟩ :=
        Writing.putAll host written.puts writing
      obtain ⟨rstrm₂, ended, writing₂, sent⟩ := writing₁.endofrecord host (by
        rw [content]
        simpa [Written.content] using units written List.mem_cons_self) written.sendnow
      obtain ⟨rstrm₃, records, rest, writing₃, contents, sent'⟩ :=
        ih writing₂ (fun other member => units other (List.mem_cons_of_mem written member))
      refine ⟨rstrm₃, ⟨parts, cur⟩ :: records, ?_, ?_, ?_, ?_⟩
      · rw [BSDLibC.Xdrrec.writeAll, called]
        simp only [Option.bind_eq_bind, Option.bind_some, ended]
        exact rest
      · simpa using writing₃
      · have same : Record.content ⟨parts, cur⟩ = written.content := by
          rw [Record.content, content]
          simp [Written.content]
        rw [List.map_cons, List.map_cons, same, contents]
      · cases writtens with
        | nil =>
            intro last member now
            cases member
            cases rest
            have none : records = [] := by simpa using contents
            subst none
            exact sent now
        | cons next writtens =>
            intro last member now
            rw [List.getLast?_cons_cons] at member
            simpa using sent' last member now

end

theorem writing_create {sendsize : Nat} (small : sendsize ≤ 2 ^ 31 - 4)
    : Writing (outCreate sendsize) [] [] [] := by
  have size : fixBufSize sendsize % 4 = 0 ∧ 100 ≤ fixBufSize sendsize
      ∧ fixBufSize sendsize < 2 ^ 31 := by
    simp only [fixBufSize]
    split <;> omega
  obtain ⟨units, large, bound⟩ := size
  refine ⟨units, large, bound, rfl, ?_, rfl, ?_, rfl, rfl, by simp [outCreate], by simp, by simp,
    by simp⟩
  · show 0 + 8 ≤ fixBufSize sendsize
    omega
  · show 4 ≤ fixBufSize sendsize
    omega

end BSDLibC.Xdrrec
