import BSDLibC.Xdrrec.Input
import BSDLibC.Xdrrec.Writing

/-! Where the reader stands in a stream of records, and what its calls do there. -/

namespace BSDLibC.Xdrrec

open Bytes Xdr

/-- The input buffer has room for a byte at any alignment. -/
structure Sized (rstrm : InStrm) : Prop where
  large : 4 ≤ rstrm.inSize
  small : rstrm.inSize < 2 ^ 31

/-- Nothing but the buffer has changed. -/
structure Refilled (rstrm rstrm' : InStrm) : Prop where
  inSize : rstrm'.inSize = rstrm.inSize
  fbtbc : rstrm'.fbtbc = rstrm.fbtbc
  lastFrag : rstrm'.lastFrag = rstrm.lastFrag

section

variable {cut : Nat → Nat} {rstrm : InStrm}

theorem Refilled.sized {rstrm' : InStrm} (refilled : Refilled rstrm rstrm') (sized : Sized rstrm)
    : Sized rstrm' :=
  ⟨refilled.inSize ▸ sized.large, refilled.inSize ▸ sized.small⟩

theorem Refilled.trans {rstrm' rstrm'' : InStrm} (first : Refilled rstrm rstrm')
    (second : Refilled rstrm' rstrm'')
    : Refilled rstrm rstrm'' :=
  ⟨second.inSize.trans first.inSize, second.fbtbc.trans first.fbtbc,
    second.lastFrag.trans first.lastFrag⟩

/-- A refill moves bytes to come into the empty buffer. -/
theorem fillInputBuf_some (cut : Nat → Nat) (sized : Sized rstrm) (empty : rstrm.inBuf = [])
    (more : rstrm.pending ≠ [])
    : ∃ rstrm', fillInputBuf cut rstrm = some rstrm' ∧ rstrm'.coming = rstrm.coming
      ∧ rstrm'.inBuf ≠ [] ∧ Refilled rstrm rstrm' := by
  have large := sized.large
  have small := sized.small
  have askable : ¬ (rstrm.pending = [] ∨ rstrm.inSize - rstrm.inBoundry % 4 = 0
      ∨ 2 ^ 31 ≤ rstrm.inSize - rstrm.inBoundry % 4) := by
    rintro (nil | none | many)
    · exact more nil
    · omega
    · omega
  rw [fillInputBuf, InStrm.readit]
  simp only [if_neg askable, Option.bind_eq_bind, Option.bind_some]
  refine ⟨_, rfl, ?_, ?_, rfl, rfl, rfl⟩
  · simp [InStrm.coming, empty]
  · intro nil
    have := List.length_pos_of_ne_nil more
    have := congrArg List.length nil
    simp only [List.length_take, List.length_nil] at this
    omega

/-- Bytes that are to come are got; a byte may take a round for a refill and one for itself. -/
theorem getInputBytes_loop (cut : Nat → Nat) (rounds : Nat)
    : ∀ (len : Nat) (got : List Byte) (rstrm : InStrm), Sized rstrm →
      len ≤ rstrm.coming.length →
      2 * len ≤ rounds + (if rstrm.inBuf = [] then 0 else 1) →
      ∃ rstrm', getInputBytes.loop cut rounds len got rstrm
          = (some (got ++ rstrm.coming.take len), rstrm')
        ∧ rstrm'.coming = rstrm.coming.drop len ∧ Refilled rstrm rstrm' := by
  induction rounds with
  | zero =>
      intro len got rstrm sized inside enough
      have none : len = 0 := by
        split at enough <;> omega
      subst none
      exact ⟨rstrm, by simp [getInputBytes.loop], by simp, rfl, rfl, rfl⟩
  | succ rounds ih =>
      intro len got rstrm sized inside enough
      cases len with
      | zero => exact ⟨rstrm, by simp [getInputBytes.loop], by simp, rfl, rfl, rfl⟩
      | succ len =>
          rw [getInputBytes.loop]
          by_cases empty : rstrm.inBuf = []
          · rw [if_pos empty] at enough ⊢
            have more : rstrm.pending ≠ [] := by
              rintro nil
              simp [InStrm.coming, empty, nil] at inside
            obtain ⟨rstrm', filled, same, nonempty, refilled⟩ :=
              fillInputBuf_some cut sized empty more
            obtain ⟨rstrm'', done, rest, refilled'⟩ := ih (len + 1) got rstrm'
              (refilled.sized sized) (by rw [same]; exact inside) (by rw [if_neg nonempty]; exact enough)
            rw [filled]
            refine ⟨rstrm'', ?_, ?_, ?_⟩
            · rw [← same]
              exact done
            · rw [rest, same]
            · exact refilled.trans refilled'
          · rw [if_neg empty] at enough ⊢
            have some : 0 < rstrm.inBuf.length := List.length_pos_of_ne_nil empty
            generalize counted : min (len + 1) rstrm.inBuf.length = current
            have taken : rstrm.inBuf.take current ++ (rstrm.coming.drop current).take
                (len + 1 - current) = rstrm.coming.take (len + 1) := by
              have front : rstrm.inBuf.take current = rstrm.coming.take current := by
                rw [InStrm.coming, List.take_append_of_le_length (by omega)]
              rw [front, ← List.take_add]
              congr 1
              omega
            have rest : ({ rstrm with inBuf := rstrm.inBuf.drop current } : InStrm).coming
                = rstrm.coming.drop current := by
              rw [InStrm.coming, InStrm.coming, List.drop_append_of_le_length (by omega)]
            obtain ⟨rstrm', done, left, refilled⟩ := ih (len + 1 - current)
              (got ++ rstrm.inBuf.take current)
              { rstrm with inBuf := rstrm.inBuf.drop current } ⟨sized.large, sized.small⟩
              (by rw [rest, List.length_drop]; omega) (by split <;> omega)
            refine ⟨rstrm', ?_, ?_, refilled.inSize, refilled.fbtbc, refilled.lastFrag⟩
            · rw [← taken, ← List.append_assoc, ← rest]
              exact done
            · rw [left, rest, List.drop_drop]
              congr 1
              omega

/-- `get_input_bytes` takes from the front of what is to come. -/
theorem getInputBytes_eq (cut : Nat → Nat) (sized : Sized rstrm) {len : Nat}
    (inside : len ≤ rstrm.coming.length)
    : ∃ rstrm', getInputBytes cut rstrm len = (some (rstrm.coming.take len), rstrm')
      ∧ rstrm'.coming = rstrm.coming.drop len ∧ Refilled rstrm rstrm' :=
  getInputBytes_loop cut (2 * len) len [] rstrm sized inside (Nat.le_add_right _ _)

/-- Where the reader stands: what is left of the current record, and the records behind it. It is
in the last fragment, or further fragments of the record follow.
-/
inductive At (rstrm : InStrm) : List Byte → List Record → Prop where
  | last {cur : List Byte} {rest : List Record} (sized : Sized rstrm)
      (mark : rstrm.lastFrag = true) (count : rstrm.fbtbc = cur.length)
      (coming : rstrm.coming = cur ++ stream rest) (framed : ∀ record ∈ rest, record.Framed)
      : At rstrm cur rest
  | more {cur : List Byte} {record : Record} {rest : List Record} (sized : Sized rstrm)
      (mark : rstrm.lastFrag = false) (count : rstrm.fbtbc = cur.length)
      (coming : rstrm.coming = cur ++ (record.wire ++ stream rest)) (here : record.Framed)
      (framed : ∀ record ∈ rest, record.Framed)
      : At rstrm (cur ++ record.content) rest

/-- A header that is read back from the wire. -/
theorem header_read (host : Host) {bytes : List Byte} (small : bytes.length < 2 ^ 31) {last : Bool}
    (nonempty : last = false → bytes ≠ [])
    : let word := host.ntohl (host.word (beBytes (header bytes.length last)))
      word ≠ 0 ∧ fraglen word = bytes.length ∧ isLast word = last := by
  rw [host.ntohl_word (length_beBytes _), beWord_beBytes]
  refine ⟨fun zero => ?_, fraglen_header small last, isLast_header small last⟩
  have length := fraglen_header small last
  have mark := isLast_header small last
  rw [zero] at length mark
  cases last with
  | true => cases mark
  | false =>
      have none : (0 : Nat) = bytes.length := length
      exact nonempty rfl (List.eq_nil_of_length_eq_zero none.symm)

/-- The next fragment is opened. -/
theorem setInputFragment_eq (cut : Nat → Nat) (host : Host) (sized : Sized rstrm)
    {bytes more : List Byte} {last : Bool} (small : bytes.length < 2 ^ 31)
    (nonempty : last = false → bytes ≠ [])
    (coming : rstrm.coming = fragment bytes last ++ more)
    : ∃ rstrm', setInputFragment cut host rstrm = (true, rstrm') ∧ Sized rstrm'
      ∧ rstrm'.lastFrag = last ∧ rstrm'.fbtbc = bytes.length ∧ rstrm'.coming = bytes ++ more := by
  have length : 4 ≤ rstrm.coming.length := by
    rw [coming, List.length_append, length_fragment]
    omega
  obtain ⟨rstrm', got, rest, refilled⟩ := getInputBytes_eq cut sized length
  rw [coming, fragment, List.append_assoc, List.take_left' (length_beBytes _)] at got
  rw [coming, fragment, List.append_assoc, List.drop_left' (length_beBytes _)] at rest
  obtain ⟨nonzero, count, mark⟩ := header_read host small nonempty
  rw [setInputFragment, got]
  simp only [if_neg nonzero, count, mark]
  exact ⟨_, rfl, ⟨(refilled.sized sized).large, (refilled.sized sized).small⟩, rfl, rfl, rest⟩

/-- The next fragment of a record that goes on is opened. -/
theorem setInputFragment_at (cut : Nat → Nat) (host : Host) (sized : Sized rstrm)
    {record : Record} {rest : List Record} (coming : rstrm.coming = record.wire ++ stream rest)
    (here : record.Framed) (framed : ∀ record ∈ rest, record.Framed)
    : ∃ rstrm', setInputFragment cut host rstrm = (true, rstrm') ∧ At rstrm' record.content rest
      ∧ rstrm'.coming.length < rstrm.coming.length := by
  obtain ⟨parts, last⟩ := record
  cases parts with
  | nil =>
      rw [Record.wire, List.flatMap_nil, List.nil_append] at coming
      obtain ⟨rstrm', opened, sized', mark, count, rest'⟩ :=
        setInputFragment_eq cut host sized here.last (by simp) coming
      refine ⟨rstrm', opened, ?_, ?_⟩
      · simpa [Record.content] using At.last sized' mark count rest' framed
      · rw [coming, rest']
        simp
  | cons part parts =>
      have wire : Record.wire ⟨part :: parts, last⟩
          = fragment part false ++ Record.wire ⟨parts, last⟩ := by
        simp [Record.wire]
      rw [wire, List.append_assoc] at coming
      obtain ⟨rstrm', opened, sized', mark, count, rest'⟩ :=
        setInputFragment_eq cut host sized (here.bounded part List.mem_cons_self)
          (fun _ => here.nonempty part List.mem_cons_self) coming
      have tail : Record.Framed ⟨parts, last⟩ :=
        ⟨fun other member => here.nonempty other (List.mem_cons_of_mem part member),
          fun other member => here.bounded other (List.mem_cons_of_mem part member), here.last⟩
      refine ⟨rstrm', opened, ?_, ?_⟩
      · have at' := At.more sized' mark count rest' tail framed
        simpa [Record.content] using at'
      · rw [coming, rest']
        simp

theorem At.sized {left : List Byte} {rest : List Record} (at' : At rstrm left rest)
    : Sized rstrm := by
  cases at' with
  | last sized mark count coming framed => exact sized
  | more sized mark count coming here framed => exact sized

/-- What is left of the current fragment comes first. -/
theorem At.front {left : List Byte} {rest : List Record} (at' : At rstrm left rest) {n : Nat}
    (inside : n ≤ rstrm.fbtbc)
    : n ≤ rstrm.coming.length ∧ rstrm.coming.take n = left.take n := by
  cases at' with
  | last sized mark count coming framed =>
      rw [coming, List.length_append, List.take_append_of_le_length (by omega)]
      exact ⟨by omega, rfl⟩
  | more sized mark count coming here framed =>
      rw [coming, List.length_append, List.take_append_of_le_length (by omega),
        List.take_append_of_le_length (by omega)]
      exact ⟨by omega, rfl⟩

/-- The reader moved on in the current fragment. -/
theorem At.advance {left : List Byte} {rest : List Record} (at' : At rstrm left rest) {n : Nat}
    (inside : n ≤ rstrm.fbtbc) {rstrm' : InStrm} (refilled : Refilled rstrm rstrm')
    (after : rstrm'.coming = rstrm.coming.drop n)
    : At { rstrm' with fbtbc := rstrm'.fbtbc - n } (left.drop n) rest := by
  have sized' := refilled.sized at'.sized
  have sized'' : Sized { rstrm' with fbtbc := rstrm'.fbtbc - n } := ⟨sized'.large, sized'.small⟩
  have counted (cur : List Byte) (count : rstrm.fbtbc = cur.length)
      : ({ rstrm' with fbtbc := rstrm'.fbtbc - n } : InStrm).fbtbc = (cur.drop n).length := by
    rw [List.length_drop, ← count, ← refilled.fbtbc]
  cases at' with
  | last sized mark count coming framed =>
      refine .last sized'' (refilled.lastFrag.trans mark) (counted left count) ?_ framed
      show rstrm'.coming = _
      rw [after, coming, List.drop_append_of_le_length (by omega)]
  | @more cur record _ sized mark count coming here framed =>
      rw [List.drop_append_of_le_length (by omega)]
      refine .more sized'' (refilled.lastFrag.trans mark) (counted cur count) ?_ here framed
      show rstrm'.coming = _
      rw [after, coming, List.drop_append_of_le_length (by omega)]

/-- Bytes taken from the current fragment. -/
theorem At.take (cut : Nat → Nat) {left : List Byte} {rest : List Record}
    (at' : At rstrm left rest) {n : Nat} (inside : n ≤ rstrm.fbtbc)
    : ∃ rstrm', getInputBytes cut rstrm n = (some (left.take n), rstrm')
      ∧ At { rstrm' with fbtbc := rstrm'.fbtbc - n } (left.drop n) rest
      ∧ rstrm'.coming.length + n = rstrm.coming.length ∧ Refilled rstrm rstrm' := by
  obtain ⟨length, bytes⟩ := at'.front inside
  obtain ⟨rstrm', got, after, refilled⟩ := getInputBytes_eq cut at'.sized length
  refine ⟨rstrm', by rw [got, bytes], at'.advance inside refilled after, ?_, refilled⟩
  rw [after, List.length_drop]
  omega

theorem At.fbtbc_le {left : List Byte} {rest : List Record} (at' : At rstrm left rest)
    : rstrm.fbtbc ≤ left.length := by
  cases at' with
  | last sized mark count coming framed => omega
  | more sized mark count coming here framed =>
      rw [List.length_append]
      omega

/-- At the end of a fragment, the record ends or its next fragment is opened. -/
theorem At.next (cut : Nat → Nat) (host : Host) {left : List Byte} {rest : List Record}
    (at' : At rstrm left rest) (ended : rstrm.fbtbc = 0)
    : (rstrm.lastFrag = true ∧ left = [] ∧ rstrm.coming = stream rest)
      ∨ (rstrm.lastFrag = false
        ∧ ∃ rstrm', setInputFragment cut host rstrm = (true, rstrm') ∧ At rstrm' left rest
          ∧ rstrm'.coming.length < rstrm.coming.length) := by
  cases at' with
  | last sized mark count coming framed =>
      have empty : left = [] := List.eq_nil_of_length_eq_zero (by omega)
      exact .inl ⟨mark, empty, by rw [coming, empty, List.nil_append]⟩
  | @more cur record _ sized mark count coming here framed =>
      have empty : cur = [] := List.eq_nil_of_length_eq_zero (by omega)
      subst empty
      rw [List.nil_append] at coming ⊢
      exact .inr ⟨mark, setInputFragment_at cut host sized coming here framed⟩

/-- A read gets what is left of the record, and stays in it. -/
theorem getbytes_loop (cut : Nat → Nat) (host : Host) (rounds : Nat)
    : ∀ (len : Nat) (got : List Byte) {left : List Byte} {rest : List Record} {rstrm : InStrm},
      At rstrm left rest → rstrm.coming.length < rounds →
      ∃ rstrm', xdrrecGetbytes.loop cut host rounds len got rstrm
          = (if len ≤ left.length then some (got ++ left.take len) else none, rstrm')
        ∧ At rstrm' (left.drop len) rest := by
  induction rounds with
  | zero => exact fun _ _ _ _ _ _ none => absurd none (Nat.not_lt_zero _)
  | succ rounds ih =>
      intro len got left rest rstrm at' enough
      cases len with
      | zero => exact ⟨rstrm, by simp [xdrrecGetbytes.loop], by simpa using at'⟩
      | succ len =>
          rw [xdrrecGetbytes.loop]
          by_cases ended : rstrm.fbtbc = 0
          · rw [if_pos ended]
            rcases at'.next cut host ended with ⟨mark, rfl, -⟩ | ⟨mark, rstrm', opened, next, less⟩
            · rw [if_pos mark]
              exact ⟨rstrm, by simp, by simpa using at'⟩
            · obtain ⟨rstrm'', done, last⟩ := ih (len + 1) got next (by omega)
              rw [if_neg (by simp [mark]), opened]
              exact ⟨rstrm'', done, last⟩
          · have bound := at'.fbtbc_le
            rw [if_neg ended]
            generalize counted : min (len + 1) rstrm.fbtbc = current
            obtain ⟨rstrm', taken, next, less, -⟩ := at'.take cut
              (show current ≤ rstrm.fbtbc by omega)
            have fewer : ({ rstrm' with fbtbc := rstrm'.fbtbc - current } : InStrm).coming.length
                < rounds := by
              show rstrm'.coming.length < rounds
              omega
            obtain ⟨rstrm'', done, last⟩ := ih (len + 1 - current) (got ++ left.take current) next
              fewer
            have fits : len + 1 - current ≤ (left.drop current).length ↔ len + 1 ≤ left.length := by
              rw [List.length_drop]
              omega
            have bytes : got ++ left.take current ++ (left.drop current).take (len + 1 - current)
                = got ++ left.take (len + 1) := by
              rw [List.append_assoc, ← List.take_add]
              congr 2
              omega
            have after : (left.drop current).drop (len + 1 - current) = left.drop (len + 1) := by
              rw [List.drop_drop]
              congr 1
              omega
            simp only [fits, bytes] at done
            rw [after] at last
            simp only [taken]
            exact ⟨rstrm'', done, last⟩

theorem At.getbytes (cut : Nat → Nat) (host : Host) {left : List Byte} {rest : List Record}
    (at' : At rstrm left rest) (len : Nat)
    : ∃ rstrm', xdrrecGetbytes cut host rstrm len
        = (if len ≤ left.length then some (left.take len) else none, rstrm')
      ∧ At rstrm' (left.drop len) rest := by
  rw [xdrrecGetbytes]
  simpa using getbytes_loop cut host (rstrm.coming.length + 1) len [] at' (Nat.lt_succ_self _)

/-- The inline path of `xdrrec_getlong` gets what its other path gets. -/
theorem At.getlong (cut : Nat → Nat) (host : Host) {left : List Byte} {rest : List Record}
    (at' : At rstrm left rest)
    : ∃ rstrm', xdrrecGetlong cut host rstrm
        = (if 4 ≤ left.length then some ((beWord (left.take 4)).setWidth 64) else none, rstrm')
      ∧ At rstrm' (left.drop 4) rest := by
  have bound := at'.fbtbc_le
  rw [xdrrecGetlong]
  by_cases inline : 4 ≤ rstrm.fbtbc ∧ 4 ≤ rstrm.inBuf.length
  · obtain ⟨counted, held⟩ := inline
    have front : rstrm.inBuf.take 4 = left.take 4 := by
      rw [← (at'.front counted).2, InStrm.coming, List.take_append_of_le_length held]
    have length : (left.take 4).length = 4 := by
      rw [List.length_take]
      omega
    have after : ({ rstrm with inBuf := rstrm.inBuf.drop 4 } : InStrm).coming
        = rstrm.coming.drop 4 := by
      rw [InStrm.coming, InStrm.coming, List.drop_append_of_le_length held]
    have refilled : Refilled rstrm { rstrm with inBuf := rstrm.inBuf.drop 4 } := ⟨rfl, rfl, rfl⟩
    have moved := at'.advance counted refilled after
    rw [if_pos ⟨counted, held⟩, if_pos (by omega), front, host.ntohl_word length]
    exact ⟨_, rfl, moved⟩
  · rw [if_neg inline]
    obtain ⟨rstrm', got, after⟩ := at'.getbytes cut host 4
    rw [got]
    by_cases long : 4 ≤ left.length
    · have length : (left.take 4).length = 4 := by
        rw [List.length_take]
        omega
      simp only [if_pos long, host.ntohl_word length]
      exact ⟨rstrm', rfl, after⟩
    · simp only [if_neg long]
      exact ⟨rstrm', rfl, after⟩

/-- Skipping goes to the next record from anywhere in the current one. -/
theorem skiprecord_loop (cut : Nat → Nat) (host : Host) (rounds : Nat)
    : ∀ {left : List Byte} {record : Record} {rest : List Record} {rstrm : InStrm},
      At rstrm left (record :: rest) → rstrm.coming.length < rounds →
      ∃ rstrm', xdrrecSkiprecord.loop cut host rounds rstrm = (true, rstrm')
        ∧ At rstrm' record.content rest := by
  induction rounds with
  | zero => exact fun _ none => absurd none (Nat.not_lt_zero _)
  | succ rounds ih =>
      intro left record rest rstrm at' enough
      rw [xdrrecSkiprecord.loop]
      obtain ⟨rstrm', taken, next, less, refilled⟩ := at'.take cut (Nat.le_refl rstrm.fbtbc)
      have ended : rstrm'.fbtbc - rstrm.fbtbc = 0 := by
        rw [refilled.fbtbc, Nat.sub_self]
      rw [ended] at next
      by_cases inside : rstrm.fbtbc > 0 ∨ rstrm.lastFrag = false
      · rw [if_pos inside, skipInputBytes, taken]
        simp only [Option.isSome_some]
        rcases next.next cut host rfl with ⟨mark, -, -⟩ | ⟨mark, rstrm'', opened, next', less'⟩
        · have positive : rstrm.fbtbc > 0 := by
            refine inside.resolve_right fun unmarked => ?_
            rw [← refilled.lastFrag, show rstrm'.lastFrag = true from mark] at unmarked
            cases unmarked
          have fewer : ({ rstrm' with fbtbc := 0 } : InStrm).coming.length < rounds := by
            show rstrm'.coming.length < rounds
            omega
          rw [if_pos mark]
          exact ih next fewer
        · have fewer : rstrm''.coming.length < rounds := by
            have : rstrm''.coming.length < rstrm'.coming.length := less'
            omega
          rw [if_neg (by simpa using mark), opened]
          exact ih next' fewer
      · simp only [not_or, Nat.not_lt, Nat.le_zero, Bool.not_eq_false] at inside
        obtain ⟨zero, marked⟩ := inside
        rw [if_neg (by simp [zero, marked])]
        refine ⟨_, rfl, ?_⟩
        cases at' with
        | more sized mark count coming here framed =>
            rw [marked] at mark
            cases mark
        | last sized mark count coming framed =>
            have empty : left = [] := List.eq_nil_of_length_eq_zero (by omega)
            rw [empty, List.nil_append, stream_cons] at coming
            have moved : At { rstrm with lastFrag := false } ([] ++ record.content) rest :=
              .more ⟨sized.large, sized.small⟩ rfl zero coming (framed record List.mem_cons_self)
                (fun other member => framed other (List.mem_cons_of_mem record member))
            exact moved

theorem At.skiprecord (cut : Nat → Nat) (host : Host) {left : List Byte} {record : Record}
    {rest : List Record} (at' : At rstrm left (record :: rest))
    : ∃ rstrm', xdrrecSkiprecord cut host rstrm = (true, rstrm') ∧ At rstrm' record.content rest :=
  skiprecord_loop cut host (rstrm.coming.length + 1) at' (Nat.lt_succ_self _)

end

end BSDLibC.Xdrrec
