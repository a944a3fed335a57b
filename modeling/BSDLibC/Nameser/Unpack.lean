import BSDLibC.Nameser.Name

/-! The decompression of a name from a message, as `ns_name_unpack2` does it. The bytes before `dstp`
are a list, and `srcp` is an index. An `int` has 32 bits and wraps round.
-/

namespace BSDLibC.Nameser

/-- The conversion to an `int`. -/
def wrapInt (z : Int) : Int := z.bmod (2 ^ 32)

/-- The variables of the loop, where `len` is negative before the first pointer. -/
structure Unpacking where
  srcp : Nat
  dst : List UInt8
  len : Int
  checked : Int
deriving DecidableEq, Repr

/-- How a call ends: with an access outside of the message or of `dst`, with `-1`, or with a name. -/
inductive Unpacked
  | fault
  | failed (errno : Errno)
  | done (consumed : Int) (dst : List UInt8)
deriving DecidableEq, Repr

inductive UnpackStep
  | ends (result : Unpacked)
  | next (s : Unpacking)
deriving DecidableEq, Repr

/-- `((n & 0x3f) << 8) | (*srcp & 0xff)` -/
def pointerTarget (n b : UInt8) : Nat := (n.toNat &&& 0x3f) <<< 8 ||| b.toNat

section

variable (msg : List UInt8) (src dstsiz : Nat)

/-- A label, whose first byte is before `srcp`. -/
def unpackLabel (n : UInt8) (srcp : Nat) (s : Unpacking) : UnpackStep :=
  match labellen (msg.drop (srcp - 1)) with
  | none => .ends .fault
  | some none => .ends (.failed .EMSGSIZE)
  | some (some l) =>
      if s.dst.length + l + 1 ≥ dstsiz ∨ srcp + l ≥ msg.length then .ends (.failed .EMSGSIZE)
      else
        .next ⟨srcp + l, s.dst ++ n :: (msg.drop srcp).take l, s.len, wrapInt (s.checked + (l + 1))⟩

/-- A pointer, whose first byte is before `srcp`. -/
def unpackPointer (n : UInt8) (srcp : Nat) (s : Unpacking) : UnpackStep :=
  match msg[srcp]? with
  | none => .ends (.failed .EMSGSIZE)
  | some b =>
      let len := if s.len < 0 then wrapInt ((srcp : Int) - src + 1) else s.len
      let n := pointerTarget n b
      if n ≥ msg.length then .ends (.failed .EMSGSIZE)
      else
        let checked := wrapInt (s.checked + 2)
        if checked ≥ msg.length then .ends (.failed .EMSGSIZE) else .next ⟨n, s.dst, len, checked⟩

/-- The root label. -/
def unpackRoot (srcp : Nat) (s : Unpacking) : UnpackStep :=
  if s.dst.length < dstsiz then
    .ends (.done (if s.len < 0 then wrapInt ((srcp : Int) - src) else s.len) (s.dst ++ [0]))
  else
    .ends .fault

/-- A round of the loop. -/
def unpackStep (s : Unpacking) : UnpackStep :=
  match msg[s.srcp]? with
  | none => .ends .fault
  | some n =>
      if n = 0 then unpackRoot src dstsiz (s.srcp + 1) s
      else if n.toNat &&& cmprsflgs = 0 ∨ n.toNat &&& cmprsflgs = typeElt then
        unpackLabel msg dstsiz n (s.srcp + 1) s
      else if n.toNat &&& cmprsflgs = cmprsflgs then unpackPointer msg src n (s.srcp + 1) s
      else .ends (.failed .EMSGSIZE)

/-- The loop, as long as there are rounds left. -/
def unpackLoop : Nat → Unpacking → Option Unpacked
  | 0, _ => none
  | rounds + 1, s =>
      match unpackStep msg src dstsiz s with
      | .ends result => some result
      | .next s => unpackLoop rounds s

/-- `ns_name_unpack2` for a start at the index `src` of the message. -/
def nsNameUnpack2 (rounds : Nat) : Option Unpacked :=
  if src ≥ msg.length then some (.failed .EMSGSIZE)
  else unpackLoop msg src dstsiz rounds ⟨src, [], -1, 0⟩

end

variable {msg : List UInt8} {src dstsiz : Nat}

-----------------------------------------------------------------------------------------
-- Rounds
-----------------------------------------------------------------------------------------

/-- The loop ends with a result. -/
def Ends (msg : List UInt8) (src dstsiz : Nat) (s : Unpacking) (result : Unpacked) : Prop :=
  ∃ rounds, unpackLoop msg src dstsiz rounds s = some result

theorem Ends.last {s : Unpacking} {result : Unpacked}
    (step : unpackStep msg src dstsiz s = .ends result)
    : Ends msg src dstsiz s result :=
  ⟨1, by rw [unpackLoop, step]⟩

theorem Ends.more {s next : Unpacking} {result : Unpacked}
    (step : unpackStep msg src dstsiz s = .next next) (later : Ends msg src dstsiz next result)
    : Ends msg src dstsiz s result := by
  obtain ⟨rounds, ended⟩ := later
  exact ⟨rounds + 1, by rw [unpackLoop, step]; exact ended⟩

/-- A first byte of an ordinary label, and one of a pointer. -/
theorem flags_of_byte (n : UInt8)
    : (n.toNat < 64 → n.toNat &&& cmprsflgs = 0)
      ∧ (192 ≤ n.toNat ↔ n.toNat &&& cmprsflgs = cmprsflgs)
      ∧ (n.toNat &&& cmprsflgs = 0 → n.toNat < 64) := by
  have all : ∀ n : Fin 256, (n.val < 64 → n.val &&& cmprsflgs = 0)
      ∧ (192 ≤ n.val ↔ n.val &&& cmprsflgs = cmprsflgs) ∧ (n.val &&& cmprsflgs = 0 → n.val < 64) := by
    decide +kernel
  exact all ⟨n.toNat, n.toNat_lt⟩

theorem wrapInt_bounds (z : Int) : -2 ^ 31 ≤ wrapInt z ∧ wrapInt z ≤ 2 ^ 31 - 1 := by
  have low := @Int.le_bmod z (2 ^ 32) (by decide)
  have high := @Int.bmod_lt z (2 ^ 32) (by decide)
  rw [wrapInt]
  omega

theorem wrapInt_eq {z : Int} (low : -2 ^ 31 ≤ z) (high : z < 2 ^ 31) : wrapInt z = z :=
  Int.bmod_eq_of_le (by omega) (by omega)

/-- A number is not more after it has wrapped round, if it was not less than the least one. -/
theorem wrapInt_le {z : Int} (low : -2 ^ 31 ≤ z) : wrapInt z ≤ z := by
  by_cases high : z < 2 ^ 31
  · exact (wrapInt_eq low high).le
  · have := (wrapInt_bounds z).2
    omega

-----------------------------------------------------------------------------------------
-- Names that are accepted
-----------------------------------------------------------------------------------------

/-- The chain of ordinary labels and pointers from a place: the name with its root label, the places
of the bytes that are visited, and the number of bytes up to the first pointer or the root label.
-/
inductive Chain (msg : List UInt8) : Nat → List UInt8 → List Nat → Nat → Prop
  | root {i} (here : msg[i]? = some 0) : Chain msg i [0] [i] 1
  | label {i l name visited consumed} (here : msg[i]? = some l) (some : l ≠ 0) (short : l.toNat ≤ 63)
    (more : Chain msg (i + (l.toNat + 1)) name visited consumed)
    : Chain msg i ((msg.drop i).take (l.toNat + 1) ++ name)
        (List.range' i (l.toNat + 1) ++ visited) (l.toNat + 1 + consumed)
  | pointer {i n b name visited consumed} (here : msg[i]? = some n) (flags : 192 ≤ n.toNat)
    (second : msg[i + 1]? = some b)
    (more : Chain msg ((n.toNat - 192) * 256 + b.toNat) name visited consumed)
    : Chain msg i name (i :: (i + 1) :: visited) 2

theorem pointerTarget_eq {n : UInt8} (flags : 192 ≤ n.toNat) (b : UInt8)
    : pointerTarget n b = (n.toNat - 192) * 256 + b.toNat := by
  have all : ∀ n : Fin 256, 192 ≤ n.val → n.val &&& 0x3f = n.val - 192 := by decide +kernel
  have small : b.toNat < 2 ^ 8 := b.toNat_lt
  rw [pointerTarget, all ⟨n.toNat, n.toNat_lt⟩ flags, ← Nat.shiftLeft_add_eq_or_of_lt small,
    Nat.shiftLeft_eq]

theorem labellen_ordinary {i : Nat} {l : UInt8} (here : msg[i]? = some l) (short : l.toNat ≤ 63)
    : labellen (msg.drop i) = some (some l.toNat) := by
  obtain ⟨inside, rfl⟩ := List.getElem?_eq_some_iff.mp here
  have flags := (flags_of_byte msg[i]).1 (by omega)
  rw [List.drop_eq_getElem_cons inside, labellen, flags]
  rfl

theorem unpackStep_root {s : Unpacking} (here : msg[s.srcp]? = some 0)
    (room : s.dst.length < dstsiz)
    : unpackStep msg src dstsiz s
      = .ends (.done (if s.len < 0 then wrapInt (((s.srcp + 1 : Nat) : Int) - src) else s.len)
          (s.dst ++ [0])) := by
  rw [unpackStep, here]
  simp only [if_true]
  rw [unpackRoot, if_pos room]

theorem unpackStep_label {s : Unpacking} {l : UInt8} (here : msg[s.srcp]? = some l) (some : l ≠ 0)
    (short : l.toNat ≤ 63) (room : s.dst.length + l.toNat + 1 < dstsiz)
    (inside : s.srcp + 1 + l.toNat < msg.length)
    : unpackStep msg src dstsiz s
      = .next ⟨s.srcp + 1 + l.toNat, s.dst ++ (msg.drop s.srcp).take (l.toNat + 1), s.len,
          wrapInt (s.checked + (l.toNat + 1))⟩ := by
  obtain ⟨lt, rfl⟩ := List.getElem?_eq_some_iff.mp here
  rw [unpackStep, here]
  simp only
  rw [if_neg some, if_pos (Or.inl ((flags_of_byte _).1 (by omega))), unpackLabel, Nat.add_sub_cancel,
    labellen_ordinary here short]
  simp only
  rw [if_neg (by omega), List.drop_eq_getElem_cons lt, List.take_succ_cons]

theorem unpackStep_pointer {s : Unpacking} {n b : UInt8} (here : msg[s.srcp]? = some n)
    (flags : 192 ≤ n.toNat) (second : msg[s.srcp + 1]? = some b)
    (target : (n.toNat - 192) * 256 + b.toNat < msg.length)
    (unlooped : wrapInt (s.checked + 2) < msg.length)
    : unpackStep msg src dstsiz s
      = .next ⟨(n.toNat - 192) * 256 + b.toNat, s.dst,
          if s.len < 0 then wrapInt (((s.srcp + 1 : Nat) : Int) - src + 1) else s.len,
          wrapInt (s.checked + 2)⟩ := by
  have pointer := (flags_of_byte n).2.1.mp flags
  have other : n ≠ 0 := by
    rintro rfl
    cases flags
  rw [unpackStep, here]
  simp only
  rw [if_neg other, if_neg (by rw [pointer]; decide), if_pos pointer, unpackPointer, second]
  simp only
  rw [pointerTarget_eq flags, if_neg (by omega), if_neg (by omega)]

theorem Chain.inside {i consumed : Nat} {name : List UInt8} {visited : List Nat}
    (chain : Chain msg i name visited consumed)
    : i < msg.length ∧ 1 ≤ name.length ∧ 1 ≤ visited.length ∧ ∀ j ∈ visited, j < msg.length := by
  induction chain with
  | root here =>
      have inside := (List.getElem?_eq_some_iff.mp here).1
      exact ⟨inside, le_rfl, le_rfl, by simpa using inside⟩
  | label here some short more ih =>
      refine ⟨(List.getElem?_eq_some_iff.mp here).1, ?_, ?_, ?_⟩
      · rw [List.length_append]
        omega
      · rw [List.length_append]
        omega
      · intro j among
        rcases List.mem_append.mp among with first | later
        · rw [List.mem_range'_1] at first
          omega
        · exact ih.2.2.2 j later
  | pointer here flags second more ih =>
      have inside := (List.getElem?_eq_some_iff.mp here).1
      have inside' := (List.getElem?_eq_some_iff.mp second).1
      refine ⟨inside, ih.2.1, by simp, ?_⟩
      simp only [List.mem_cons, forall_eq_or_imp]
      exact ⟨inside, inside', ih.2.2.2⟩

/-- The count of a loop that follows a chain: the bytes that are still to be visited have room above
it. No byte is visited twice, so that the count stays below the size of the message.
-/
theorem Chain.ends {i consumed : Nat} {name : List UInt8} {visited : List Nat}
    (chain : Chain msg i name visited consumed) {s : Unpacking} {count : Nat} (place : s.srcp = i)
    (low : -2 ^ 31 ≤ s.checked) (counted : s.checked ≤ count)
    (left : count + visited.length ≤ msg.length) (room : s.dst.length + name.length ≤ dstsiz)
    (first : s.len < 0 → src ≤ i ∧ i - src + consumed < 2 ^ 31)
    : Ends msg src dstsiz s
        (.done (if s.len < 0 then (i : Int) - src + consumed else s.len) (s.dst ++ name)) := by
  induction chain generalizing s count with
  | @root i here =>
      subst place
      have length : (if s.len < 0 then (s.srcp : Int) - src + (1 : Nat) else s.len)
          = if s.len < 0 then wrapInt (((s.srcp + 1 : Nat) : Int) - src) else s.len := by
        split
        next negative =>
          have := first negative
          rw [wrapInt_eq (by omega) (by omega)]
          omega
        next => rfl
      rw [length]
      exact Ends.last (unpackStep_root here (by simpa using room))
  | @label i l name visited consumed here some short more ih =>
      subst place
      obtain ⟨inside, positive, -, -⟩ := more.inside
      rw [List.length_append, List.length_take, List.length_drop] at room
      rw [List.length_append, List.length_range'] at left
      have next := @unpackStep_label msg src dstsiz s l here some short (by omega) (by omega)
      refine Ends.more next ?_
      have later := @ih ⟨s.srcp + 1 + l.toNat, s.dst ++ (msg.drop s.srcp).take (l.toNat + 1), s.len,
        wrapInt (s.checked + (l.toNat + 1))⟩ (count + (l.toNat + 1)) (by simp only; omega)
        (wrapInt_bounds _).1 ((wrapInt_le (by omega)).trans (by push_cast; omega)) (by omega)
        (by simp only [List.length_append, List.length_take, List.length_drop]; omega)
        (fun negative => by have := first negative; omega)
      have length : (if s.len < 0 then (s.srcp : Int) - src + ((l.toNat + 1 + consumed : Nat) : Int)
            else s.len)
          = if s.len < 0 then ((s.srcp + (l.toNat + 1) : Nat) : Int) - src + consumed else s.len := by
        split
        · omega
        · rfl
      rw [length, ← List.append_assoc]
      exact later
  | @pointer i n b name visited consumed here flags second more ih =>
      subst place
      obtain ⟨target, -, positive, -⟩ := more.inside
      simp only [List.length_cons] at left
      have unlooped : wrapInt (s.checked + 2) ≤ count + 2 := (wrapInt_le (by omega)).trans (by omega)
      have length : (if s.len < 0 then wrapInt (((s.srcp + 1 : Nat) : Int) - src + 1) else s.len)
          = if s.len < 0 then (s.srcp : Int) - src + (2 : Nat) else s.len := by
        split
        next negative =>
          have := first negative
          rw [wrapInt_eq (by omega) (by omega)]
          omega
        next => rfl
      have counted' : ¬ (if s.len < 0 then (s.srcp : Int) - src + (2 : Nat) else s.len) < 0 := by
        split
        next negative =>
          have := first negative
          omega
        next positive => exact positive
      have step := @unpackStep_pointer msg src dstsiz s n b here flags second target (by omega)
      rw [length] at step
      have later := @ih ⟨(n.toNat - 192) * 256 + b.toNat, s.dst,
        if s.len < 0 then (s.srcp : Int) - src + (2 : Nat) else s.len, wrapInt (s.checked + 2)⟩
        (count + 2) rfl (wrapInt_bounds _).1 unlooped (by omega) room
        (fun negative => absurd negative counted')
      rw [if_neg counted'] at later
      exact Ends.more step later

/-- A name is unpacked from every chain that reaches a root label and visits no byte twice, where there
is room for the name, and where the bytes up to the first pointer can be counted with an `int`.
-/
theorem nsNameUnpack2_of_chain {start consumed : Nat} {name : List UInt8} {visited : List Nat}
    (chain : Chain msg start name visited consumed) (once : visited.Nodup)
    (room : name.length ≤ dstsiz) (fits : consumed < 2 ^ 31)
    : ∃ rounds, nsNameUnpack2 msg start dstsiz rounds = some (.done consumed name) := by
  obtain ⟨inside, -, -, places⟩ := chain.inside
  have few : visited.length ≤ msg.length := by
    have subset : visited ⊆ List.range msg.length := fun j among => List.mem_range.mpr (places j among)
    have := (once.subperm subset).length_le
    rwa [List.length_range] at this
  obtain ⟨rounds, ended⟩ := @Chain.ends msg start dstsiz start consumed name visited chain
    ⟨start, [], -1, 0⟩ 0 rfl (show (-2 ^ 31 : Int) ≤ 0 by decide) le_rfl (by omega) (by simpa using room)
    (fun _ => ⟨le_rfl, by omega⟩)
  refine ⟨rounds, ?_⟩
  rw [nsNameUnpack2, if_neg (by omega), ended]
  simp

/-- Witness: `www` and a pointer to `a` before it. -/
theorem nsNameUnpack2_of_chain_pointer
    : ∃ rounds, nsNameUnpack2 [1, 0x61, 0, 3, 0x77, 0x77, 0x77, 0xc0, 0] 3 255 rounds
      = some (.done 6 [3, 0x77, 0x77, 0x77, 1, 0x61, 0]) :=
  nsNameUnpack2_of_chain
    (.label (l := 3) rfl (by decide) (by decide) (.pointer (n := 0xc0) (b := 0) rfl (by decide) rfl
      (.label (l := 1) rfl (by decide) (by decide) (.root rfl)))) (by decide) (by decide) (by decide)

end BSDLibC.Nameser
