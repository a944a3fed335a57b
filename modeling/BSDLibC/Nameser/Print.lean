import BSDLibC.Nameser.Labels

/-! `ns_name_ntop` writes the text of a name. -/

namespace BSDLibC.Nameser

open Bytes Ctype

variable {dstsiz : Nat} {dn cp rest : List UInt8}

theorem flags_small {n : Nat} (h : n < 64) : n &&& cmprsflgs = 0 := by
  have all : ∀ n : Fin 64, n.val &&& cmprsflgs = 0 := by decide
  exact all ⟨n, h⟩

theorem ordinary_eq (bytes rest : List UInt8) (room : dn.length + 4 * bytes.length ≤ dstsiz)
    : ordinary dstsiz bytes.length (bytes ++ rest) dn
      = some (.ok (dn ++ bytes.flatMap escape, rest)) := by
  induction bytes generalizing dn with
  | nil => simp [ordinary]
  | cons c bytes ih =>
      have length := length_escape_le c
      rw [List.length_cons] at room
      have later : ordinary dstsiz bytes.length (bytes ++ rest) (dn ++ escape c) = _ :=
        ih (by rw [List.length_append]; omega)
      have pos := List.length_pos_iff.mpr (escape_ne_nil c)
      rw [List.length_cons, List.cons_append, ordinary, if_neg (by omega), later]
      simp

theorem sprintf_eq {text : List UInt8} (room : dn.length + text.length < dstsiz)
    : sprintf dstsiz dn text = some (dn ++ text) :=
  if_pos room

theorem wholeBytes_eq (bytes rest : List UInt8) (room : dn.length + 2 * bytes.length < dstsiz)
    : wholeBytes dstsiz bytes.length (bytes ++ rest) dn
      = some (dn ++ bytes.flatMap (fun byte => hex2 byte.toNat), rest) := by
  induction bytes generalizing dn with
  | nil => simp [wholeBytes]
  | cons byte bytes ih =>
      have length : (hex2 byte.toNat).length ≤ 2 := length_hex2_le le_rfl byte.toNat_lt
      rw [List.length_cons] at room
      have later : wholeBytes dstsiz bytes.length (bytes ++ rest) (dn ++ hex2 byte.toNat) = _ :=
        ih (by rw [List.length_append]; omega)
      rw [List.length_cons, List.cons_append, wholeBytes, sprintf_eq (by omega)]
      simp only [Option.bind_eq_bind, Option.bind_some, later]
      simp

/-- The number of bits is the one that the first byte stands for. -/
theorem count_of_byte {count : Nat} (pos : 1 ≤ count) (max : count ≤ 256)
    : (if UInt8.ofNat count = 0 then 256 else (UInt8.ofNat count).toNat) = count := by
  by_cases all : count = 256
  · subst all
    rfl
  · have value : (UInt8.ofNat count).toNat = count := by
      rw [UInt8.toNat_ofNat', Nat.mod_eq_of_lt (by omega)]
    have nonzero : UInt8.ofNat count ≠ 0 := by
      intro zero
      rw [zero, UInt8.toNat_zero] at value
      omega
    rw [if_neg nonzero, value]

theorem decodeBitstring_eq {count : Nat} {data : List UInt8} (h : (Label.bits count data).Valid)
    (room : dn.length + 2 * data.length + 9 < dstsiz)
    : decodeBitstring dstsiz (UInt8.ofNat count :: (data ++ rest)) dn
      = some (.ok (dn ++ (Label.bits count data).text, rest)) := by
  obtain ⟨pos, max, length, -⟩ := h
  have decimal : (numeral 10 count).length ≤ 3 := by
    rw [length_numeral]
    exact numeralDigits_length_le (by decide) (by decide) (by omega)
  have plen : (if count > 99 then 3 else if count > 9 then 2 else 1) ≤ 3 := by
    split
    · exact le_rfl
    · split
      · decide
      · decide
  have taken : (data.take (count / 8)).length = count / 8 := by
    rw [List.length_take]
    omega
  have whole : wholeBytes dstsiz (data.take (count / 8)).length
      (data.take (count / 8) ++ (data.drop (count / 8) ++ rest)) (dn ++ [backslash, 0x5b, 0x78]) = _ :=
    wholeBytes_eq _ _ (by
      simp only [List.length_append, List.length_cons, List.length_nil, taken]
      omega)
  have wholeLength := length_bitsText_le length
  rw [bitsText, List.length_append] at wholeLength
  rw [taken, ← List.append_assoc, List.take_append_drop] at whole
  rw [decodeBitstring]
  simp only [List.head?_cons, Option.bind_eq_bind, Option.bind_some, count_of_byte pos max,
    List.tail_cons]
  rw [if_neg (by omega), sprintf_eq (by simp only [List.length_cons, List.length_nil]; omega)]
  simp only [Option.bind_some, whole]
  by_cases partly : count % 8 > 0
  · have last : data.drop (count / 8) = [data.getD (count / 8) 0] := by
      have inside : count / 8 < data.length := by omega
      rw [List.drop_eq_getElem_cons inside, List.drop_eq_nil_of_le (by omega)]
      simp [inside]
    rw [if_pos partly] at wholeLength
    rw [if_pos partly, last]
    simp only [List.cons_append, List.nil_append, List.head?_cons, Option.bind_some, List.tail_cons]
    rw [sprintf_eq (by simp only [List.length_append, List.length_cons, List.length_nil]; omega),
      Option.bind_some,
      sprintf_eq (by simp only [List.length_append, List.length_cons, List.length_nil]; omega)]
    simp [Label.text, bitsText, partly]
  · have none_left : data.drop (count / 8) = [] := List.drop_eq_nil_of_le (by omega)
    rw [if_neg partly] at wholeLength
    rw [if_neg partly, none_left,
      sprintf_eq (by simp only [List.length_append, List.length_cons, List.length_nil]; omega)]
    simp [Label.text, bitsText, partly]

theorem label_ordinary {bytes : List UInt8} (h : (Label.ordinary bytes).Valid)
    (room : dn.length + 4 * bytes.length < dstsiz)
    : label dstsiz (UInt8.ofNat bytes.length) (bytes ++ rest) dn
      = some (.ok (dn ++ (Label.ordinary bytes).text, rest)) := by
  obtain ⟨pos, max⟩ := h
  have value : (UInt8.ofNat bytes.length).toNat = bytes.length := by
    rw [UInt8.toNat_ofNat', Nat.mod_eq_of_lt (by omega)]
  have flags := flags_small (show bytes.length < 64 by omega)
  rw [label, labellen, value, flags]
  simp only [show ¬ 0 = cmprsflgs by decide, show ¬ 0 = typeElt by decide, if_false,
    Option.bind_eq_bind, Option.bind_some]
  rw [if_neg (by omega), ordinary_eq bytes rest (by omega)]
  rfl

theorem label_bits {count : Nat} {data : List UInt8} (h : (Label.bits count data).Valid)
    (room : dn.length + 2 * data.length + 9 < dstsiz)
    : label dstsiz bitstringType (UInt8.ofNat count :: (data ++ rest)) dn
      = some (.ok (dn ++ (Label.bits count data).text, rest)) := by
  have printed : decodeBitstring dstsiz (UInt8.ofNat count :: (data ++ rest)) dn = _ :=
    decodeBitstring_eq h room
  obtain ⟨pos, max, length, -⟩ := h
  have flags : bitstringType.toNat &&& cmprsflgs = typeElt := by decide
  have other : ¬ typeElt = cmprsflgs := by decide
  rw [label, labellen, flags]
  simp only [List.head?_cons, Option.bind_eq_bind, Option.bind_some, other, if_false, if_true]
  rw [Option.pure_def, Option.bind_some, count_of_byte pos max]
  simp only
  rw [if_neg (by omega), if_neg (by simp), printed]

/-- A valid label is printed where there are four characters for each of its bytes. -/
theorem label_eq {l : Label} (h : l.Valid) (rest dn : List UInt8)
    (room : dn.length + 4 * l.wire.length ≤ dstsiz)
    : ∃ n cp, l.wire ++ rest = n :: cp ∧ n ≠ 0 ∧ n.toNat &&& cmprsflgs ≠ cmprsflgs
      ∧ label dstsiz n cp dn = some (.ok (dn ++ l.text, rest)) := by
  cases l with
  | ordinary bytes =>
      simp only [Label.wire, List.length_cons] at room
      have value : (UInt8.ofNat bytes.length).toNat = bytes.length := by
        rw [UInt8.toNat_ofNat', Nat.mod_eq_of_lt (by have := h.2; omega)]
      refine ⟨_, _, rfl, ?_, ?_, label_ordinary h (by omega)⟩
      · intro zero
        have := h.1
        rw [zero, UInt8.toNat_zero] at value
        omega
      · rw [value, flags_small (by have := h.2; omega)]
        decide
  | bits count data =>
      have positive : 1 ≤ data.length := by
        obtain ⟨pos, -, length, -⟩ := h
        omega
      simp only [Label.wire, List.length_cons] at room
      exact ⟨_, _, rfl, by decide, by decide, label_bits h (by omega)⟩

-----------------------------------------------------------------------------------------
-- Names
-----------------------------------------------------------------------------------------

theorem text_ne_nil {l : Label} (h : l.Valid) : l.text ≠ [] := by
  cases l with
  | ordinary bytes =>
      obtain ⟨pos, -⟩ := h
      obtain _ | ⟨c, bytes⟩ := bytes
      · simp at pos
      · simp [Label.text, escape_ne_nil]
  | bits count data => simp [Label.text]

theorem length_wireName_pos (labels : List Label) : 0 < (wireName labels).length := by
  simp [wireName]

/-- The labels after the first one. The induction is over them, with a byte of fuel for each. -/
theorem nsNameNtop.loop_more {labels : List Label} (valid : ∀ l ∈ labels, l.Valid) {fuel : Nat}
    (enough : (wireName labels).length < fuel) (begun : dn ≠ [])
    (room : dn.length + 4 * (wireName labels).length ≤ dstsiz)
    : nsNameNtop.loop dstsiz fuel (wireName labels) dn
      = some (.ok (dn ++ moreText labels ++ [0])) := by
  induction labels generalizing dn fuel with
  | nil =>
      obtain _ | fuel := fuel
      · simp at enough
      · have last : ¬ dstsiz ≤ dn.length := by
          simp only [wireName, List.flatMap_nil, List.nil_append, List.length_singleton] at room
          omega
        simp [wireName, moreText, nsNameNtop.loop, nsNameNtop.finish, begun, last]
  | cons l labels ih =>
      have positive := length_wireName_pos labels
      have wirePositive := length_wire_pos l
      have text := (valid l (by simp)).length_text
      rw [wireName_cons, List.length_append] at enough room
      obtain _ | fuel := fuel
      · simp at enough
      · have dotted : (dn ++ [dot]).length + 4 * l.wire.length ≤ dstsiz := by
          rw [List.length_append, List.length_singleton]
          omega
        obtain ⟨n, cp, wire, nonzero, flags, step⟩ :=
          label_eq (valid l (by simp)) (wireName labels) (dn ++ [dot]) dotted
        have later : nsNameNtop.loop dstsiz fuel (wireName labels) (dn ++ [dot] ++ l.text) = _ :=
          ih (fun l member => valid l (by simp [member])) (by omega) (by simp)
            (by simp only [List.length_append, List.length_singleton]; omega)
        have fits : ¬ dstsiz ≤ dn.length := by omega
        rw [wireName_cons, wire, nsNameNtop.loop, if_neg nonzero, if_neg flags,
          if_neg (by simp [fits]), if_neg begun, step]
        simp only
        rw [later]
        simp [moreText]

/-- Every valid name has its text. -/
theorem nsNameNtop_eq {labels : List Label} (valid : ∀ l ∈ labels, l.Valid)
    (room : 4 * (wireName labels).length ≤ dstsiz)
    : nsNameNtop (wireName labels) dstsiz = some (.ok (nameText labels ++ [0])) := by
  cases labels with
  | nil =>
      have size : 4 ≤ dstsiz := room
      have first : ¬ dstsiz = 0 := by omega
      have second : ¬ dstsiz ≤ 1 := by omega
      simp [nsNameNtop, nsNameNtop.loop, wireName, nsNameNtop.finish, nameText, first, second]
  | cons l labels =>
      have text := (valid l (by simp)).length_text
      have wirePositive := length_wire_pos l
      rw [wireName_cons, List.length_append] at room
      have fits : ([] : List UInt8).length + 4 * l.wire.length ≤ dstsiz := by
        rw [List.length_nil]
        omega
      obtain ⟨n, cp, wire, nonzero, flags, step⟩ :=
        label_eq (valid l (by simp)) (wireName labels) [] fits
      have later : nsNameNtop.loop dstsiz (l.wire ++ wireName labels).length (wireName labels) l.text
          = _ := nsNameNtop.loop_more (fun l member => valid l (List.mem_cons_of_mem _ member))
        (by rw [List.length_append]; omega) (text_ne_nil (valid l (by simp))) (by omega)
      rw [nsNameNtop, wireName_cons]
      rw [wire] at later ⊢
      rw [nsNameNtop.loop, if_neg nonzero, if_neg flags, if_neg (by simp), if_pos rfl, step]
      simp only [List.nil_append]
      rw [later, nameText]

end BSDLibC.Nameser
