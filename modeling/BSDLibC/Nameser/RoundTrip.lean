import BSDLibC.Nameser.BitLabels

/-! Names that are printed are read back. -/

namespace BSDLibC.Nameser

open Bytes Ctype

variable {dstsiz : Nat} {src src' rest : List UInt8} {p p' : Parser}

-----------------------------------------------------------------------------------------
-- Rounds of the loop
-----------------------------------------------------------------------------------------

/-- The loop gets from one text to another one, with fuel for what is left. -/
def Leads (dstsiz : Nat) (src : List UInt8) (p : Parser) (src' : List UInt8) (p' : Parser) : Prop :=
  ∀ fuel, src.length < fuel → ∃ fuel', src'.length < fuel'
    ∧ nsNamePton2.loop dstsiz fuel src p = nsNamePton2.loop dstsiz fuel' src' p'

def Results (dstsiz : Nat) (src : List UInt8) (p : Parser) (result : Parsed) : Prop :=
  ∀ fuel, src.length < fuel → nsNamePton2.loop dstsiz fuel src p = some result

theorem Leads.refl : Leads dstsiz src p src p := fun fuel enough => ⟨fuel, enough, rfl⟩

theorem Leads.trans {src'' : List UInt8} {p'' : Parser} (h : Leads dstsiz src p src' p')
    (h' : Leads dstsiz src' p' src'' p'')
    : Leads dstsiz src p src'' p'' := by
  intro fuel enough
  obtain ⟨fuel', enough', same⟩ := h fuel enough
  obtain ⟨fuel'', enough'', same'⟩ := h' fuel' enough'
  exact ⟨fuel'', enough'', same.trans same'⟩

theorem Leads.results {result : Parsed} (h : Leads dstsiz src p src' p')
    (h' : Results dstsiz src' p' result)
    : Results dstsiz src p result := by
  intro fuel enough
  obtain ⟨fuel', enough', same⟩ := h fuel enough
  exact same.trans (h' fuel' enough')

/-- A round that takes a character. -/
theorem leads_of_step {c : UInt8}
    (step : ∀ fuel, nsNamePton2.loop dstsiz (fuel + 1) (c :: src) p
      = nsNamePton2.loop dstsiz fuel src' p')
    (shorter : src'.length ≤ src.length)
    : Leads dstsiz (c :: src) p src' p' := by
  intro fuel enough
  rw [List.length_cons] at enough
  obtain _ | fuel := fuel
  · omega
  · exact ⟨fuel, by omega, step fuel⟩

theorem store_eq (space : p.bp < dstsiz) (c : UInt8)
    : p.store dstsiz c = .ok { p with bytes := p.bytes ++ [c], escaped := false } := by
  rw [Parser.store, if_neg (Nat.not_le.mpr space)]

theorem leads_backslash (plain : p.escaped = false)
    : Leads dstsiz (backslash :: rest) p rest { p with escaped := true } := by
  refine leads_of_step (fun fuel => ?_) le_rfl
  rw [nsNamePton2.loop, plain, if_neg Bool.false_ne_true, if_pos rfl]

-----------------------------------------------------------------------------------------
-- Ordinary labels
-----------------------------------------------------------------------------------------

theorem special_plain {c : UInt8} (h : special c = true) : c ≠ 0x5b ∧ digitAt c = none := by
  simp only [special, List.mem_cons, List.not_mem_nil, or_false, decide_eq_true_eq] at h
  rcases h with rfl | rfl | rfl | rfl | rfl | rfl | rfl | rfl <;> decide

theorem digitAt_digitByte {d : Nat} (h : d < 10) : digitAt (digitByte d) = some d := by
  obtain ⟨isDigit, value, -⟩ := decimal_plain h
  rw [digitAt, if_pos isDigit, value]

/-- The three digits of a byte. -/
theorem decimalEscape_eq (c : UInt8) (rest : List UInt8)
    : decimalEscape (c.toNat / 100)
        (digitByte (c.toNat % 100 / 10) :: digitByte (c.toNat % 10) :: rest)
      = .ok (c, rest) := by
  have lt := c.toNat_lt
  have number : c.toNat / 100 * 100 + c.toNat % 100 / 10 * 10 + c.toNat % 10 = c.toNat := by omega
  rw [decimalEscape, digitAt_digitByte (by omega), digitAt_digitByte (by omega)]
  simp only [number]
  rw [if_neg (by omega), UInt8.ofNat_toNat]

/-- Each byte is read back from its text. -/
theorem leads_escape (plain : p.escaped = false) (space : p.bp < dstsiz) (c : UInt8)
    : Leads dstsiz (escape c ++ rest) p rest { p with bytes := p.bytes ++ [c] } := by
  obtain ⟨done, bytes, escaped⟩ := p
  subst plain
  have stored (escaped : Bool)
      : (⟨done, bytes, escaped⟩ : Parser).store dstsiz c = .ok ⟨done, bytes ++ [c], false⟩ :=
    store_eq space c
  rw [escape]
  split
  · next isSpecial =>
      obtain ⟨noBracket, noDigit⟩ := special_plain isSpecial
      rw [List.cons_append, List.singleton_append]
      refine (leads_backslash rfl).trans (leads_of_step (fun fuel => ?_) le_rfl)
      rw [nsNamePton2.loop, if_pos rfl, if_neg noBracket, noDigit]
      simp only [stored]
  · next notSpecial =>
      split
      · have lt := c.toNat_lt
        obtain ⟨noBracket, digit⟩ : digitByte (c.toNat / 100) ≠ 0x5b
            ∧ digitAt (digitByte (c.toNat / 100)) = some (c.toNat / 100) := by
          have all : ∀ d : Fin 10, digitByte d ≠ 0x5b := by decide
          exact ⟨all ⟨c.toNat / 100, by omega⟩, digitAt_digitByte (by omega)⟩
        rw [List.cons_append, List.cons_append, List.cons_append, List.singleton_append]
        refine (leads_backslash rfl).trans (leads_of_step (fun fuel => ?_) ?_)
        · rw [nsNamePton2.loop, if_pos rfl, if_neg noBracket, digit]
          simp only [decimalEscape_eq, stored]
        · rw [List.length_cons, List.length_cons]
          omega
      · have noBackslash : c ≠ backslash := by
          rintro rfl
          exact notSpecial (by decide)
        have noDot : c ≠ dot := by
          rintro rfl
          exact notSpecial (by decide)
        rw [List.singleton_append]
        refine leads_of_step (fun fuel => ?_) le_rfl
        rw [nsNamePton2.loop, if_neg Bool.false_ne_true, if_neg noBackslash, if_neg noDot, stored]

theorem leads_bytes (plain : p.escaped = false) (bytes : List UInt8)
    (space : p.bp + bytes.length ≤ dstsiz)
    : Leads dstsiz (bytes.flatMap escape ++ rest) p rest { p with bytes := p.bytes ++ bytes } := by
  induction bytes generalizing p with
  | nil => simpa using Leads.refl
  | cons c bytes ih =>
      rw [List.length_cons] at space
      have first : Leads dstsiz (escape c ++ (bytes.flatMap escape ++ rest)) p _
        { p with bytes := p.bytes ++ [c] } := leads_escape plain (by omega) c
      have later : Leads dstsiz (bytes.flatMap escape ++ rest) { p with bytes := p.bytes ++ [c] } rest
          { p with bytes := p.bytes ++ [c] ++ bytes } := by
        refine ih plain ?_
        simp only [Parser.bp, List.length_append, List.length_singleton] at space ⊢
        omega
      simpa using first.trans later

/-- A dot that another label follows. -/
theorem leads_dot {done bytes : List UInt8} (pos : 1 ≤ bytes.length) (max : bytes.length ≤ 63)
    (space : done.length < dstsiz) (more : rest ≠ []) (noDot : rest.head? ≠ some dot)
    : Leads dstsiz (dot :: rest) ⟨done, bytes, false⟩ rest
        ⟨done ++ (Label.ordinary bytes).wire, [], false⟩ := by
  have nonempty : bytes ≠ [] := List.length_pos_iff.mp pos
  have flags := flags_small (show bytes.length < 64 by omega)
  refine leads_of_step (fun fuel => ?_) le_rfl
  rw [nsNamePton2.loop, if_neg Bool.false_ne_true, if_neg (by decide), if_pos rfl, flags,
    if_neg (by decide), Parser.label, if_neg (Nat.not_le.mpr space), if_neg more,
    if_neg (by simp [nonempty, noDot])]
  rfl

/-- The end of the text. -/
theorem results_end {done bytes : List UInt8} (max : bytes.length ≤ 63)
    : Results dstsiz [] ⟨done, bytes, false⟩ (closeName dstsiz ⟨done, bytes, false⟩ 0) := by
  have flags := flags_small (show bytes.length < 64 by omega)
  intro fuel enough
  obtain _ | fuel := fuel
  · simp at enough
  · rw [nsNamePton2.loop, flags, if_neg (by decide)]

-----------------------------------------------------------------------------------------
-- Bit strings
-----------------------------------------------------------------------------------------

/-- The bracket that closes a label is the first one. -/
theorem findIdx_bracketed {ds : List Nat} (small : ∀ d ∈ ds, d < 16) (count : Nat) (cp : List UInt8)
    : ∃ close, (bracketed ds count cp).findIdx? (· == 0x5d) = some close
      ∧ close + 2 = bracketedLeft ds count := by
  refine ⟨(0x78 :: (ds.map digitByte ++ 0x2f :: numeral 10 count)).length, ?_, ?_⟩
  · have text : bracketed ds count cp
        = (0x78 :: (ds.map digitByte ++ 0x2f :: numeral 10 count)) ++ 0x5d :: cp := by
      simp [bracketed]
    have none_before : (0x78 :: (ds.map digitByte ++ 0x2f :: numeral 10 count)).findIdx?
        (· == (0x5d : UInt8)) = none := by
      rw [List.findIdx?_eq_none_iff]
      intro c member
      simp only [List.mem_cons, List.mem_append, List.mem_map] at member
      rw [beq_eq_false_iff_ne]
      rcases member with rfl | ⟨d, inside, rfl⟩ | rfl | inside
      · decide
      · exact (hexDigit_plain (small d inside)).2.2.1
      · decide
      · obtain ⟨d, digit, rfl⟩ := List.mem_map.mp inside
        exact (decimal_plain (numeralDigits_lt (by decide) digit)).2.2.1
    rw [text, List.findIdx?_append, none_before, List.findIdx?_cons]
    simp
  · simp only [bracketedLeft, List.length_cons, List.length_append, List.length_map]
    omega

theorem text_bits {count : Nat} {data : List UInt8} {ds : List Nat}
    (digits : bitsText count data = ds.map digitByte) (rest : List UInt8)
    : (Label.bits count data).text ++ rest = backslash :: 0x5b :: bracketed ds count rest := by
  simp [Label.text, bracketed, digits]

section
variable {count : Nat} {data done : List UInt8} (valid : (Label.bits count data).Valid)
include valid

theorem leads_bits (good : (Label.bits count data).Unsigned)
    (space : done.length + (Label.bits count data).wire.length < dstsiz) (rest : List UInt8)
    : Leads dstsiz ((Label.bits count data).text ++ dot :: rest) ⟨done, [], false⟩ rest
        ⟨done ++ (Label.bits count data).wire, [], false⟩ := by
  obtain ⟨close, found, left⟩ := findIdx_bracketed (goodDigits_lt count data) count (dot :: rest)
  simp only [Label.wire, List.length_cons] at space
  rw [text_bits (bitsText_good valid good)]
  refine (leads_backslash rfl).trans (leads_of_step (fun fuel => ?_) ?_)
  · rw [nsNamePton2.loop, if_pos rfl, if_pos rfl, found]
    simp only [left]
    rw [encodeBitsring_good valid (by simp only [Parser.bp, List.length_nil]; omega)]
    simp [Label.wire]
  · simp only [bracketed, List.length_cons, List.length_append]
    omega

theorem results_bits (good : (Label.bits count data).Unsigned)
    (space : done.length + (Label.bits count data).wire.length < dstsiz)
    : Results dstsiz (Label.bits count data).text ⟨done, [], false⟩
        (closeName dstsiz ⟨done ++ (Label.bits count data).wire, [], false⟩ 0) := by
  obtain ⟨close, found, left⟩ := findIdx_bracketed (goodDigits_lt count data) count []
  simp only [Label.wire, List.length_cons] at space
  rw [← List.append_nil (Label.bits count data).text, text_bits (bitsText_good valid good)]
  refine (leads_backslash rfl).results fun fuel enough => ?_
  obtain _ | fuel := fuel
  · simp at enough
  · rw [nsNamePton2.loop, if_pos rfl, if_pos rfl, found]
    simp only [left]
    rw [encodeBitsring_good valid (by simp only [Parser.bp, List.length_nil]; omega)]
    simp [Label.wire]

/-- A label that is not fine is refused. There are too many digits. -/
theorem results_spoilt (bad : ¬ (Label.bits count data).Unsigned) (rest : List UInt8)
    : ∃ errno, Results dstsiz ((Label.bits count data).text ++ rest) ⟨done, [], false⟩
        (.error errno) := by
  obtain ⟨pos, max, length, -⟩ := valid
  obtain ⟨low, minus⟩ : 4 < count % 8 ∧ ¬ data.getLastD 0 < 0x80 := Classical.not_imp.mp bad
  obtain ⟨split, last⟩ := data_split length (by omega)
  obtain ⟨ds, digits, three, small⟩ := lastBits_signed low (Nat.mod_lt _ (by decide)) minus
  have text : bitsText count data = (nibbles (data.take (count / 8)) ++ ds).map digitByte := by
    rw [bitsText, flatMap_hex2, if_pos (by omega), last, digits, List.map_append]
  have smallAll : ∀ d ∈ nibbles (data.take (count / 8)) ++ ds, d < 16 := by
    intro d member
    rcases List.mem_append.mp member with inside | inside
    · exact nibbles_lt _ d inside
    · exact small d inside
  have total : (nibbles (data.take (count / 8)) ++ ds).length = 2 * (count / 8) + 3 := by
    rw [List.length_append, length_nibbles, List.length_take, three]
    omega
  obtain ⟨close, found, left⟩ := findIdx_bracketed smallAll count rest
  obtain ⟨errno, refused⟩ : ∃ errno, encodeBitsring (bracketed (nibbles (data.take (count / 8)) ++ ds)
      count rest) (bracketedLeft (nibbles (data.take (count / 8)) ++ ds) count)
        (dstsiz - (⟨done, [], true⟩ : Parser).bp) = .error errno :=
    encodeBitsring_spoilt smallAll (List.ne_nil_of_length_pos (by omega)) pos max (by omega)
  refine ⟨errno, ?_⟩
  rw [text_bits text]
  refine (leads_backslash rfl).results fun fuel enough => ?_
  obtain _ | fuel := fuel
  · simp at enough
  · rw [nsNamePton2.loop, if_pos rfl, if_pos rfl, found]
    simp only [left, refused]

end

-----------------------------------------------------------------------------------------
-- Names
-----------------------------------------------------------------------------------------

/-- No text of a label begins with a dot. -/
theorem head_text {l : Label} (valid : l.Valid) (rest : List UInt8)
    : (l.text ++ rest).head? ≠ some dot := by
  cases l with
  | bits count data =>
      simp only [Label.text, List.cons_append, List.head?_cons]
      decide
  | ordinary bytes =>
      obtain _ | ⟨c, bytes⟩ := bytes
      · simp [Label.Valid] at valid
      · simp only [Label.text, List.flatMap_cons, List.append_assoc]
        rw [escape]
        split
        · simp only [List.cons_append, List.head?_cons]
          decide
        · next notSpecial =>
            split
            · simp only [List.cons_append, List.head?_cons]
              decide
            · simp only [List.cons_append, List.head?_cons, ne_eq, Option.some.injEq]
              rintro rfl
              exact notSpecial (by decide)

theorem closeName_empty {done : List UInt8} (space : done.length < dstsiz) (max : done.length < maxCdname)
    : closeName dstsiz ⟨done, [], false⟩ 0 = .ok (0, done ++ [0]) := by
  rw [closeName, Parser.label, if_neg (Nat.not_le.mpr space), if_pos rfl, if_neg]
  · rfl
  · simp only [List.length_append, List.length_cons, List.length_nil]
    omega

section
variable {l : Label} {done : List UInt8} (valid : l.Valid) (good : l.Unsigned)
include valid good

theorem leads_label (space : done.length + l.wire.length < dstsiz) {next : Label}
    (nextValid : next.Valid) (rest : List UInt8)
    : Leads dstsiz (l.text ++ dot :: (next.text ++ rest)) ⟨done, [], false⟩ (next.text ++ rest)
        ⟨done ++ l.wire, [], false⟩ := by
  cases l with
  | bits count data => exact leads_bits valid good space _
  | ordinary bytes =>
      simp only [Label.wire, List.length_cons] at space
      have read : Leads dstsiz ((Label.ordinary bytes).text ++ dot :: (next.text ++ rest))
          ⟨done, [], false⟩ (dot :: (next.text ++ rest)) ⟨done, bytes, false⟩ :=
        leads_bytes rfl bytes (by simp only [Parser.bp, List.length_nil]; omega)
      exact read.trans (leads_dot valid.1 valid.2 (by omega) (by simp [text_ne_nil nextValid])
        (head_text nextValid rest))

theorem results_label (space : done.length + l.wire.length < dstsiz)
    (max : done.length + l.wire.length < maxCdname)
    : Results dstsiz l.text ⟨done, [], false⟩ (.ok (0, done ++ l.wire ++ [0])) := by
  cases l with
  | bits count data =>
      rw [← List.length_append] at space max
      have read := results_bits valid good (by rwa [List.length_append] at space)
      rwa [closeName_empty space max] at read
  | ordinary bytes =>
      simp only [Label.wire, List.length_cons] at space max
      have read : Leads dstsiz ((Label.ordinary bytes).text ++ []) ⟨done, [], false⟩ []
          ⟨done, bytes, false⟩ :=
        leads_bytes rfl bytes (by simp only [Parser.bp, List.length_nil]; omega)
      rw [List.append_nil] at read
      have close : closeName dstsiz ⟨done, bytes, false⟩ 0
          = .ok (0, done ++ (Label.ordinary bytes).wire ++ [0]) := by
        rw [closeName, Parser.label, if_neg (by simp only; omega),
          if_neg (List.length_pos_iff.mp valid.1), if_neg (by simp only [Parser.bp]; omega), if_neg]
        · rfl
        · simp only [List.length_append, List.length_cons]
          omega
      rw [← close]
      exact read.results (results_end valid.2)

end

theorem nameText_cons_cons (l next : Label) (labels : List Label)
    : nameText (l :: next :: labels) = l.text ++ dot :: nameText (next :: labels) := by
  simp [nameText, moreText]

/-- A name of labels that are all fine is read back. The induction is over its labels, of which
those in `done` have been read.
-/
theorem results_name {l : Label} {labels : List Label} {done : List UInt8}
    (valid : ∀ label ∈ l :: labels, label.Valid) (good : ∀ label ∈ l :: labels, label.Unsigned)
    (space : done.length + (wireName (l :: labels)).length ≤ dstsiz)
    (max : done.length + (wireName (l :: labels)).length ≤ maxCdname)
    : Results dstsiz (nameText (l :: labels)) ⟨done, [], false⟩
        (.ok (0, done ++ wireName (l :: labels))) := by
  have first := valid l (by simp)
  have firstGood := good l (by simp)
  induction labels generalizing l done with
  | nil =>
      simp only [wireName, List.flatMap_cons, List.flatMap_nil, List.append_nil, List.length_append,
        List.length_singleton] at space max ⊢
      simpa [nameText, moreText] using results_label first firstGood (by omega) (by omega)
  | cons next labels ih =>
      have nextValid := valid next (by simp)
      have positive := length_wireName_pos (next :: labels)
      rw [wireName_cons, List.length_append] at space max
      have read : Leads dstsiz (l.text ++ dot :: nameText (next :: labels)) ⟨done, [], false⟩ _ _ :=
        leads_label first firstGood (by omega) nextValid (moreText labels)
      have later : Results dstsiz (nameText (next :: labels)) ⟨done ++ l.wire, [], false⟩ _ :=
        ih (fun label member => valid label (List.mem_cons_of_mem _ member))
          (fun label member => good label (List.mem_cons_of_mem _ member))
          (by rw [List.length_append]; omega) (by rw [List.length_append]; omega) nextValid
          (good next (by simp))
      rw [nameText_cons_cons, wireName_cons, ← List.append_assoc]
      exact read.results later

/-- A name with a label that is not fine is refused there. -/
theorem results_name_spoilt {l : Label} {labels : List Label} {done : List UInt8}
    (valid : ∀ label ∈ l :: labels, label.Valid) (bad : ∃ label ∈ l :: labels, ¬ label.Unsigned)
    (space : done.length + (wireName (l :: labels)).length ≤ dstsiz)
    : ∃ errno, Results dstsiz (nameText (l :: labels)) ⟨done, [], false⟩ (.error errno) := by
  have first := valid l (by simp)
  by_cases good : l.Unsigned
  · induction labels generalizing l done with
    | nil => simp [good] at bad
    | cons next labels ih =>
        have nextValid := valid next (by simp)
        have positive := length_wireName_pos (next :: labels)
        rw [wireName_cons, List.length_append] at space
        have read : Leads dstsiz (l.text ++ dot :: nameText (next :: labels)) ⟨done, [], false⟩ _ _ :=
          leads_label first good (by omega) nextValid (moreText labels)
        have badLater : ∃ label ∈ next :: labels, ¬ label.Unsigned := by
          obtain ⟨label, member, spoilt⟩ := bad
          rcases List.mem_cons.mp member with rfl | later
          · exact absurd good spoilt
          · exact ⟨label, later, spoilt⟩
        obtain ⟨errno, refused⟩ : ∃ errno, Results dstsiz (nameText (next :: labels))
            ⟨done ++ l.wire, [], false⟩ (.error errno) := by
          by_cases nextGood : next.Unsigned
          · exact ih (fun label member => valid label (List.mem_cons_of_mem _ member)) badLater
              (by rw [List.length_append]; omega) nextValid nextGood
          · cases next with
            | ordinary bytes => exact absurd trivial nextGood
            | bits count data => exact results_spoilt nextValid nextGood _
        rw [nameText_cons_cons]
        exact ⟨errno, read.results refused⟩
  · cases l with
    | ordinary bytes => exact absurd trivial good
    | bits count data => exact results_spoilt first good _

-----------------------------------------------------------------------------------------
-- Round trips
-----------------------------------------------------------------------------------------

theorem escape_ne_zero (c : UInt8) : ∀ ch ∈ escape c, ch ≠ 0 := by
  have lt := c.toNat_lt
  have digit {d : Nat} (h : d < 10) : digitByte d ≠ 0 := digitByte_ne_zero (by omega)
  rw [escape]
  split
  · next isSpecial =>
      have nonzero : c ≠ 0 := by
        rintro rfl
        exact absurd isSpecial (by decide)
      simp [backslash, nonzero]
  · split
    · simp only [List.mem_cons, List.not_mem_nil, or_false]
      rintro ch (rfl | rfl | rfl | rfl)
      · decide
      · exact digit (by omega)
      · exact digit (by omega)
      · exact digit (by omega)
    · next isPrintable =>
        have nonzero : c ≠ 0 := by
          rintro rfl
          exact isPrintable (by decide)
        simpa using nonzero

theorem hex2_ne_zero (n : Nat) : ∀ ch ∈ hex2 n, ch ≠ 0 := by
  intro ch member
  rcases List.mem_append.mp member with zeros | digits
  · rw [List.eq_of_mem_replicate zeros]
    decide
  · exact numeral_ne_zero (by decide) (by decide) ch digits

theorem bitsText_ne_zero (count : Nat) (data : List UInt8) : ∀ ch ∈ bitsText count data, ch ≠ 0 := by
  intro ch member
  rcases List.mem_append.mp member with whole | last
  · obtain ⟨byte, -, inside⟩ := List.mem_flatMap.mp whole
    exact hex2_ne_zero _ ch inside
  · split at last
    · rw [lastBits] at last
      split at last
      · exact hex2_ne_zero _ ch last
      · exact numeral_ne_zero (by decide) (by decide) ch last
    · simp at last

theorem Label.text_ne_zero (l : Label) : ∀ ch ∈ l.text, ch ≠ 0 := by
  cases l with
  | ordinary bytes =>
      intro ch member
      obtain ⟨c, -, inside⟩ := List.mem_flatMap.mp member
      exact escape_ne_zero c ch inside
  | bits count data =>
      intro ch member
      simp only [Label.text, List.mem_append, List.mem_cons, List.not_mem_nil, or_false] at member
      rcases member with ((rfl | rfl | rfl) | digits) | ((rfl | length) | rfl)
      · decide
      · decide
      · decide
      · exact bitsText_ne_zero count data ch digits
      · decide
      · exact numeral_ne_zero (by decide) (by decide) ch length
      · decide

theorem nameText_ne_zero (labels : List Label) : ∀ ch ∈ nameText labels, ch ≠ 0 := by
  cases labels with
  | nil => simp [nameText, dot]
  | cons l labels =>
      intro ch member
      rcases List.mem_append.mp member with first | more
      · exact l.text_ne_zero ch first
      · obtain ⟨label, -, inside⟩ := List.mem_flatMap.mp more
        rcases List.mem_cons.mp inside with rfl | inside
        · decide
        · exact label.text_ne_zero ch inside

/-- The size of a buffer for every text. -/
def nsMaxdname : Nat := 1025

/-- A name is printed, and its text is read back as the same name. -/
def RoundTrips (labels : List Label) (size dstsiz : Nat) : Prop :=
  ∃ text, nsNameNtop (wireName labels) size = some (.ok text)
    ∧ ∃ qualified, nsNamePton (text.takeWhile (· != 0)) dstsiz
        = some (.ok (qualified, wireName labels))

section
variable {labels : List Label} {size : Nat} (valid : ∀ l ∈ labels, l.Valid)
  (room : 4 * (wireName labels).length ≤ size) (space : (wireName labels).length ≤ dstsiz)
include valid room space

theorem roundTrips_of_unsigned (max : (wireName labels).length ≤ maxCdname)
    (good : ∀ l ∈ labels, l.Unsigned)
    : RoundTrips labels size dstsiz := by
  refine ⟨_, nsNameNtop_eq valid room, ?_⟩
  rw [takeWhile_text (nameText_ne_zero labels)]
  cases labels with
  | nil =>
      have positive : ¬ dstsiz = 0 := Nat.ne_of_gt space
      refine ⟨1, ?_⟩
      simp [nsNamePton, nsNamePton2.loop, nameText, wireName, closeName, Parser.label, positive,
        maxCdname]
      decide
  | cons l labels =>
      rw [← Nat.zero_add (wireName (l :: labels)).length] at space max
      have read : Results dstsiz (nameText (l :: labels)) ⟨[], [], false⟩ _ :=
        results_name valid good space max
      exact ⟨0, read _ (Nat.lt_succ_self _)⟩

theorem unsigned_of_roundTrips (trip : RoundTrips labels size dstsiz) : ∀ l ∈ labels, l.Unsigned := by
  obtain ⟨text, printed, qualified, parsed⟩ := trip
  rw [nsNameNtop_eq valid room] at printed
  obtain rfl := Except.ok.inj (Option.some.inj printed)
  rw [takeWhile_text (nameText_ne_zero labels)] at parsed
  by_contra bad
  simp only [not_forall] at bad
  obtain ⟨label, member, spoilt⟩ := bad
  cases labels with
  | nil => simp at member
  | cons l labels =>
      rw [← Nat.zero_add (wireName (l :: labels)).length] at space
      obtain ⟨errno, refused⟩ : ∃ errno, Results dstsiz (nameText (l :: labels)) ⟨[], [], false⟩
          (.error errno) := results_name_spoilt valid ⟨label, member, spoilt⟩ space
      rw [nsNamePton, refused _ (Nat.lt_succ_self _)] at parsed
      cases parsed

end

/-- Every name of ordinary labels is printed to a buffer of `NS_MAXDNAME` bytes, and read back. -/
theorem ordinary_roundTrip (names : List (List UInt8))
    (valid : ∀ bytes ∈ names, 1 ≤ bytes.length ∧ bytes.length ≤ 63)
    (max : (wireName (names.map Label.ordinary)).length ≤ 255) (dstsiz : Nat)
    (space : (wireName (names.map Label.ordinary)).length ≤ dstsiz)
    : RoundTrips (names.map Label.ordinary) nsMaxdname dstsiz := by
  have room : 4 * (wireName (names.map Label.ordinary)).length ≤ nsMaxdname := by
    rw [nsMaxdname]
    omega
  refine roundTrips_of_unsigned ?_ room space max ?_
  · intro l member
    obtain ⟨bytes, inside, rfl⟩ := List.mem_map.mp member
    exact valid bytes inside
  · intro l member
    obtain ⟨bytes, -, rfl⟩ := List.mem_map.mp member
    trivial

/-- Witness: labels with a dot, a backslash, a bracket, a digit and bytes that are not printable. -/
theorem ordinary_roundTrip_escapes
    : RoundTrips ([[0x2e, 0x5c, 0x5b, 0x30], [0x00, 0x31, 0xff]].map Label.ordinary) nsMaxdname 10 :=
  ordinary_roundTrip [[0x2e, 0x5c, 0x5b, 0x30], [0x00, 0x31, 0xff]] (by decide) (by decide) 10
    (by decide)

/-- A name with bit strings comes back if and only if no sign of a last byte gets into its text. -/
theorem bitstring_roundTrip_iff (labels : List Label) (valid : ∀ l ∈ labels, l.Valid)
    (max : (wireName labels).length ≤ 255) (size : Nat) (room : nsMaxdname ≤ size) (dstsiz : Nat)
    (space : (wireName labels).length ≤ dstsiz)
    : RoundTrips labels size dstsiz
      ↔ ∀ count data, Label.bits count data ∈ labels → 4 < count % 8 → data.getLastD 0 < 0x80 := by
  have room' : 4 * (wireName labels).length ≤ size := by
    rw [nsMaxdname] at room
    omega
  refine ⟨fun trip count data member => ?_, fun good => ?_⟩
  · exact unsigned_of_roundTrips valid room' space trip (.bits count data) member
  · refine roundTrips_of_unsigned valid room' space max fun l member => ?_
    cases l with
    | ordinary bytes => trivial
    | bits count data => exact good count data member

/-- Witness: thirteen bits in two bytes. -/
theorem bitstring_roundTrip_thirteen
    : RoundTrips [.bits 13 [0xa5, 0x78], .ordinary [0x61]] 1025 255 := by
  refine (bitstring_roundTrip_iff _ ?_ (by decide) _ le_rfl _ (by decide)).mpr ?_
  · simp [Label.Valid, padClear]
  · simp

/-- Five bits, of which the first is one, are printed with three digits. -/
theorem bitstring_signed
    : (Label.bits 5 [0x88]).Valid
      ∧ nsNameNtop (wireName [.bits 5 [0x88]]) 1025
        = some (.ok [0x5c, 0x5b, 0x78, 0x37, 0x38, 0x38, 0x2f, 0x35, 0x5d, 0])
      ∧ nsNamePton [0x5c, 0x5b, 0x78, 0x37, 0x38, 0x38, 0x2f, 0x35, 0x5d] 255
        = some (.error .EINVAL)
      ∧ ¬ RoundTrips [.bits 5 [0x88]] 1025 255 := by
  have printed : nsNameNtop (wireName [.bits 5 [0x88]]) 1025
      = some (.ok [0x5c, 0x5b, 0x78, 0x37, 0x38, 0x38, 0x2f, 0x35, 0x5d, 0]) := by
    decide +kernel
  have refused : nsNamePton [0x5c, 0x5b, 0x78, 0x37, 0x38, 0x38, 0x2f, 0x35, 0x5d] 255
      = some (.error .EINVAL) := by
    decide +kernel
  refine ⟨by simp [Label.Valid, padClear], printed, refused, ?_⟩
  rintro ⟨text, printed', qualified, parsed⟩
  rw [printed] at printed'
  obtain rfl := Except.ok.inj (Option.some.inj printed')
  exact absurd (refused.symm.trans parsed) (by simp)

end BSDLibC.Nameser
