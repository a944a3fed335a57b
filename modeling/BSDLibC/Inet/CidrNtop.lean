import BSDLibC.Inet.RoundTrip

/-! Addresses with a width in text form, as `inet_cidr_ntop.c` writes them. A text is written from the
front of its buffer, and a list has the characters up to the terminator. A result `none` is a store
outside of a buffer.
-/

namespace BSDLibC.Inet

open Bytes

inductive CidrErrno
  | EINVAL
  | EMSGSIZE
  | EAFNOSUPPORT
deriving DecidableEq, Repr

def slash : UInt8 := 0x2f

/-- `*tp++ = c` -/
def put (capacity : Nat) (text : List UInt8) (c : UInt8) : Option (List UInt8) :=
  if text.length < capacity then some (text ++ [c]) else none

/-- `sprintf` at the end of the text, with its terminator. -/
def sprintf (capacity : Nat) (text out : List UInt8) : Option (List UInt8) :=
  if text.length + out.length < capacity then some (text ++ out) else none

/-- `decoct`, where `some none` is the result `0`. -/
def decoct (capacity : Nat) : List UInt8 → Nat → List UInt8 → Option (Option (List UInt8))
  | [], _, text => some (some text)
  | octet :: octets, size, text =>
      if size < 5 then some none
      else do
        let next ← sprintf capacity text (numeral 10 octet.toNat)
        let next ← if octets = [] then some next else sprintf capacity next [period]
        decoct capacity octets (size - (next.length - text.length)) next

-----------------------------------------------------------------------------------------
-- `inet_cidr_ntop_ipv4`
-----------------------------------------------------------------------------------------

/-- The number of octets, up to the width and up to the last one that is not zero. -/
def octetCount (src : List UInt8) (bits : Int) : Nat :=
  let len :=
    if bits = -1 then 4
    else [1, 2, 3].foldl (fun len b => if src.getD b 0 ≠ 0 then b + 1 else len) 1
  let bytes := ((if bits ≤ 0 then 1 else bits.toNat) + 7) / 8
  if len > bytes then len else bytes

def inetCidrNtop4 (src : List UInt8) (bits : Int) (size : Nat)
    : Option (Except CidrErrno (List UInt8)) :=
  if bits < -1 ∨ bits > 32 then some (.error .EINVAL)
  else do
    match ← decoct size (src.take (octetCount src bits)) size [] with
    | none => return .error .EMSGSIZE
    | some text =>
        if bits = -1 then return .ok text
        else if size - text.length < 4 then return .error .EMSGSIZE
        else return .ok (← sprintf size text (slash :: numeral 10 bits.toNat))

-----------------------------------------------------------------------------------------
-- `inet_cidr_ntop_ipv6`
-----------------------------------------------------------------------------------------

/-- `sizeof "ffff:ffff:ffff:ffff:ffff:ffff:255.255.255.255/128"` -/
def cidrTmpSize : Nat := 50

/-- The number of octets of an encapsulated address. -/
def encapsulatedCount (src : List UInt8) (bits : Int) : Nat :=
  if src.getD 15 0 ≠ 0 ∨ bits = -1 ∨ bits > 120 then 4
  else if src.getD 14 0 ≠ 0 ∨ bits > 112 then 3
  else 2

/-- A colon, where one stands. -/
def putColon (stands : Bool) (tmp : List UInt8) : Option (List UInt8) :=
  if stands then put cidrTmpSize tmp colon else some tmp

/-- `if (bits != -1) tp += SPRINTF((tp, "/%u", bits))` -/
def putWidth (bits : Int) (tmp : List UInt8) : Option (List UInt8) :=
  if bits = -1 then some tmp else sprintf cidrTmpSize tmp (slash :: numeral 10 bits.toNat)

/-- The loop over the words, from the one at `i` on. -/
def cidrFormat (src : List UInt8) (bits : Int) (words : List Nat) (best : Option Run)
    : Nat → List Nat → List UInt8 → Option (Except CidrErrno (List UInt8))
  | _, [], tmp => some (.ok tmp)
  | i, word :: rest, tmp =>
      if inRun best i then do
        let tmp ← putColon (best.any (fun best => i = best.base)) tmp
        cidrFormat src bits words best (i + 1) rest tmp
      else do
        let tmp ← putColon (i ≠ 0) tmp
        if encapsulated words best i then
          match ← decoct cidrTmpSize ((src.drop 12).take (encapsulatedCount src bits))
              (cidrTmpSize - tmp.length) tmp with
          | none => return .error .EMSGSIZE
          | some tmp => return .ok tmp
        else
          let tmp ← sprintf cidrTmpSize tmp (numeral 16 word)
          cidrFormat src bits words best (i + 1) rest tmp

def inetCidrNtop6 (src : List UInt8) (bits : Int) (size : Nat)
    : Option (Except CidrErrno (List UInt8)) :=
  if bits < -1 ∨ bits > 128 then some (.error .EINVAL)
  else do
    let words ← wordsOf src
    let best := bestRun words
    match ← cidrFormat src bits words best 0 words [] with
    | .error e => return .error e
    | .ok tmp =>
        let tmp ← putColon (best.any (fun best => best.base + best.len = 8)) tmp
        let tmp ← sprintf cidrTmpSize tmp []
        let tmp ← putWidth bits tmp
        if tmp.length > size then return .error .EMSGSIZE
        else
          -- `strcpy(dst, tmp)`
          return .ok (← sprintf size [] tmp)

def inetCidrNtop (af : Family) (src : List UInt8) (bits : Int) (size : Nat)
    : Option (Except CidrErrno (List UInt8)) :=
  match af with
  | .inet => inetCidrNtop4 src bits size
  | .inet6 => inetCidrNtop6 src bits size
  | .other => some (.error .EAFNOSUPPORT)

-----------------------------------------------------------------------------------------
-- The complete text
-----------------------------------------------------------------------------------------

/-- Octets with periods between them. -/
def octetsText : List UInt8 → List UInt8
  | [] => []
  | [octet] => numeral 10 octet.toNat
  | octet :: octets => numeral 10 octet.toNat ++ period :: octetsText octets

def widthText (bits : Int) : List UInt8 :=
  if bits = -1 then [] else slash :: numeral 10 bits.toNat

def colonText (stands : Bool) : List UInt8 := if stands then [colon] else []

/-- The words from the one at `i` on, with a run of zeros left out. -/
def wordsText (src : List UInt8) (bits : Int) (words : List Nat) (best : Option Run)
    : Nat → List Nat → List UInt8
  | _, [] => []
  | i, word :: rest =>
      if inRun best i then
        colonText (best.any (fun best => i = best.base)) ++ wordsText src bits words best (i + 1) rest
      else
        colonText (i ≠ 0)
          ++ if encapsulated words best i then
              octetsText ((src.drop 12).take (encapsulatedCount src bits))
            else numeral 16 word ++ wordsText src bits words best (i + 1) rest

def cidrText (af : Family) (src : List UInt8) (bits : Int) : List UInt8 :=
  match af with
  | .inet => octetsText (src.take (octetCount src bits)) ++ widthText bits
  | .inet6 =>
      let words := (wordsOf src).getD []
      let best := bestRun words
      wordsText src bits words best 0 words
        ++ colonText (best.any (fun best => best.base + best.len = 8)) ++ widthText bits
  | .other => []

example : inetCidrNtop .inet [10, 1, 0, 0] 16 18 = some (.ok "10.1/16".toUTF8.toList) := by
  decide +kernel

/-- No byte is stored behind the first `size` ones, and there is no result without room for the
complete text and its terminator.
-/
def RespectsBuffer (af : Family) (src : List UInt8) (bits : Int) (size : Nat) : Prop :=
  inetCidrNtop af src bits size ≠ none
  ∧ (size < (cidrText af src bits).length + 1
    → ∃ errno, inetCidrNtop af src bits size = some (.error errno))

-----------------------------------------------------------------------------------------
-- Octets
-----------------------------------------------------------------------------------------

theorem length_numeral_octet (octet : UInt8) : (numeral 10 octet.toNat).length ≤ 3 := by
  have := octet.toNat_lt
  rw [length_numeral]
  exact numeralDigits_length_le (by decide) (by decide) (by omega)

theorem octetsText_cons {octet : UInt8} {octets : List UInt8} (more : octets ≠ [])
    : octetsText (octet :: octets) = numeral 10 octet.toNat ++ period :: octetsText octets := by
  obtain ⟨next, octets, rfl⟩ := List.exists_cons_of_ne_nil more
  rfl

theorem length_octetsText_le (octets : List UInt8)
    : (octetsText octets).length ≤ 4 * octets.length - 1 := by
  induction octets with
  | nil => exact le_rfl
  | cons octet octets ih =>
      have short := length_numeral_octet octet
      by_cases last : octets = []
      · subst last
        rw [octetsText, List.length_singleton]
        omega
      · have := List.length_pos_of_ne_nil last
        rw [octetsText_cons last, List.length_append, List.length_cons, List.length_cons]
        omega

/-- The octets are written inside of the buffer and with a terminator, or the result is `0`. Five
bytes for each octet are enough.
-/
theorem decoct_spec {capacity size : Nat} {octets text : List UInt8}
    (inside : text.length + size ≤ capacity)
    : (decoct capacity octets size text = some none ∧ size < 4 * octets.length + 1)
      ∨ decoct capacity octets size text = some (some (text ++ octetsText octets))
        ∧ (octets ≠ [] → (octetsText octets).length < size) := by
  induction octets generalizing size text with
  | nil => exact Or.inr ⟨by rw [decoct, octetsText, List.append_nil], fun some => absurd rfl some⟩
  | cons octet octets ih =>
      have short := length_numeral_octet octet
      rw [decoct]
      by_cases few : size < 5
      · rw [if_pos few]
        exact Or.inl ⟨rfl, by rw [List.length_cons]; omega⟩
      rw [if_neg few, sprintf, if_pos (by omega), Option.bind_eq_bind, Option.bind_some]
      by_cases last : octets = []
      · subst last
        rw [if_pos rfl, Option.bind_some]
        exact Or.inr ⟨rfl, fun _ => by rw [octetsText]; omega⟩
      · have room : (text ++ numeral 10 octet.toNat ++ [period]).length
            + (size - ((text ++ numeral 10 octet.toNat ++ [period]).length - text.length))
            ≤ capacity := by
          rw [List.length_append, List.length_append, List.length_singleton]
          omega
        rw [if_neg last, sprintf, if_pos (by rw [List.length_append, List.length_singleton]; omega),
          Option.bind_some]
        rcases ih room with ⟨failed, above⟩ | ⟨written, shorter⟩
        · refine Or.inl ⟨failed, ?_⟩
          rw [List.length_append, List.length_append, List.length_singleton] at above
          rw [List.length_cons]
          omega
        · refine Or.inr ⟨?_, fun _ => ?_⟩
          · simp only [written, octetsText_cons last]
            simp
          · have := shorter last
            rw [List.length_append, List.length_append, List.length_singleton] at this
            rw [octetsText_cons last, List.length_append, List.length_cons]
            omega

-----------------------------------------------------------------------------------------
-- IPv4
-----------------------------------------------------------------------------------------

theorem length_numeral_bits {bits : Int} (range : bits ≤ 128)
    : (numeral 10 bits.toNat).length ≤ 3 := by
  rw [length_numeral]
  exact numeralDigits_length_le (by decide) (by decide) (by omega)

theorem octetCount_pos (src : List UInt8) (bits : Int) : octetCount src bits ≠ 0 := by
  rw [octetCount]
  split_ifs <;> omega

/-- The result is the complete text inside of the buffer, or an error. -/
theorem inetCidrNtop4_spec {src : List UInt8} {bits : Int} (size : Nat) (address : src ≠ [])
    (range : -1 ≤ bits ∧ bits ≤ 32)
    : inetCidrNtop .inet src bits size = some (.error .EMSGSIZE)
      ∨ inetCidrNtop .inet src bits size = some (.ok (cidrText .inet src bits))
        ∧ (cidrText .inet src bits).length < size := by
  have octets : src.take (octetCount src bits) ≠ [] := by
    simpa [octetCount_pos src bits] using address
  rw [inetCidrNtop, inetCidrNtop4, if_neg (by omega), cidrText, widthText]
  rcases @decoct_spec size size (src.take (octetCount src bits)) [] (by simp) with
    ⟨failed, -⟩ | ⟨written, shorter⟩
  · rw [failed]
    exact Or.inl rfl
  · have fits := shorter octets
    rw [List.nil_append] at written
    rw [written, Option.bind_eq_bind, Option.bind_some]
    by_cases plain : bits = -1
    · simp only [if_pos plain, List.append_nil]
      exact Or.inr ⟨rfl, fits⟩
    · simp only [if_neg plain]
      by_cases few : size - (octetsText (src.take (octetCount src bits))).length < 4
      · rw [if_pos few]
        exact Or.inl rfl
      · have short := @length_numeral_bits bits (by omega)
        have two : (numeral 10 bits.toNat).length ≤ 2 := by
          rw [length_numeral]
          exact numeralDigits_length_le (by decide) (by decide) (by omega)
        rw [if_neg few, sprintf, if_pos (by rw [List.length_cons]; omega)]
        refine Or.inr ⟨rfl, ?_⟩
        rw [List.length_append, List.length_cons]
        omega

-----------------------------------------------------------------------------------------
-- IPv6
-----------------------------------------------------------------------------------------

theorem putColon_eq (stands : Bool) {tmp : List UInt8} (room : tmp.length ≤ 45)
    : putColon stands tmp = some (tmp ++ colonText stands) := by
  cases stands with
  | false => exact congrArg some (List.append_nil tmp).symm
  | true => exact if_pos (show tmp.length < 50 by omega)

theorem length_colonText_le (stands : Bool) : (colonText stands).length ≤ 1 := by
  cases stands <;> decide

theorem index_of_encapsulated {words : List Nat} {best : Option Run} {i : Nat}
    (quad : encapsulated words best i = true)
    : i = 6 := by
  cases best with
  | none => cases quad
  | some best =>
      simp only [encapsulated, Bool.and_eq_true, decide_eq_true_eq] at quad
      exact quad.1.1

/-- The words are written inside of the temporary buffer, where each takes five characters at most
and an encapsulated address takes fifteen.
-/
theorem cidrFormat_eq {src : List UInt8} {bits : Int} {words : List Nat} {best : Option Run}
    {i : Nat} {rest : List Nat} {tmp : List UInt8} (count : i + rest.length ≤ 8)
    (small : ∀ word ∈ rest, word < 65536) (short : tmp.length + 1 ≤ 5 * i ∨ i = 0 ∧ tmp = [])
    : cidrFormat src bits words best i rest tmp
        = some (.ok (tmp ++ wordsText src bits words best i rest))
      ∧ ((tmp ++ wordsText src bits words best i rest).length + 1 ≤ 40
        ∨ (tmp ++ wordsText src bits words best i rest).length + 1 ≤ 46
          ∧ encapsulated words best 6 = true) := by
  have bound : tmp.length ≤ 5 * i := by
    rcases short with long | ⟨-, rfl⟩
    · omega
    · exact Nat.zero_le _
  induction rest generalizing i tmp with
  | nil =>
      rw [wordsText, List.append_nil]
      refine ⟨rfl, Or.inl ?_⟩
      rw [List.length_nil] at count
      rcases short with long | ⟨-, rfl⟩
      · omega
      · simp
  | cons word rest ih =>
      rw [List.length_cons] at count
      have smaller : ∀ word ∈ rest, word < 65536 := fun word among =>
        small word (List.mem_cons_of_mem _ among)
      have next {tmp' : List UInt8} (longer : tmp'.length ≤ 5 * i + 4)
          : cidrFormat src bits words best (i + 1) rest tmp'
              = some (.ok (tmp' ++ wordsText src bits words best (i + 1) rest))
            ∧ ((tmp' ++ wordsText src bits words best (i + 1) rest).length + 1 ≤ 40
              ∨ (tmp' ++ wordsText src bits words best (i + 1) rest).length + 1 ≤ 46
                ∧ encapsulated words best 6 = true) :=
        ih (by omega) smaller (Or.inl (by omega)) (by omega)
      rw [cidrFormat, wordsText]
      by_cases inside : inRun best i = true
      · rw [if_pos inside, if_pos inside, putColon_eq _ (by omega), Option.bind_eq_bind,
          Option.bind_some, ← List.append_assoc]
        refine next ?_
        have := length_colonText_le (best.any fun best => decide (i = best.base))
        rw [List.length_append]
        omega
      have started : (tmp ++ colonText (i ≠ 0)).length ≤ 5 * i := by
        have one := length_colonText_le (i ≠ 0)
        rw [List.length_append]
        rcases short with long | ⟨rfl, rfl⟩
        · omega
        · simp [colonText]
      rw [if_neg inside, if_neg inside, putColon_eq _ (by omega), Option.bind_eq_bind,
        Option.bind_some, ← List.append_assoc]
      generalize tmp ++ colonText (i ≠ 0) = tmp' at started
      by_cases quad : encapsulated words best i = true
      · obtain rfl := index_of_encapsulated quad
        have four : ((src.drop 12).take (encapsulatedCount src bits)).length ≤ 4 := by
          refine (List.length_take_le _ _).trans ?_
          rw [encapsulatedCount]
          split_ifs <;> omega
        have octets := length_octetsText_le ((src.drop 12).take (encapsulatedCount src bits))
        rw [if_pos quad, if_pos quad]
        rcases @decoct_spec cidrTmpSize (cidrTmpSize - tmp'.length)
          ((src.drop 12).take (encapsulatedCount src bits)) tmp' (by rw [cidrTmpSize]; omega) with
          ⟨-, few⟩ | ⟨written, -⟩
        · rw [cidrTmpSize] at few
          omega
        · rw [written]
          refine ⟨rfl, Or.inr ⟨?_, quad⟩⟩
          rw [List.length_append]
          omega
      · have digits : (numeral 16 word).length ≤ 4 := length_numeral_word (small word List.mem_cons_self)
        rw [if_neg quad, if_neg quad, sprintf, if_pos (by rw [cidrTmpSize]; omega), Option.bind_some,
          ← List.append_assoc]
        exact next (by rw [List.length_append]; omega)

/-- The run before an encapsulated address does not end with the last word. -/
theorem no_trailing_run {words : List Nat} {best : Option Run}
    (quad : encapsulated words best 6 = true)
    : (best.any fun best => decide (best.base + best.len = 8)) = false := by
  cases best with
  | none => rfl
  | some best =>
      simp only [encapsulated, Bool.and_eq_true, Bool.or_eq_true, decide_eq_true_eq] at quad
      simp only [Option.any_some, decide_eq_false_iff_not]
      omega

theorem putWidth_eq {bits : Int} (range : bits ≤ 128) {tmp : List UInt8} (room : tmp.length ≤ 45)
    : putWidth bits tmp = some (tmp ++ widthText bits) := by
  have short := length_numeral_bits range
  rw [putWidth, widthText]
  by_cases plain : bits = -1
  · rw [if_pos plain, if_pos plain, List.append_nil]
  · rw [if_neg plain, if_neg plain, sprintf,
      if_pos (by rw [List.length_cons, cidrTmpSize]; omega)]

/-- The temporary buffer has room for each text. -/
theorem inetCidrNtop6_eq {src : List UInt8} {bits : Int} (size : Nat) (address : src.length = 16)
    (range : -1 ≤ bits ∧ bits ≤ 128)
    : inetCidrNtop .inet6 src bits size
      = if (cidrText .inet6 src bits).length > size then some (.error .EMSGSIZE)
        else if (cidrText .inet6 src bits).length = size then none
        else some (.ok (cidrText .inet6 src bits)) := by
  obtain ⟨words, found, count, small, -⟩ := wordsOf_spec address
  obtain ⟨formatted, short⟩ := @cidrFormat_eq src bits words (bestRun words) 0 words []
    (by omega) small (Or.inr ⟨rfl, rfl⟩)
  rw [List.nil_append] at formatted short
  have complete : cidrText .inet6 src bits = wordsText src bits words (bestRun words) 0 words
      ++ colonText ((bestRun words).any fun best => decide (best.base + best.len = 8))
      ++ widthText bits := by
    rw [cidrText, found]
    rfl
  have trailing : (wordsText src bits words (bestRun words) 0 words
      ++ colonText ((bestRun words).any fun best => decide (best.base + best.len = 8))).length ≤ 45 := by
    rw [List.length_append]
    rcases short with short | ⟨short, quad⟩
    · have := length_colonText_le
        ((bestRun words).any fun best => decide (best.base + best.len = 8))
      omega
    · rw [no_trailing_run quad, colonText, if_neg Bool.false_ne_true, List.length_nil]
      omega
  rw [complete, inetCidrNtop, inetCidrNtop6, if_neg (by omega), found, Option.bind_eq_bind,
    Option.bind_some]
  simp only
  rw [formatted, Option.bind_eq_bind, Option.bind_some]
  simp only
  rw [putColon_eq _ (by rcases short with short | ⟨short, -⟩ <;> omega), Option.bind_eq_bind,
    Option.bind_some]
  generalize wordsText src bits words (bestRun words) 0 words
    ++ colonText ((bestRun words).any fun best => decide (best.base + best.len = 8)) = tmp at trailing
  rw [sprintf, if_pos (by rw [cidrTmpSize, List.length_nil]; omega), Option.bind_some,
    List.append_nil, putWidth_eq range.2 trailing, Option.bind_some]
  generalize tmp ++ widthText bits = text
  by_cases long : text.length > size
  · rw [if_pos long, if_pos long]
    rfl
  · rw [if_neg long, if_neg long, sprintf, List.length_nil, Nat.zero_add]
    by_cases exact_ : text.length = size
    · rw [if_pos exact_, if_neg (by omega)]
      rfl
    · rw [if_neg exact_, if_pos (by omega)]
      rfl

-----------------------------------------------------------------------------------------
-- The buffer
-----------------------------------------------------------------------------------------

/-- The widths that a family has, and `-1`. -/
def Family.Width : Family → Int → Prop
  | .inet, bits => -1 ≤ bits ∧ bits ≤ 32
  | .inet6, bits => -1 ≤ bits ∧ bits ≤ 128
  | .other, _ => True

/-- The buffer is respected exactly when the address is an IPv4 one, or when the length of its text is
not the size of the buffer, which leaves no byte for the terminator.
-/
theorem inetCidrNtop_respects_iff {af : Family} {src : List UInt8} {bits : Int} (size : Nat)
    (known : af ≠ .other) (address : af.Address src) (range : af.Width bits)
    : RespectsBuffer af src bits size ↔ af = .inet ∨ (cidrText af src bits).length ≠ size := by
  cases af with
  | inet =>
      have some : src ≠ [] := List.ne_nil_of_length_pos (by
        rw [show src.length = 4 from address]
        decide)
      refine iff_of_true ?_ (Or.inl rfl)
      rcases inetCidrNtop4_spec size some range with failed | ⟨written, fits⟩
      · exact ⟨by rw [failed]; exact Option.some_ne_none _, fun _ => ⟨_, failed⟩⟩
      · exact ⟨by rw [written]; exact Option.some_ne_none _, fun large => by omega⟩
  | inet6 =>
      have result := inetCidrNtop6_eq size address range
      rw [RespectsBuffer, result]
      generalize cidrText .inet6 src bits = text
      by_cases long : text.length > size
      · rw [if_pos long]
        exact iff_of_true ⟨Option.some_ne_none _, fun _ => ⟨_, rfl⟩⟩ (Or.inr (by omega))
      rw [if_neg long]
      by_cases exact_ : text.length = size
      · rw [if_pos exact_]
        refine iff_of_false (fun respects => respects.1 rfl) ?_
        rintro (same | other)
        · cases same
        · exact other exact_
      · rw [if_neg exact_]
        exact iff_of_true ⟨Option.some_ne_none _, fun large => by omega⟩ (Or.inr exact_)
  | other => exact absurd rfl known

/-- Witness: `::1/128` in a buffer of eight bytes. -/
theorem inetCidrNtop_respects_iff_loopback
    : RespectsBuffer .inet6 (List.replicate 15 0 ++ [1]) 128 8
      ↔ Family.inet6 = .inet ∨ (cidrText .inet6 (List.replicate 15 0 ++ [1]) 128).length ≠ 8 :=
  @inetCidrNtop_respects_iff .inet6 (List.replicate 15 0 ++ [1]) 128 8 (by decide) rfl
    ⟨by decide, by decide⟩

/-- The text `::1/128` fills a buffer of seven bytes, and its terminator goes behind it. -/
theorem inetCidrNtop_overrun
    : (cidrText .inet6 (List.replicate 15 0 ++ [1]) 128).length = 7
      ∧ inetCidrNtop .inet6 (List.replicate 15 0 ++ [1]) 128 7 = none
      ∧ ¬ RespectsBuffer .inet6 (List.replicate 15 0 ++ [1]) 128 7 := by
  have stored : inetCidrNtop .inet6 (List.replicate 15 0 ++ [1]) 128 7 = none := by decide +kernel
  exact ⟨by decide +kernel, stored, fun respects => respects.1 stored⟩

end BSDLibC.Inet
