import BSDLibC.Inet.Pton

/-! The text that `inet_ntop` writes for an address. -/

namespace BSDLibC.Inet

open Bytes

-----------------------------------------------------------------------------------------
-- The words of an address
-----------------------------------------------------------------------------------------

/-- The bytes of a word, as `inet_pton6` stores them. -/
def wordBytes (w : Nat) : List UInt8 := [UInt8.ofNat (w >>> 8), UInt8.ofNat w]

theorem wordBytes_merge (a b : UInt8) : wordBytes (a.toNat <<< 8 ||| b.toNat) = [a, b] := by
  have b_lt : b.toNat < 2 ^ 8 := b.toNat_lt
  have a_lt := a.toNat_lt
  rw [← Nat.shiftLeft_add_eq_or_of_lt b_lt, Nat.shiftLeft_eq, wordBytes, Nat.shiftRight_eq_div_pow]
  congr 1
  · apply UInt8.toNat_inj.mp
    rw [UInt8.toNat_ofNat']
    omega
  · congr 1
    apply UInt8.toNat_inj.mp
    rw [UInt8.toNat_ofNat']
    omega

theorem merge_lt (a b : UInt8) : a.toNat <<< 8 ||| b.toNat < 65536 := by
  have b_lt : b.toNat < 2 ^ 8 := b.toNat_lt
  have a_lt := a.toNat_lt
  rw [← Nat.shiftLeft_add_eq_or_of_lt b_lt, Nat.shiftLeft_eq]
  omega

theorem length_eq_two {src : List UInt8} {n : Nat} (h : src.length = n + 2)
    : ∃ a b rest, src = a :: b :: rest ∧ rest.length = n := by
  obtain _ | ⟨a, _ | ⟨b, rest⟩⟩ := src
  · simp at h
  · simp at h
  · exact ⟨a, b, rest, rfl, by simpa using h⟩

theorem wordsOf_spec {src : List UInt8} (h : src.length = 16)
    : ∃ words, wordsOf src = some words ∧ words.length = 8 ∧ (∀ w ∈ words, w < 65536)
      ∧ words.flatMap wordBytes = src := by
  obtain ⟨a, b, src, rfl, h₁⟩ := length_eq_two h
  obtain ⟨c, d, src, rfl, h₂⟩ := length_eq_two h₁
  obtain ⟨e, f, src, rfl, h₃⟩ := length_eq_two h₂
  obtain ⟨g, i, src, rfl, h₄⟩ := length_eq_two h₃
  obtain ⟨j, k, src, rfl, h₅⟩ := length_eq_two h₄
  obtain ⟨l, m, src, rfl, h₆⟩ := length_eq_two h₅
  obtain ⟨n, o, src, rfl, h₇⟩ := length_eq_two h₆
  obtain ⟨p, q, src, rfl, h₈⟩ := length_eq_two h₇
  obtain rfl := List.length_eq_zero_iff.mp h₈
  let merge (a b : UInt8) : Nat := 0 ||| a.toNat <<< 8 ||| b.toNat <<< 0
  refine ⟨[merge a b, merge c d, merge e f, merge g i, merge j k, merge l m, merge n o, merge p q],
    rfl, rfl, ?_, ?_⟩
  · simp [merge, merge_lt]
  · simp [merge, wordBytes_merge]

-----------------------------------------------------------------------------------------
-- The run of zeros
-----------------------------------------------------------------------------------------

/-- A run of zeros in a list of words. -/
def Run.In (r : Run) (words : List Nat) : Prop :=
  ∃ before after, words = before ++ List.replicate r.len 0 ++ after ∧ before.length = r.base

theorem Run.In.append {r : Run} {words : List Nat} (h : r.In words) (more : List Nat)
    : r.In (words ++ more) := by
  obtain ⟨before, after, rfl, base⟩ := h
  exact ⟨before, after ++ more, by simp, base⟩

theorem better_in {best cur : Option Run} {words : List Nat} (h : ∀ r ∈ best, r.In words)
    (h' : ∀ r ∈ cur, r.In words)
    : ∀ r ∈ better best cur, r.In words := by
  cases cur with
  | none => exact h
  | some c =>
      cases best with
      | none => exact h'
      | some b =>
          intro r member
          rw [better] at member
          split at member
          · exact h' r member
          · exact h r member

/-- The run that grows ends where the words that were read end. -/
def Run.Ends (r : Run) (words : List Nat) : Prop :=
  ∃ before, words = before ++ List.replicate r.len 0 ∧ before.length = r.base

theorem Run.Ends.in {r : Run} {words : List Nat} (h : r.Ends words) : r.In words := by
  obtain ⟨before, rfl, base⟩ := h
  exact ⟨before, [], by simp, base⟩

theorem bestRun.loop_in {read words : List Nat} {best cur : Option Run}
    (h : ∀ r ∈ best, r.In read) (h' : ∀ r ∈ cur, r.Ends read)
    : ∀ r ∈ bestRun.loop read.length words best cur, r.In (read ++ words) := by
  induction words generalizing read best cur with
  | nil =>
      simp only [bestRun.loop, List.append_nil]
      exact better_in h fun r member => (h' r member).in
  | cons word words ih =>
      have length : read.length + 1 = (read ++ [word]).length := by simp
      have split : read ++ word :: words = (read ++ [word]) ++ words := by simp
      simp only [bestRun.loop]
      rw [length, split]
      by_cases zero : word = 0
      · rw [if_pos zero]
        refine ih (fun r member => (h r member).append _) ?_
        cases cur with
        | none =>
            rintro r ⟨⟩
            exact ⟨read, by simp [zero], rfl⟩
        | some c =>
            rintro r ⟨⟩
            obtain ⟨before, rfl, base⟩ := h' c rfl
            exact ⟨before, by simp [zero, List.replicate_succ'], base⟩
      · rw [if_neg zero]
        refine ih (fun r member => ?_) (by simp)
        exact (better_in h (fun r member => (h' r member).in) r member).append _

/-- The run that is abbreviated. -/
theorem bestRun_spec {words : List Nat} {best : Run} (h : bestRun words = some best)
    : 2 ≤ best.len ∧ best.In words := by
  obtain ⟨found, long⟩ := Option.filter_eq_some_iff.mp h
  have none_in : ∀ r ∈ (none : Option Run), r.In [] := by simp
  have none_ends : ∀ r ∈ (none : Option Run), r.Ends [] := by simp
  exact ⟨by simpa using long, bestRun.loop_in none_in none_ends best found⟩

-----------------------------------------------------------------------------------------
-- Formatting
-----------------------------------------------------------------------------------------

/-- Words, each after a colon. -/
def lead (words : List Nat) : List UInt8 := words.flatMap (fun w => colon :: numeral 16 w)

theorem length_numeral_word {w : Nat} (h : w < 65536) : (numeral 16 w).length ≤ 4 := by
  rw [length_numeral]
  exact numeralDigits_length_le (by decide) (by decide) h

theorem pushChecked_eq {tmp : List UInt8} (room : tmp.length + 1 < tmpSize) (c : UInt8)
    : pushChecked tmp c = some (.text (tmp ++ [c])) := by
  simp [pushChecked, push, Nat.not_le.mpr room, Nat.lt_of_succ_lt room]

variable {src : List UInt8} {words : List Nat} {best : Option Run} {i : Nat} {tmp : List UInt8}

theorem formatWord_eq {word : Nat} (h : word < 65536) (plain : encapsulated words best i = false)
    (room : tmp.length + 5 ≤ tmpSize)
    : formatWord src words best i word tmp = some (.text (tmp ++ numeral 16 word), false) := by
  have := length_numeral_word h
  rw [formatWord, plain, if_neg Bool.false_ne_true, if_neg (by omega)]

/-- Words outside of the run. -/
theorem format_lead (ws rest : List Nat) (small : ∀ w ∈ ws, w < 65536) (first : i ≠ 0)
    (plain : ∀ j, i ≤ j → j < i + ws.length
      → inRun best j = false ∧ encapsulated words best j = false)
    (room : tmp.length + 5 * ws.length + 1 ≤ tmpSize)
    : format src words best i (ws ++ rest) tmp
      = format src words best (i + ws.length) rest (tmp ++ lead ws) := by
  induction ws generalizing i tmp with
  | nil => simp [lead]
  | cons w ws ih =>
      rw [List.length_cons] at plain room
      obtain ⟨outside, hex⟩ := plain i le_rfl (by omega)
      have short := length_numeral_word (small w (by simp))
      have room' : (tmp ++ [colon] ++ numeral 16 w).length + 5 * ws.length + 1 ≤ tmpSize := by
        simp only [List.length_append, List.length_cons, List.length_nil]
        omega
      have rest_eq := ih (fun w member => small w (by simp [member])) (Nat.succ_ne_zero i)
        (fun j low high => plain j (by omega) (by omega)) room'
      have step : formatWord src words best i w (tmp ++ [colon])
          = some (.text (tmp ++ [colon] ++ numeral 16 w), false) :=
        formatWord_eq (small w (by simp)) hex (by rw [List.length_append, List.length_singleton]; omega)
      rw [List.cons_append, format, outside, if_neg Bool.false_ne_true, if_pos first,
        pushChecked_eq (by omega)]
      simp only [Option.bind_eq_bind, Option.bind_some, step]
      rw [rest_eq, List.length_cons, show i.succ + ws.length = i + (ws.length + 1) by omega]
      simp [lead]

/-- Words from the first one on. -/
def joined : List Nat → List UInt8
  | [] => []
  | w :: ws => numeral 16 w ++ lead ws

theorem length_lead_le {ws : List Nat} (small : ∀ w ∈ ws, w < 65536)
    : (lead ws).length ≤ 5 * ws.length := by
  induction ws with
  | nil => simp [lead]
  | cons w ws ih =>
      have short := length_numeral_word (small w (by simp))
      have := ih fun w member => small w (by simp [member])
      simp only [lead, List.flatMap_cons, List.length_append, List.length_cons] at this ⊢
      omega

theorem length_joined_le {ws : List Nat} (small : ∀ w ∈ ws, w < 65536)
    : (joined ws).length ≤ 5 * ws.length := by
  cases ws with
  | nil => simp [joined]
  | cons w ws =>
      have short := length_numeral_word (small w (by simp))
      have := length_lead_le fun w member => small w (List.mem_cons_of_mem _ member)
      simp only [joined, List.length_append, List.length_cons]
      omega

theorem format_joined (ws rest : List Nat) (small : ∀ w ∈ ws, w < 65536)
    (plain : ∀ j, j < ws.length → inRun best j = false ∧ encapsulated words best j = false)
    (short : ws.length ≤ 8)
    : format src words best 0 (ws ++ rest) [] = format src words best ws.length rest (joined ws) := by
  cases ws with
  | nil => rfl
  | cons w ws =>
      rw [List.length_cons] at short plain
      obtain ⟨outside, hex⟩ := plain 0 (by omega)
      have first : formatWord src words best 0 w [] = some (.text (numeral 16 w), false) :=
        formatWord_eq (small w (by simp)) hex (by decide)
      have := length_numeral_word (small w (by simp))
      have others : format src words best 1 (ws ++ rest) (numeral 16 w) = _ :=
        format_lead ws rest (fun w member => small w (by simp [member])) Nat.one_ne_zero
          (fun j low high => plain j (by omega)) (by rw [tmpSize]; omega)
      rw [List.cons_append, format, outside, if_neg Bool.false_ne_true, if_neg (by simp)]
      simp only [Option.bind_eq_bind, Option.bind_some, first]
      rw [Nat.zero_add, others, List.length_cons, Nat.add_comm, joined]

/-- The words of the run after its first one. -/
theorem format_inside {r : Run} {n k : Nat} (rest : List Nat) (later : k ≠ 0) (sum : k + n = r.len)
    : format src words (some r) (r.base + k) (List.replicate n 0 ++ rest) tmp
      = format src words (some r) (r.base + r.len) rest tmp := by
  induction n generalizing k with
  | zero => rw [← sum]; rfl
  | succ n ih =>
      have inside : inRun (some r) (r.base + k) = true := by
        simp only [inRun, Option.any_some, Bool.and_eq_true, decide_eq_true_eq]
        omega
      have next := ih (Nat.succ_ne_zero k) (by omega)
      rw [List.replicate_succ, List.cons_append, format, if_pos inside]
      simpa [later, Nat.add_assoc] using next

theorem format_run {r : Run} (rest : List Nat) (long : 2 ≤ r.len) (room : tmp.length < tmpSize)
    : format src words (some r) r.base (List.replicate r.len 0 ++ rest) tmp
      = format src words (some r) (r.base + r.len) rest (tmp ++ [colon]) := by
  obtain ⟨n, sum⟩ : ∃ n, r.len = n + 1 := ⟨r.len - 1, by omega⟩
  have inside : inRun (some r) r.base = true := by
    simp only [inRun, Option.any_some, Bool.and_eq_true, decide_eq_true_eq]
    omega
  have later : format src words (some r) (r.base + 1) (List.replicate n 0 ++ rest) (tmp ++ [colon])
      = _ := format_inside rest Nat.one_ne_zero (by omega)
  rw [show List.replicate r.len 0 = 0 :: List.replicate n 0 by rw [sum, List.replicate_succ],
    List.cons_append, format, if_pos inside]
  simpa [push, room] using later

-----------------------------------------------------------------------------------------
-- Dotted quads
-----------------------------------------------------------------------------------------

def quadText (a b c d : UInt8) : List UInt8 :=
  numeral 10 a.toNat ++ period :: numeral 10 b.toNat ++ period :: numeral 10 c.toNat
    ++ period :: numeral 10 d.toNat

theorem length_quadText_le (a b c d : UInt8) : (quadText a b c d).length ≤ 15 := by
  have octet (x : UInt8) : (numeral 10 x.toNat).length ≤ 3 := by
    have := x.toNat_lt
    rw [length_numeral]
    exact numeralDigits_length_le (by decide) (by decide) (by omega)
  have := octet a
  have := octet b
  have := octet c
  have := octet d
  simp only [quadText, List.length_append, List.length_cons]
  omega

theorem quadText_ne_zero (a b c d : UInt8) : ∀ ch ∈ quadText a b c d, ch ≠ 0 := by
  have octet (x : UInt8) : ∀ ch ∈ numeral 10 x.toNat, ch ≠ 0 :=
    numeral_ne_zero (by decide) (by decide)
  have dot : period ≠ 0 := by decide
  intro ch member
  simp only [quadText, List.mem_append, List.mem_cons] at member
  rcases member with ((member | rfl | member) | rfl | member) | rfl | member
  · exact octet a ch member
  · exact dot
  · exact octet b ch member
  · exact dot
  · exact octet c ch member
  · exact dot
  · exact octet d ch member

theorem strlcpy_eq {dst text : List UInt8} {size : Nat} (fits : text.length < size)
    (inside : size ≤ dst.length)
    : strlcpy dst text size = some (text ++ 0 :: dst.drop (text.length + 1)) := by
  have stored : storeAll ([] ++ dst) 0 (text ++ [0]) = _ :=
    storeAll_append (text ++ [0]) rfl (by rw [List.length_append, List.length_singleton]; omega)
  rw [strlcpy, if_neg (by omega), List.take_of_length_le (by omega)]
  simpa using stored

/-- What a buffer that is large enough, or too small, gets. -/
def ntopResult (text dst : List UInt8) (size : Nat) : Except Errno (List UInt8) :=
  if text.length < size then .ok (text ++ 0 :: dst.drop (text.length + 1)) else .error .ENOSPC

theorem inetNtop4_eq {src dst : List UInt8} {a b c d : UInt8} {rest : List UInt8} {size : Nat}
    (h : src = a :: b :: c :: d :: rest) (inside : size ≤ dst.length)
    : inetNtop4 src dst size = some (ntopResult (quadText a b c d) dst size) := by
  have short := length_quadText_le a b c d
  have text : quad src = some (quadText a b c d) := by
    subst h
    rfl
  rw [inetNtop4, text, ntopResult]
  simp only [Option.bind_eq_bind, Option.bind_some, List.take_of_length_le short]
  by_cases fits : (quadText a b c d).length < size
  · rw [if_neg (Nat.not_le.mpr fits), if_pos fits, strlcpy_eq fits inside]
    rfl
  · rw [if_pos (Nat.not_lt.mp fits), if_neg fits]
    rfl

/-- The last two words as a dotted quad. -/
theorem formatWord_quad {word : Nat} {a b c d : UInt8} (h : src.drop 12 = [a, b, c, d])
    (quad : encapsulated words best i = true) (room : tmp.length + 16 ≤ tmpSize)
    : formatWord src words best i word tmp = some (.text (tmp ++ quadText a b c d), true) := by
  have short := length_quadText_le a b c d
  have written : inetNtop4 (src.drop 12) (List.replicate (tmpSize - tmp.length) 0)
      (tmpSize - tmp.length) = _ := inetNtop4_eq h (by simp)
  rw [ntopResult, if_pos (by omega)] at written
  rw [formatWord, if_pos quad, written]
  simp only [Option.bind_eq_bind, Option.bind_some, takeWhile_text (quadText_ne_zero a b c d)]
  rfl

end BSDLibC.Inet
