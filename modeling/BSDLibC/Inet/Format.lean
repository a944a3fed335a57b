import BSDLibC.Inet.Text

/-! The shape of the text of an IPv6 address. -/

namespace BSDLibC.Inet

open Bytes

/-- Words, each before a colon. -/
def terminated (words : List Nat) : List UInt8 := words.flatMap (fun w => numeral 16 w ++ [colon])

theorem joined_colon (w : Nat) (ws : List Nat)
    : joined (w :: ws) ++ [colon] = terminated (w :: ws) := by
  induction ws generalizing w with
  | nil => simp [joined, lead, terminated]
  | cons w' ws ih =>
      have rest := ih w'
      simp only [joined, lead, terminated, List.flatMap_cons, List.append_assoc,
        List.cons_append, List.nil_append] at rest ⊢
      rw [rest]

theorem lead_concat (ws : List Nat) (w : Nat)
    : lead (ws ++ [w]) = colon :: (terminated ws ++ numeral 16 w) := by
  induction ws with
  | nil => simp [lead, terminated]
  | cons w' ws ih => simp [lead, terminated] at ih ⊢; simp [ih]

theorem lead_colon (ws : List Nat) : lead ws ++ [colon] = colon :: terminated ws := by
  cases ws with
  | nil => rfl
  | cons w ws =>
      rw [← joined_colon]
      simp [lead, joined]

theorem joined_concat (ws : List Nat) (w : Nat)
    : joined (ws ++ [w]) = terminated ws ++ numeral 16 w := by
  cases ws with
  | nil => simp [joined, lead, terminated]
  | cons w' ws =>
      rw [List.cons_append, joined, lead_concat]
      simp [terminated]

/-- The text after the run: nothing, or words, the last two of which may be a dotted quad. -/
inductive Tail : List UInt8 → List UInt8 → Prop
  | none : Tail [] []
  | words {ws : List Nat} {w : Nat} (small : ∀ x ∈ ws ++ [w], x < 65536)
      : Tail (terminated ws ++ numeral 16 w) ((ws ++ [w]).flatMap wordBytes)
  | quad {ws : List Nat} {a b c d : UInt8} (small : ∀ x ∈ ws, x < 65536)
      : Tail (terminated ws ++ quadText a b c d) (ws.flatMap wordBytes ++ [a, b, c, d])

/-- The text of an address. -/
inductive Shape : List UInt8 → List UInt8 → Prop
  | full {ws : List Nat} {w : Nat} (small : ∀ x ∈ ws ++ [w], x < 65536)
      : Shape (terminated ws ++ numeral 16 w) ((ws ++ [w]).flatMap wordBytes)
  | run {ws : List Nat} {n : Nat} {tail bytes : List UInt8} (small : ∀ x ∈ ws, x < 65536)
      (long : 2 ≤ n) (rest : Tail tail bytes)
      : Shape (joined ws ++ colon :: colon :: tail)
          (ws.flatMap wordBytes ++ List.replicate (2 * n) 0 ++ bytes)

variable {src : List UInt8} {words before after : List Nat} {r : Run} {tmp : List UInt8}

/-- The formatted words, with the end of a trailing run. -/
def Formats (src : List UInt8) (words : List Nat) (best : Option Run) (text : List UInt8) : Prop :=
  ∃ tmp, format src words best 0 words [] = some (.text tmp)
    ∧ closeRun best tmp = some (.text text)

theorem plain_before {j : Nat} (h : j < r.base)
    : inRun (some r) j = false ∧ encapsulated words (some r) j = false := by
  have base : r.base ≠ 0 := by omega
  simp [inRun, encapsulated, base, h]

theorem inRun_after {j : Nat} (h : r.base + r.len ≤ j) : inRun (some r) j = false := by
  simp [inRun, h]

/-- An address around the run of zeros that is abbreviated. -/
structure Around (src : List UInt8) (words before after : List Nat) (r : Run) : Prop where
  split : words = before ++ (List.replicate r.len 0 ++ after)
  base : before.length = r.base
  long : 2 ≤ r.len
  count : words.length = 8
  small : ∀ w ∈ words, w < 65536
  bytes : words.flatMap wordBytes = src

theorem Around.total (h : Around src words before after r)
    : r.base + r.len + after.length = 8 := by
  have count := h.count
  simp only [h.split, List.length_append, List.length_replicate, h.base] at count
  omega

theorem Around.small_before (h : Around src words before after r) : ∀ w ∈ before, w < 65536 :=
  fun w member => h.small w (by simp [h.split, member])

theorem Around.small_after (h : Around src words before after r) : ∀ w ∈ after, w < 65536 :=
  fun w member => h.small w (by simp [h.split, member])

theorem Around.length_joined (h : Around src words before after r)
    : (joined before).length + 5 * after.length ≤ 30 := by
  have := length_joined_le h.small_before
  have := h.total
  have := h.long
  have := h.base
  omega

/-- Everything up to the run, and its first colon. -/
theorem Around.format (h : Around src words before after r)
    : format src words (some r) 0 words []
      = format src words (some r) (r.base + r.len) after (joined before ++ [colon]) := by
  have total := h.total
  have length := h.length_joined
  have joins : Inet.format src words (some r) 0 (before ++ (List.replicate r.len 0 ++ after)) [] = _ :=
    format_joined before _ h.small_before (fun j inside => plain_before (h.base ▸ inside))
      (by rw [h.base]; omega)
  rw [← h.split, h.base] at joins
  rw [joins, format_run after h.long (by rw [tmpSize]; omega)]

theorem flatMap_zeros (n : Nat)
    : (List.replicate n 0).flatMap wordBytes = List.replicate (2 * n) 0 := by
  induction n with
  | zero => rfl
  | succ n ih =>
      rw [List.replicate_succ, List.flatMap_cons, ih, Nat.mul_succ, Nat.add_comm, List.replicate_add]
      rfl

/-- The text and the bytes around the run. -/
theorem Around.shape (h : Around src words before after r) {tail : List UInt8}
    (rest : Tail tail (after.flatMap wordBytes))
    : Shape (joined before ++ colon :: colon :: tail) src := by
  rw [← h.bytes, h.split, List.flatMap_append, List.flatMap_append, flatMap_zeros,
    ← List.append_assoc]
  exact .run h.small_before h.long rest

theorem Around.trailing (h : Around src words before [] r)
    : ∃ text, Formats src words (some r) text ∧ text.length ≤ 44 ∧ Shape text src := by
  have total : r.base + r.len = 8 := h.total
  have length := h.length_joined
  refine ⟨joined before ++ [colon, colon], ⟨joined before ++ [colon], h.format, ?_⟩, ?_, ?_⟩
  · have room : (joined before ++ [colon]).length + 1 < tmpSize := by
      rw [List.length_append, List.length_singleton, tmpSize]
      omega
    simp [closeRun, total, pushChecked_eq room]
  · rw [List.length_append, List.length_cons, List.length_singleton]
    omega
  · exact h.shape .none

theorem closeRun_open (h : r.base + r.len ≠ 8) : closeRun (some r) tmp = some (.text tmp) := by
  simp [closeRun, h]

theorem Around.separated (h : Around src words before after r) (more : after ≠ [])
    (plain : ∀ j, r.base + r.len ≤ j → encapsulated words (some r) j = false)
    : ∃ text, Formats src words (some r) text ∧ text.length ≤ 44 ∧ Shape text src := by
  have total := h.total
  have positive := List.length_pos_iff.mpr more
  have length := h.length_joined
  have length' := length_lead_le h.small_after
  have run : Inet.format src words (some r) (r.base + r.len) (after ++ []) (joined before ++ [colon])
      = _ := format_lead after [] h.small_after (by have := h.long; omega)
    (fun j low _ => ⟨inRun_after low, plain j low⟩)
    (by rw [List.length_append, List.length_singleton, tmpSize]; omega)
  rw [List.append_nil] at run
  refine ⟨joined before ++ [colon] ++ lead after,
    ⟨_, h.format.trans run, closeRun_open (by omega)⟩, ?_, ?_⟩
  · rw [List.length_append, List.length_append, List.length_singleton]
    omega
  · obtain ⟨ws, w, rfl⟩ : ∃ ws w, after = ws ++ [w] :=
      ⟨after.dropLast, after.getLast more, (List.dropLast_append_getLast _).symm⟩
    rw [lead_concat, List.append_assoc]
    exact h.shape (.words h.small_after)

theorem length_flatMap_wordBytes (ws : List Nat) : (ws.flatMap wordBytes).length = 2 * ws.length := by
  induction ws with
  | nil => rfl
  | cons w ws ih =>
      rw [List.flatMap_cons, List.length_append, ih, List.length_cons, wordBytes]
      simp only [List.length_cons, List.length_nil]
      omega

/-- The bytes of the last two words. -/
theorem Around.lastBytes {ws : List Nat} {x y : Nat} (h : Around src words before (ws ++ [x, y]) r)
    : src.drop 12 = wordBytes x ++ wordBytes y := by
  have total := h.total
  have front : ((before ++ (List.replicate r.len 0 ++ ws)).flatMap wordBytes).length = 12 := by
    simp only [length_flatMap_wordBytes, List.length_append, List.length_replicate, h.base,
      List.length_cons, List.length_nil] at total ⊢
    omega
  have whole : src = (before ++ (List.replicate r.len 0 ++ ws)).flatMap wordBytes
      ++ (wordBytes x ++ wordBytes y) := by
    rw [← h.bytes, h.split]
    simp
  rw [whole, List.drop_left' front]

theorem format_quad {best : Option Run} {x y : Nat} {a b c d : UInt8}
    (outside : inRun best 6 = false) (quad : encapsulated words best 6 = true)
    (bytes : src.drop 12 = [a, b, c, d]) (room : tmp.length + 17 ≤ tmpSize)
    : Inet.format src words best 6 [x, y] tmp
      = some (.text (tmp ++ colon :: quadText a b c d)) := by
  have written : formatWord src words best 6 x (tmp ++ [colon]) = _ :=
    formatWord_quad bytes quad (by rw [List.length_append, List.length_singleton]; omega)
  rw [format, outside, if_neg Bool.false_ne_true, if_pos (by decide), pushChecked_eq (by omega)]
  simp only [Option.bind_eq_bind, Option.bind_some, written]
  simp

/-- The two words of an encapsulated IPv4 address. -/
theorem Around.quad {ws : List Nat} {x y : Nat} (h : Around src words before (ws ++ [x, y]) r)
    (quad : encapsulated words (some r) 6 = true)
    : ∃ text, Formats src words (some r) text ∧ text.length ≤ 44 ∧ Shape text src := by
  have total := h.total
  have length := h.length_joined
  rw [List.length_append, List.length_cons, List.length_singleton] at length total
  have small : ∀ w ∈ ws, w < 65536 := fun w member => h.small_after w (by simp [member])
  have length' := length_lead_le small
  -- Only the word at six is replaced.
  have plain (j : Nat) (low : r.base + r.len ≤ j) (high : j < r.base + r.len + ws.length)
      : inRun (some r) j = false ∧ encapsulated words (some r) j = false := by
    have other : ¬ j = 6 := by omega
    exact ⟨inRun_after low, by simp [encapsulated, other]⟩
  have run : Inet.format src words (some r) (r.base + r.len) (ws ++ [x, y]) (joined before ++ [colon])
      = _ := format_lead ws [x, y] small (by have := h.long; omega) plain
    (by rw [List.length_append, List.length_singleton, tmpSize]; omega)
  have six : r.base + r.len + ws.length = 6 := by omega
  have last := format_quad (x := x) (y := y) (inRun_after (by omega)) quad h.lastBytes
    (show (joined before ++ [colon] ++ lead ws).length + 17 ≤ tmpSize by
      simp only [List.length_append, List.length_singleton, tmpSize]; omega)
  rw [six, last] at run
  have short := length_quadText_le (UInt8.ofNat (x >>> 8)) (UInt8.ofNat x) (UInt8.ofNat (y >>> 8))
    (UInt8.ofNat y)
  refine ⟨_, ⟨_, h.format.trans run, closeRun_open (by omega)⟩, ?_, ?_⟩
  · simp only [List.length_append, List.length_cons, List.length_nil]
    omega
  · have tail : Tail (terminated ws ++ quadText (UInt8.ofNat (x >>> 8)) (UInt8.ofNat x)
        (UInt8.ofNat (y >>> 8)) (UInt8.ofNat y)) ((ws ++ [x, y]).flatMap wordBytes) := by
      simpa [wordBytes] using Tail.quad small
    have text := congrArg (· ++ quadText (UInt8.ofNat (x >>> 8)) (UInt8.ofNat x)
      (UInt8.ofNat (y >>> 8)) (UInt8.ofNat y)) (lead_colon ws)
    have shape := h.shape tail
    simp only [List.append_assoc, List.cons_append, List.nil_append] at text shape ⊢
    rw [text]
    exact shape

/-- The text of an address without a run that is abbreviated. -/
theorem shape_full (count : words.length = 8) (small : ∀ w ∈ words, w < 65536)
    (bytes : words.flatMap wordBytes = src)
    : ∃ text, Formats src words none text ∧ text.length ≤ 44 ∧ Shape text src := by
  have joins : format src words none 0 (words ++ []) [] = _ :=
    format_joined words [] small (fun _ _ => ⟨rfl, rfl⟩) count.le
  rw [List.append_nil] at joins
  have length := length_joined_le small
  refine ⟨joined words, ⟨joined words, joins, rfl⟩, by omega, ?_⟩
  obtain ⟨ws, w, rfl⟩ : ∃ ws w, words = ws ++ [w] := by
    refine ⟨words.dropLast, words.getLast ?_, (List.dropLast_append_getLast _).symm⟩
    intro empty
    simp [empty] at count
  rw [joined_concat, ← bytes]
  exact .full small

/-- Every address has a text of the right shape, which fits. -/
theorem exists_shape (h : src.length = 16)
    : ∃ words text, wordsOf src = some words ∧ Formats src words (bestRun words) text
      ∧ text.length ≤ 44 ∧ Shape text src := by
  obtain ⟨words, found, count, small, bytes⟩ := wordsOf_spec h
  refine ⟨words, ?_⟩
  simp only [found, true_and]
  cases best : bestRun words with
  | none => exact shape_full count small bytes
  | some r =>
      obtain ⟨long, before, after, split, base⟩ := bestRun_spec best
      rw [List.append_assoc] at split
      have around : Around src words before after r := ⟨split, base, long, count, small, bytes⟩
      by_cases quad : r.base + r.len ≤ 6 ∧ encapsulated words (some r) 6 = true
      · have total := around.total
        obtain ⟨x, y, last⟩ := List.length_eq_two.mp
          (show (after.drop (6 - (r.base + r.len))).length = 2 by rw [List.length_drop]; omega)
        rw [← List.take_append_drop (6 - (r.base + r.len)) after, last] at around
        exact around.quad quad.2
      · cases after with
        | nil => exact around.trailing
        | cons w ws =>
            refine around.separated (by simp) fun j low => ?_
            by_cases six : j = 6
            · subst six
              simpa using fun inside => quad ⟨low, inside⟩
            · simp [encapsulated, six]

end BSDLibC.Inet
