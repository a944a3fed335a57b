import BSDLibC.Ctype.CLocale
import BSDLibC.Utf7.Reading
import Mathlib.Tactic.IntervalCases

/-! The encoder writes what the decoder reads back, as long as the bytes arrive in one piece.
-/

namespace BSDLibC.Utf7

theorem base64_eq
    : base64 = List.range' 65 26 ++ List.range' 97 26 ++ List.range' 48 10 ++ [43, 47] := by
  rw [base64, codes, String.toList_ofList]
  rfl

theorem direct_eq
    : direct = List.range' 65 26 ++ List.range' 97 26 ++ List.range' 48 10
        ++ [40, 41, 44, 45, 46, 47, 58, 63] := by
  rw [direct, codes, String.toList_ofList]
  rfl

theorem optional_eq
    : optional = List.range' 33 7 ++ [59, 60, 61, 62, 64, 91, 93, 94, 95, 96, 123, 124, 125] := by
  rw [optional, codes, String.toList_ofList]
  rfl

theorem spaces_eq : spaces = [32, 9, 13, 10] := by
  rw [spaces, codes, String.toList_ofList]
  rfl

theorem base64_nodup : base64.Nodup := by
  rw [base64_eq]
  exact Ctype.alphabet_nodup

theorem base64_plain : ∀ c ∈ base64, c < 128 ∧ c ≠ base64Out := by
  rw [base64_eq]
  intro c member
  simp only [List.mem_append, List.mem_range'_1, List.mem_pair] at member
  rw [base64Out]
  omega

/-- The flags of the other tables are above the place of a digit. -/
theorem cell_low (c : Nat) : cell c &&& 0xff = if c ∈ base64 then base64.idxOf c + 1 else 0 := by
  have length : base64.length = 64 := by rw [base64_eq]; rfl
  have flag (p : Prop) [Decidable p] {f : Nat} (none : f &&& 0xff = 0)
      : (if p then f else 0) &&& 0xff = 0 := by
    split_ifs
    · exact none
    · rfl
  rw [cell, Nat.and_or_distrib_right, Nat.and_or_distrib_right, Nat.and_or_distrib_right,
    flag (c ∈ direct) rfl, flag (c ∈ optional) rfl, flag (c ∈ spaces) rfl, Nat.or_zero,
    Nat.or_zero, Nat.or_zero]
  refine Nat.and_two_pow_sub_one_of_lt_two_pow (n := 8) ?_
  split_ifs with inside
  · have := List.idxOf_lt_length_of_mem inside
    omega
  · decide

/-- A digit stands for its place in the table and is not the mark that ends base64. -/
theorem digit_spec
    : ∀ i < 64, findlen (digit i) = i ∧ digit i >>> 7 = 0 ∧ digit i ≠ base64Out := by
  intro i less
  have length : base64.length = 64 := by rw [base64_eq]; rfl
  have inside : i < base64.length := length ▸ less
  have place : digit i = base64[i] := by
    rw [digit, List.getD_eq_getElem?_getD, List.getElem?_eq_getElem inside, Option.getD_some]
  have member : digit i ∈ base64 := place ▸ List.getElem_mem inside
  obtain ⟨small, other⟩ := base64_plain _ member
  have shifted : digit i >>> 7 = 0 := by
    rw [Nat.shiftRight_eq_div_pow]
    exact Nat.div_eq_of_lt small
  have index : base64.idxOf (digit i) = i := by rw [place, base64_nodup.idxOf_getElem i inside]
  refine ⟨?_, shifted, other⟩
  rw [findlen, if_neg (not_not.mpr shifted), cell_low, if_pos member, index]
  simp

theorem findlen_out : findlen base64Out < 0 := by
  rw [findlen, cell, base64_eq, direct_eq, optional_eq, spaces_eq]
  decide

theorem findlen_in : 0 ≤ findlen base64In := by
  rw [findlen, cell, base64_eq, direct_eq, optional_eq, spaces_eq]
  decide

theorem safe_small {c : Nat} (safe : isSafe c = true) : c >>> 7 = 0 := by
  simp only [isSafe, Bool.and_eq_true, decide_eq_true_eq] at safe
  exact safe.1

/-- The characters of `direct` are safe. -/
theorem safe_of_mem_direct {c : Nat} (small : c < 128) (member : c ∈ direct) : isSafe c = true := by
  have set : (cell c &&& 0x500).testBit 8 = true := by
    have flag : Nat.testBit 0x100 8 = true := rfl
    have mask : Nat.testBit 0x500 8 = true := rfl
    simp only [cell, if_pos member, Nat.testBit_and, Nat.testBit_or, flag, mask, Bool.or_true,
      Bool.true_or, Bool.and_true]
  have shifted : c >>> 7 = 0 := by
    rw [Nat.shiftRight_eq_div_pow]
    exact Nat.div_eq_of_lt small
  have nonzero : cell c &&& 0x500 ≠ 0 := by
    intro zero
    rw [zero, Nat.zero_testBit] at set
    cases set
  simp [isSafe, shifted, nonzero]

theorem safe_direct {c : Nat} (safe : isSafe c = true) : isDirect c = true := by
  have fewer (x : Nat) (none : x &&& 0x700 = 0) : x &&& 0x500 = 0 := by
    rw [show 0x500 = 0x700 &&& 0x500 by decide, ← Nat.and_assoc, none, Nat.zero_and]
  simp only [isSafe, isDirect, Bool.and_eq_true, Bool.or_eq_true, decide_eq_true_eq] at safe ⊢
  exact ⟨safe.1, safe.2.imp_right fun some_ none => some_ (fewer _ none)⟩

section

variable {bits i c : Nat} (cache : Nat)

theorem step_digit_more (held : bits ∈ [0, 2, 4, 6, 8]) (less : i < 64)
    : Shift.step ⟨true, bits, cache⟩ (digit i)
      = .more ⟨true, bits + 6, (cache * 64 + i) % cacheSize⟩ := by
  obtain ⟨found, small, inside⟩ := digit_spec i less
  simp only [Shift.step, small, inside, found, held]
  simp

theorem step_digit_done (held : bits ∈ [10, 12, 14]) (less : i < 64)
    : Shift.step ⟨true, bits, cache⟩ (digit i)
      = .done ((cache * 64 + i) % cacheSize / 2 ^ (bits - 10) % 2 ^ 16)
        ⟨true, bits - 10, (cache * 64 + i) % cacheSize⟩ := by
  obtain ⟨found, small, inside⟩ := digit_spec i less
  have others : bits ∉ [0, 2, 4, 6, 8] := by
    simp only [List.mem_cons, List.not_mem_nil, or_false] at held ⊢
    omega
  simp only [Shift.step, small, inside, found, held, others]
  simp

theorem step_out {cache : Nat} (held : bits < 6) (used : cache ≠ 0)
    : Shift.step ⟨true, bits, cache⟩ base64Out = .more .init := by
  have small : base64Out >>> 7 = 0 := rfl
  have few : ¬ bits ≥ 6 := by omega
  simp [Shift.step, small, used, findlen_out, few]

theorem step_leave (held : bits < 6) (safe : isSafe c = true) (outside : findlen c < 0)
    (other : c ≠ base64Out)
    : Shift.step ⟨true, bits, cache⟩ c = .done c .init := by
  have few : ¬ bits ≥ 6 := by omega
  simp [Shift.step, safe_small safe, safe_direct safe, outside, other, few]

theorem step_direct (safe : isSafe c = true) (other : c ≠ base64In)
    : Shift.step .init c = .done c .init := by
  simp [Shift.step, Shift.init, safe_small safe, safe_direct safe, other]

end

/-- A digit that completes a unit. -/
theorem Reads.last {bits cache i u16 room : Nat} {rest u16s : List Nat}
    (held : bits ∈ [10, 12, 14]) (less : i < 64) (pos : u16 ≠ 0)
    (value : (cache * 64 + i) % cacheSize / 2 ^ (bits - 10) % 2 ^ 16 = u16)
    (reads : ∀ cd ≠ 0, cd % 2 ^ (bits - 10) = i % 2 ^ (bits - 10)
      → Reads 4 ⟨true, bits - 10, cd⟩ rest u16s)
    : Reads (room + 1) ⟨true, bits, cache⟩ (digit i :: rest) (u16 :: u16s) := by
  have step := step_digit_done cache held less
  rw [value] at step
  refine .unit step (fun zero => absurd zero pos) (reads _ ?_ ?_)
  · intro zero
    rw [zero, Nat.zero_div, Nat.zero_mod] at value
    exact pos value.symm
  · simp only [cacheSize]
    simp only [List.mem_cons, List.not_mem_nil, or_false] at held
    rcases held with rfl | rfl | rfl <;> omega

section

variable {u16 cd x room : Nat} {rest u16s : List Nat}

/-- A unit that the decoder reads with no bits in hand takes three digits. -/
theorem Reads.aligned (range : u16 < 2 ^ 16) (pos : u16 ≠ 0) (less : x < 4)
    (reads : ∀ cd ≠ 0, cd % 4 = x → Reads 4 ⟨true, 2, cd⟩ rest u16s)
    : Reads (room + 3) ⟨true, 0, cd⟩
        (digit (u16 / 2 ^ 10) :: digit (u16 / 2 ^ 4 % 64) :: digit (u16 % 16 * 4 + x) :: rest)
        (u16 :: u16s) := by
  refine .more (step_digit_more _ (by simp) (by omega))
    (.more (step_digit_more _ (by simp) (by omega)) (.last (by simp) (by omega) pos ?_ ?_))
  · simp only [cacheSize]
    omega
  · intro cd used low
    exact reads cd used (by omega)

/-- So does one that it reads with two bits in hand. -/
theorem Reads.behindTwo (range : u16 < 2 ^ 16) (pos : u16 ≠ 0) (held : cd % 4 = u16 / 2 ^ 14)
    (less : x < 16) (reads : ∀ cd ≠ 0, cd % 16 = x → Reads 4 ⟨true, 4, cd⟩ rest u16s)
    : Reads (room + 3) ⟨true, 2, cd⟩
        (digit (u16 / 2 ^ 8 % 64) :: digit (u16 / 2 ^ 2 % 64) :: digit (u16 % 4 * 16 + x) :: rest)
        (u16 :: u16s) := by
  refine .more (step_digit_more _ (by simp) (by omega))
    (.more (step_digit_more _ (by simp) (by omega)) (.last (by simp) (by omega) pos ?_ ?_))
  · simp only [cacheSize]
    omega
  · intro cd used low
    exact reads cd used (by omega)

/-- With four bits in hand two digits are enough. -/
theorem Reads.behindFour (range : u16 < 2 ^ 16) (pos : u16 ≠ 0) (held : cd % 16 = u16 / 2 ^ 12)
    (reads : ∀ cd ≠ 0, Reads 4 ⟨true, 0, cd⟩ rest u16s)
    : Reads (room + 2) ⟨true, 4, cd⟩ (digit (u16 / 2 ^ 6 % 64) :: digit (u16 % 64) :: rest)
        (u16 :: u16s) := by
  refine .more (step_digit_more _ (by simp) (by omega)) (.last (by simp) (by omega) pos ?_ ?_)
  · simp only [cacheSize]
    omega
  · intro cd used low
    exact reads cd used

end

/-- What the encoder writes behind a safe unit. -/
def tailOf (u16 : Nat) : List Nat := if u16 = base64In then [base64Out] else []

section

variable {u16 room : Nat} {rest u16s : List Nat}

/-- A safe unit outside base64. -/
theorem Reads.plain (safe : isSafe u16 = true) (reads : Reads 4 .init rest u16s)
    : Reads (room + 2) .init (u16 :: tailOf u16 ++ rest) (u16 :: u16s) := by
  rw [tailOf]
  split
  next plus =>
    subst plus
    have enter : Shift.step .init base64In = .more ⟨true, 0, 0⟩ := rfl
    have leave : Shift.step ⟨true, 0, 0⟩ base64Out = .done base64In .init := rfl
    exact .more enter (.unit leave (fun _ => rfl) reads)
  next plus => exact .unit (step_direct safe plus) (fun _ => rfl) reads

/-- A safe unit at the end of base64. -/
theorem Reads.leave {bits cd : Nat} (held : bits < 6) (used : cd ≠ 0) (safe : isSafe u16 = true)
    (reads : Reads 4 .init rest u16s)
    : Reads 4 ⟨true, bits, cd⟩
        ((if u16 = base64Out ∨ 0 ≤ findlen u16 then [base64Out] else [])
          ++ u16 :: tailOf u16 ++ rest) (u16 :: u16s) := by
  split
  next => exact .more (step_out held used) (.plain safe reads)
  next outside =>
    obtain ⟨other, outside⟩ := not_or.mp outside
    have plus : u16 ≠ base64In := by
      rintro rfl
      exact outside findlen_in
    rw [tailOf, if_neg plus]
    exact .unit (step_leave _ held safe (by omega) other) (fun _ => rfl) reads

end

/-- The bytes of one unit and the state behind them. -/
def emit (shift : Shift) (u16 : Nat) : List Nat × Shift :=
  if isSafe u16 then
    ((shift.leave u16).1 ++ u16 :: tailOf u16, (shift.leave u16).2)
  else
    ((if shift.mode then [] else [base64In])
        ++ digits ((shift.cache * 2 ^ 16 + u16) % cacheSize) (16 + shift.bits),
      ⟨true, (16 + shift.bits) % 6, (shift.cache * 2 ^ 16 + u16) % cacheSize⟩)

/-- The bytes that end a text. -/
def finish (shift : Shift) : List Nat :=
  if shift.mode ∧ shift.bits > 0 then shift.flush.1 ++ [base64Out] else []

/-- The bytes of a sequence of units. -/
def write : Shift → List Nat → List Nat
  | shift, [] => finish shift
  | shift, u16 :: u16s => (emit shift u16).1 ++ write (emit shift u16).2 u16s

/-- The decoder reads the units back from where the encoder is: outside base64, in base64 with no
bits in hand, or with bits that the next digit completes.
-/
structure ReadsBack (u16s : List Nat) : Prop where
  plain (cache : Nat) : Reads 4 .init (write ⟨false, 0, cache⟩ u16s) u16s
  aligned (cache cd : Nat) (used : cd ≠ 0)
    : Reads 4 ⟨true, 0, cd⟩ (write ⟨true, 0, cache⟩ u16s) u16s
  four (cache : Nat)
    : ∃ x < 4, ∃ rest, write ⟨true, 4, cache⟩ u16s = digit (cache % 16 * 4 + x) :: rest
      ∧ ∀ cd ≠ 0, cd % 4 = x → Reads 4 ⟨true, 2, cd⟩ rest u16s
  two (cache : Nat)
    : ∃ x < 16, ∃ rest, write ⟨true, 2, cache⟩ u16s = digit (cache % 4 * 16 + x) :: rest
      ∧ ∀ cd ≠ 0, cd % 16 = x → Reads 4 ⟨true, 4, cd⟩ rest u16s

theorem ReadsBack.nil : ReadsBack [] where
  plain cache := .stop
  aligned cache cd used := .stop
  four cache := by
    refine ⟨0, by omega, [base64Out], ?_, fun cd used low => .more (step_out (by omega) used) .stop⟩
    simp only [write, finish, Shift.flush]
    simp
    congr 1
    omega
  two cache := by
    refine ⟨0, by omega, [base64Out], ?_, fun cd used low => .more (step_out (by omega) used) .stop⟩
    simp only [write, finish, Shift.flush]
    simp
    congr 1
    omega

section

variable {u16 : Nat} {u16s : List Nat}

theorem ReadsBack.cons_safe (safe : isSafe u16 = true) (back : ReadsBack u16s)
    : ReadsBack (u16 :: u16s) where
  plain cache := by
    simp only [write, emit, safe, if_true, Shift.leave]
    exact .plain safe (back.plain cache)
  aligned cache cd used := by
    simp only [write, emit, safe, if_true, Shift.leave, Shift.flush]
    exact .leave (by omega) used safe (back.plain cache)
  four cache := by
    refine ⟨0, by omega, (if u16 = base64Out ∨ 0 ≤ findlen u16 then [base64Out] else [])
      ++ u16 :: tailOf u16 ++ write ⟨false, 0, 0⟩ u16s, ?_, fun cd used low =>
        .leave (by omega) used safe (back.plain 0)⟩
    simp only [write, emit, safe, if_true, Shift.leave, Shift.flush]
    simp
    congr 1
    omega
  two cache := by
    refine ⟨0, by omega, (if u16 = base64Out ∨ 0 ≤ findlen u16 then [base64Out] else [])
      ++ u16 :: tailOf u16 ++ write ⟨false, 0, 0⟩ u16s, ?_, fun cd used low =>
        .leave (by omega) used safe (back.plain 0)⟩
    simp only [write, emit, safe, if_true, Shift.leave, Shift.flush]
    simp
    congr 1
    omega

/-- The bits of a unit that the encoder has taken into its cache. -/
theorem cache_bits (cache u16 : Nat) {k : Nat} (inside : k ≤ 10)
    : (cache * 2 ^ 16 + u16) % cacheSize / 2 ^ k % 64 = u16 / 2 ^ k % 64 := by
  simp only [cacheSize]
  interval_cases k <;> omega

/-- What the encoder writes for a unit when it has no bits in hand. -/
theorem ReadsBack.write_aligned (cache : Nat) (range : u16 < 2 ^ 16) (back : ReadsBack u16s)
    : ∃ x < 4, ∃ rest, digits ((cache * 2 ^ 16 + u16) % cacheSize) 16
        ++ write ⟨true, 4, (cache * 2 ^ 16 + u16) % cacheSize⟩ u16s
        = digit (u16 / 2 ^ 10) :: digit (u16 / 2 ^ 4 % 64) :: digit (u16 % 16 * 4 + x) :: rest
      ∧ ∀ cd ≠ 0, cd % 4 = x → Reads 4 ⟨true, 2, cd⟩ rest u16s := by
  obtain ⟨x, less, rest, written, reads⟩ := back.four ((cache * 2 ^ 16 + u16) % cacheSize)
  refine ⟨x, less, rest, ?_, reads⟩
  have low : (cache * 2 ^ 16 + u16) % cacheSize % 16 = u16 % 16 := by
    simp only [cacheSize]
    omega
  have high : u16 / 2 ^ 10 % 64 = u16 / 2 ^ 10 := by omega
  have two (cache : Nat)
      : digits cache 16 = [digit (cache / 2 ^ 10 % 64), digit (cache / 2 ^ 4 % 64)] := rfl
  rw [written, two, cache_bits cache u16 (by omega), cache_bits cache u16 (by omega), low, high]
  simp

theorem ReadsBack.cons_coded (coded : isSafe u16 = false) (range : u16 < 2 ^ 16)
    (back : ReadsBack u16s)
    : ReadsBack (u16 :: u16s) := by
  have pos : u16 ≠ 0 := by
    rintro rfl
    exact absurd coded (by decide +kernel)
  constructor
  case plain =>
    intro cache
    obtain ⟨x, less, rest, written, reads⟩ := back.write_aligned cache range
    have enter : Shift.step .init base64In = .more ⟨true, 0, 0⟩ := rfl
    simp only [write, emit, coded, Bool.false_eq_true, if_false, Nat.add_zero, List.append_assoc]
    rw [written]
    exact .more enter (.aligned range pos less reads)
  case aligned =>
    intro cache cd used
    obtain ⟨x, less, rest, written, reads⟩ := back.write_aligned cache range
    simp only [write, emit, coded, Bool.false_eq_true, if_false, if_true, Nat.add_zero,
      List.nil_append]
    rw [written]
    exact .aligned range pos less reads
  case four =>
    intro cache
    obtain ⟨x, less, rest, written, reads⟩ := back.two ((cache * 2 ^ 16 + u16) % cacheSize)
    refine ⟨u16 / 2 ^ 14, by omega,
      digit (u16 / 2 ^ 8 % 64) :: digit (u16 / 2 ^ 2 % 64) :: digit (u16 % 4 * 16 + x) :: rest,
      ?_, fun cd used held => .behindTwo range pos held less reads⟩
    have high : (cache * 2 ^ 16 + u16) % cacheSize / 2 ^ 14 % 64
        = cache % 16 * 4 + u16 / 2 ^ 14 := by
      simp only [cacheSize]
      omega
    have low : (cache * 2 ^ 16 + u16) % cacheSize % 4 = u16 % 4 := by
      simp only [cacheSize]
      omega
    have three (cache : Nat)
        : digits cache 20
          = [digit (cache / 2 ^ 14 % 64), digit (cache / 2 ^ 8 % 64),
            digit (cache / 2 ^ 2 % 64)] := rfl
    simp only [write, emit, coded, Bool.false_eq_true, if_false, if_true, List.nil_append]
    rw [written, three, high, cache_bits cache u16 (by omega), cache_bits cache u16 (by omega),
      low]
    simp
  case two =>
    intro cache
    refine ⟨u16 / 2 ^ 12, by omega,
      digit (u16 / 2 ^ 6 % 64) :: digit (u16 % 64)
        :: write ⟨true, 0, (cache * 2 ^ 16 + u16) % cacheSize⟩ u16s,
      ?_, fun cd used held => .behindFour range pos held fun cd used => back.aligned _ cd used⟩
    have high : (cache * 2 ^ 16 + u16) % cacheSize / 2 ^ 12 % 64
        = cache % 4 * 16 + u16 / 2 ^ 12 := by
      simp only [cacheSize]
      omega
    have low := cache_bits cache u16 (Nat.zero_le 10)
    have three (cache : Nat)
        : digits cache 18
          = [digit (cache / 2 ^ 12 % 64), digit (cache / 2 ^ 6 % 64),
            digit (cache / 2 ^ 0 % 64)] := rfl
    simp only [write, emit, coded, Bool.false_eq_true, if_false, if_true, List.nil_append]
    rw [three, high, cache_bits cache u16 (by omega), low]
    simp

end

/-- The decoder reads back whatever units the encoder wrote. -/
theorem readsBack (u16s : List Nat) (range : ∀ u16 ∈ u16s, u16 < 2 ^ 16) : ReadsBack u16s := by
  induction u16s with
  | nil => exact .nil
  | cons u16 u16s ih =>
      have back := ih fun v mem => range v (by simp [mem])
      cases safe : isSafe u16 with
      | true => exact back.cons_safe safe
      | false => exact back.cons_coded safe (range u16 (by simp))

/-- The states the encoder goes through. -/
structure Shift.Held (shift : Shift) : Prop where
  bits : shift.bits ∈ [0, 2, 4]
  plain : shift.mode = false → shift.bits = 0

section

variable {shift : Shift} (held : shift.Held) (u16 : Nat)

include held

/-- Outside base64 no bits are in hand. -/
theorem leave_bits : (shift.leave u16).2.bits = 0 := by
  rw [Shift.leave]
  split
  next =>
    simp only [Shift.flush]
    split
    next => rfl
    next none => exact Nat.eq_zero_of_not_pos none
  next outside => exact held.plain (Bool.eq_false_of_not_eq_true outside)

theorem emit_held : (emit shift u16).2.Held := by
  have few := held.bits
  rw [emit]
  split
  next => exact ⟨by simp [leave_bits held], fun _ => leave_bits held u16⟩
  next =>
    refine ⟨?_, by simp⟩
    simp only [List.mem_cons, List.not_mem_nil, or_false] at few ⊢
    omega

theorem emit_length : (emit shift u16).1.length ≤ 4 := by
  obtain ⟨mode, bits, cache⟩ := shift
  obtain ⟨few, plain⟩ := held
  rw [emit]
  split
  next =>
    simp only [Shift.leave, Shift.flush, tailOf]
    split_ifs <;> simp
  next =>
    simp only [List.mem_cons, List.not_mem_nil, or_false] at few
    cases mode with
    | false =>
        obtain rfl : bits = 0 := plain rfl
        simp [digits]
    | true =>
        rcases few with rfl | rfl | rfl <;> simp [digits]

/-- The encoder writes a unit when there is room for it. -/
theorem utf16tomb_eq {n : Nat} (room : 4 ≤ n)
    : utf16tomb n shift u16 = some (emit shift u16) := by
  have fits : ¬ n < (emit shift u16).1.length := by
    have := emit_length held u16
    omega
  have few : ¬ shift.bits > 6 := by
    have := held.bits
    simp only [List.mem_cons, List.not_mem_nil, or_false] at this
    omega
  have written : (if isSafe u16 then utf16tomb.safe shift u16 else utf16tomb.coded shift u16)
      = some (emit shift u16) := by
    rw [emit]
    split
    next => simp [utf16tomb.safe, leave_bits held, tailOf]
    next =>
      have consistent : ¬ (!shift.mode ∧ shift.bits > 0) := by
        rintro ⟨outside, pos⟩
        have := held.plain (by simpa using outside)
        omega
      rw [utf16tomb.coded, if_neg consistent]
  rw [utf16tomb, if_neg few, written]
  simp only [fits, if_false]

/-- The bytes of the units of one character come first. -/
theorem loop_eq (n : Nat) (u16s : List Nat) (room : 4 * u16s.length ≤ n)
    : ∃ bytes next, wcrtomb.loop n shift u16s = some (bytes, next) ∧ next.Held
      ∧ ∀ others, write shift (u16s ++ others) = bytes ++ write next others := by
  induction u16s generalizing shift n with
  | nil => exact ⟨[], shift, by rw [wcrtomb.loop], held, fun others => rfl⟩
  | cons u16 u16s ih =>
      rw [List.length_cons] at room
      have short := emit_length held u16
      obtain ⟨bytes, next, loop, held', written⟩ :=
        ih (emit_held held u16) (n - (emit shift u16).1.length) (by omega)
      refine ⟨(emit shift u16).1 ++ bytes, next, ?_, held', fun others => ?_⟩
      · rw [wcrtomb.loop, utf16tomb_eq held u16 (by omega)]
        simp [loop]
      · rw [List.cons_append, write, written, List.append_assoc]

theorem putStateReset_eq {n : Nat} (room : 2 ≤ n)
    : putStateReset n shift = some (finish shift) := by
  have few : ¬ shift.bits > 6 := by
    have := held.bits
    simp only [List.mem_cons, List.not_mem_nil, or_false] at this
    omega
  have outside : ¬ (¬ shift.mode ∧ shift.bits ≠ 0) := by
    rintro ⟨outside, bits⟩
    exact bits (held.plain (Bool.eq_false_of_not_eq_true outside))
  rw [putStateReset, if_neg few]
  simp only [outside, if_false]
  rw [if_neg (by split <;> split <;> omega), finish]

end

theorem units_length {c : Nat} (scalar : Scalar c)
    : ∃ u16s, units c = some u16s ∧ u16s.length ≤ 2 ∧ ∀ u16 ∈ u16s, u16 < 2 ^ 16 := by
  rcases Nat.lt_or_ge 0xffff c with above | small
  · refine ⟨_, units_pair above scalar.1, by simp, ?_⟩
    have := scalar.1
    simp
    omega
  · refine ⟨_, units_basic small, by simp, ?_⟩
    simp
    omega

/-- The encoder writes every text. -/
theorem encode_eq {n : Nat} {shift : Shift} (room : 8 ≤ n) (held : shift.Held) (cs : List Nat)
    (scalar : ∀ c ∈ cs, Scalar c)
    : encode n shift cs = some (write shift (unitsOf cs)) := by
  induction cs generalizing shift with
  | nil => exact putStateReset_eq held (by omega)
  | cons c cs ih =>
      obtain ⟨u16s, coded, short, -⟩ := units_length (scalar c (by simp))
      obtain ⟨bytes, next, loop, held', written⟩ :=
        loop_eq held (min n 8) u16s (by omega)
      rw [encode, wcrtomb, coded]
      simp only [Option.bind_eq_bind, Option.bind_some, loop]
      rw [ih held' fun c mem => scalar c (by simp [mem])]
      simp [unitsOf, coded, written]

theorem unitsOf_range {cs : List Nat} (scalar : ∀ c ∈ cs, Scalar c)
    : ∀ u16 ∈ unitsOf cs, u16 < 2 ^ 16 := by
  intro u16 mem
  obtain ⟨c, inside, mem⟩ := List.mem_flatMap.mp mem
  obtain ⟨u16s, coded, -, range⟩ := units_length (scalar c inside)
  rw [coded] at mem
  exact range u16 mem

theorem Shift.held_init : Shift.init.Held := ⟨by simp [Shift.init], fun _ => rfl⟩

/-- Bytes that arrive in one piece give the text back. -/
theorem decode_write (cs : List Nat) (scalar : ∀ c ∈ cs, Scalar c)
    : decode [write .init (unitsOf cs)] .init = some cs := by
  have reads := (readsBack (unitsOf cs) (unitsOf_range scalar)).plain 0
  obtain ⟨next, h⟩ :=
    reads.decodePiece .init _ scalar State.ready_init (Nat.lt_succ_self _)
  simp [decode, h, Shift.init]

end BSDLibC.Utf7
