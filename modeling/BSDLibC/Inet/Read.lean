import BSDLibC.Inet.Format

/-! How `inet_pton` reads the texts of that shape. -/

namespace BSDLibC.Inet

open Bytes Ctype

-----------------------------------------------------------------------------------------
-- Decimal numbers
-----------------------------------------------------------------------------------------

theorem digitByte_decimal {d : Nat} (h : d < 10)
    : isdigit (digitByte d).toNat = true ∧ (digitByte d).toNat - 0x30 = d := by
  have all : ∀ d : Fin 10, isdigit (digitByte d).toNat = true ∧ (digitByte d).toNat - 0x30 = d := by
    decide
  exact all ⟨d, h⟩

theorem le_foldl (digits : List Nat) (val : Nat)
    : val ≤ digits.foldl (fun v d => v * 10 + d) val := by
  induction digits generalizing val with
  | nil => exact le_rfl
  | cons d digits ih =>
      have := ih (val * 10 + d)
      rw [List.foldl_cons]
      omega

/-- What comes after a number: a period, or the end of the text. -/
def Ends (rest : List UInt8) : Prop := rest = [] ∨ ∃ more, rest = period :: more

theorem number_digits {digits : List Nat} {rest : List UInt8} (small : ∀ d ∈ digits, d < 10)
    (ends : Ends rest) (val : Nat) (fits : digits.foldl (fun v d => v * 10 + d) val < 2 ^ 32)
    : number 10 (digits.map digitByte ++ rest) val
      = (digits.foldl (fun v d => v * 10 + d) val, rest) := by
  induction digits generalizing val with
  | nil =>
      rcases ends with rfl | ⟨more, rfl⟩
      · rfl
      · simp [number, period, isdigit]
  | cons d digits ih =>
      obtain ⟨isDigit, value⟩ := digitByte_decimal (small d (by simp))
      have d_lt := small d (by simp)
      rw [List.foldl_cons] at fits
      have next_lt : val * 10 + d < 2 ^ 32 := Nat.lt_of_le_of_lt (le_foldl digits _) fits
      rw [List.map_cons, List.cons_append, number, if_pos isDigit, value, if_neg (by omega),
        Nat.mod_eq_of_lt next_lt, ih (fun d member => small d (by simp [member])) _ fits,
        List.foldl_cons]

/-- The base of a printed number is ten. -/
theorem numberBase_numeral {n : Nat} (small : n < 2 ^ 32) {rest : List UInt8} (ends : Ends rest)
    : ∃ src, numberBase (numeral 10 n ++ rest) = (10, src) ∧ number 10 src 0 = (n, rest) := by
  have digits_lt : ∀ d ∈ numeralDigits 10 n, d < 10 := fun d => numeralDigits_lt (by decide)
  have value := foldl_numeralDigits 10 n
  have read := number_digits digits_lt ends 0 (by rw [value]; exact small)
  rw [value] at read
  cases digits : numeralDigits 10 n with
  | nil =>
      have := numeralDigits_length_pos 10 n
      simp [digits] at this
  | cons d more =>
      rw [digits] at read digits_lt value
      by_cases zero : d = 0
      · subst zero
        obtain rfl := numeralDigits_head digits
        obtain rfl : n = 0 := by simpa using value.symm
        refine ⟨rest, ?_, ?_⟩
        · rw [numeral, digits]
          rcases ends with rfl | ⟨more, rfl⟩
          · rfl
          · rfl
        · have none_small : ∀ d ∈ ([] : List Nat), d < 10 := by simp
          exact number_digits none_small ends 0 (by simp)
      · refine ⟨numeral 10 n ++ rest, ?_, by rw [numeral, digits]; exact read⟩
        have nonzero : digitByte d ≠ 0x30 := by
          intro same
          have := (digitByte_decimal (digits_lt d (by simp))).2
          rw [same] at this
          exact zero this.symm
        rw [numeral, digits, List.map_cons, List.cons_append, numberBase]
        simpa using nonzero

theorem headD_numeral (n : Nat) (rest : List UInt8)
    : isdigit ((numeral 10 n ++ rest).headD 0).toNat = true := by
  have digits_lt : ∀ d ∈ numeralDigits 10 n, d < 10 := fun d => numeralDigits_lt (by decide)
  cases digits : numeralDigits 10 n with
  | nil =>
      have := numeralDigits_length_pos 10 n
      simp [digits] at this
  | cons d more =>
      rw [numeral, digits, List.map_cons, List.cons_append, List.headD_cons]
      exact (digitByte_decimal (digits_lt d (by simp [digits]))).1

theorem parts_next {n fuel : Nat} {rest : List UInt8} {before : List Nat} (small : n < 2 ^ 32)
    (few : before.length < 3)
    : parts true (fuel + 1) (numeral 10 n ++ period :: rest) before
      = parts true fuel rest (before ++ [n]) := by
  obtain ⟨src, base, read⟩ := numberBase_numeral small (Or.inr ⟨rest, rfl⟩)
  rw [parts, headD_numeral, base]
  simp [read, period, few]

theorem parts_last {n fuel : Nat} {before : List Nat} (small : n < 2 ^ 32)
    : parts true (fuel + 1) (numeral 10 n) before = some (before, n, []) := by
  obtain ⟨src, base, read⟩ := numberBase_numeral small (Or.inl rfl)
  have head := headD_numeral n []
  rw [List.append_nil] at base head
  rw [parts, head, base]
  simp [read]

/-- Four bytes in network order. -/
theorem bytes_of_quad (a b c d : UInt8)
    : let val := d.toNat ||| (a.toNat <<< 24 ||| b.toNat <<< 16 ||| c.toNat <<< 8)
      [UInt8.ofNat (val >>> 24), UInt8.ofNat (val >>> 16), UInt8.ofNat (val >>> 8), UInt8.ofNat val]
        = [a, b, c, d] := by
  have a_lt := a.toNat_lt
  have b_lt := b.toNat_lt
  have c_lt := c.toNat_lt
  have d_lt := d.toNat_lt
  have sum : d.toNat ||| (a.toNat <<< 24 ||| b.toNat <<< 16 ||| c.toNat <<< 8)
      = a.toNat * 2 ^ 24 + b.toNat * 2 ^ 16 + c.toNat * 2 ^ 8 + d.toNat := by
    have first : a.toNat <<< 24 ||| b.toNat <<< 16 = (a.toNat * 2 ^ 8 + b.toNat) <<< 16 := by
      rw [← Nat.shiftLeft_add_eq_or_of_lt (by rw [Nat.shiftLeft_eq]; omega), Nat.shiftLeft_eq,
        Nat.shiftLeft_eq, Nat.shiftLeft_eq]
      omega
    have second : (a.toNat * 2 ^ 8 + b.toNat) <<< 16 ||| c.toNat <<< 8
        = (a.toNat * 2 ^ 16 + b.toNat * 2 ^ 8 + c.toNat) <<< 8 := by
      rw [← Nat.shiftLeft_add_eq_or_of_lt (by rw [Nat.shiftLeft_eq]; omega), Nat.shiftLeft_eq,
        Nat.shiftLeft_eq, Nat.shiftLeft_eq]
      omega
    rw [first, second, Nat.or_comm, ← Nat.shiftLeft_add_eq_or_of_lt (by omega), Nat.shiftLeft_eq]
    omega
  have byte {n : Nat} {x : UInt8} (h : n % 256 = x.toNat) : UInt8.ofNat n = x := by
    apply UInt8.toNat_inj.mp
    rw [UInt8.toNat_ofNat']
    exact h
  simp only [sum, Nat.shiftRight_eq_div_pow]
  congr 1
  · exact byte (by omega)
  · congr 1
    · exact byte (by omega)
    · congr 1
      · exact byte (by omega)
      · congr 1
        exact byte (by omega)

theorem inetPton4_quad (a b c d : UInt8) : inetPton4 (quadText a b c d) true = some [a, b, c, d] := by
  have octet (x : UInt8) : x.toNat < 2 ^ 8 := x.toNat_lt
  have small (x : UInt8) : x.toNat < 2 ^ 32 := Nat.lt_trans (octet x) (by decide)
  have read : parts true 4 (quadText a b c d) []
      = some ([a.toNat, b.toNat, c.toNat], d.toNat, []) := by
    have text : quadText a b c d = numeral 10 a.toNat ++ period :: (numeral 10 b.toNat
        ++ period :: (numeral 10 c.toNat ++ period :: numeral 10 d.toNat)) := by
      simp [quadText]
    rw [text, parts_next (small a) (by simp), parts_next (small b) (by simp),
      parts_next (small c) (by simp), parts_last (small d)]
    rfl
  have range : ¬ 0xff < a.toNat ||| b.toNat ||| c.toNat ||| d.toNat := by
    have := Nat.or_lt_two_pow (Nat.or_lt_two_pow (Nat.or_lt_two_pow (octet a) (octet b)) (octet c))
      (octet d)
    omega
  have address : concoct [a.toNat, b.toNat, c.toNat] d.toNat
      = some (d.toNat ||| (a.toNat <<< 24 ||| b.toNat <<< 16 ||| c.toNat <<< 8)) := by
    rw [concoct, if_neg range]
  rw [inetPton4, read]
  simp only [Option.bind_eq_bind, Option.bind_some, address]
  exact congrArg some (bytes_of_quad a b c d)

-----------------------------------------------------------------------------------------
-- Hexadecimal words
-----------------------------------------------------------------------------------------

theorem xdigit_digitByte {d : Nat} (h : d < 16) : xdigit (digitByte d) = some d := by
  have all : ∀ d : Fin 16, xdigit (digitByte d) = some d.val := by decide
  exact all ⟨d, h⟩

theorem xdigit_colon : xdigit colon = none := by decide

theorem xdigit_period : xdigit period = none := by decide

variable {r : Reader}

/-- Digits are collected in `val`. -/
theorem loop_digits {digits : List Nat} (small : ∀ d ∈ digits, d < 16)
    (few : r.seenXdigits + digits.length ≤ 4) (rest : List UInt8)
    : inetPton6.loop (digits.map digitByte ++ rest) r
      = inetPton6.loop rest
          { r with
            val := digits.foldl (fun v d => v * 16 + d) r.val,
            seenXdigits := r.seenXdigits + digits.length } := by
  induction digits generalizing r with
  | nil => rfl
  | cons d digits ih =>
      have d_lt := small d (by simp)
      rw [List.length_cons] at few
      have merge : r.val <<< 4 ||| d = r.val * 16 + d := by
        rw [← Nat.shiftLeft_add_eq_or_of_lt (show d < 2 ^ 4 by omega), Nat.shiftLeft_eq]
      rw [List.map_cons, List.cons_append, inetPton6.loop, xdigit_digitByte d_lt]
      simp only
      rw [if_neg (by omega), merge, ih (fun d member => small d (by simp [member]))
        (by simp only; omega), Nat.add_assoc, Nat.add_comm 1, List.length_cons, List.foldl_cons]

theorem loop_numeral {n : Nat} (small : n < 65536) (fresh : r.seenXdigits = 0) (zero : r.val = 0)
    (rest : List UInt8)
    : ∃ k, k ≠ 0 ∧ inetPton6.loop (numeral 16 n ++ rest) r
        = inetPton6.loop rest { r with val := n, seenXdigits := k } := by
  have length := numeralDigits_length_le (by decide) (by decide) (show n < 16 ^ 4 from small)
  have pos := numeralDigits_length_pos 16 n
  refine ⟨(numeralDigits 16 n).length, by omega, ?_⟩
  rw [numeral, loop_digits (fun d => numeralDigits_lt (by decide)) (by omega), zero, fresh,
    foldl_numeralDigits, Nat.zero_add]

/-- A word before a colon is stored. -/
theorem loop_word {n : Nat} (small : n < 65536) (fresh : r.seenXdigits = 0) (zero : r.val = 0)
    {rest : List UInt8} (more : rest ≠ []) (room : r.bytes.length + 2 ≤ 16)
    : inetPton6.loop (numeral 16 n ++ colon :: rest) r
      = inetPton6.loop rest { r with bytes := r.bytes ++ wordBytes n, curtok := rest } := by
  obtain ⟨k, nonzero, read⟩ := loop_numeral small fresh zero (colon :: rest)
  rw [read, inetPton6.loop, xdigit_colon]
  have stored : Reader.word { r with val := n, seenXdigits := k }
      = some (r.bytes ++ wordBytes n) := by
    rw [Reader.word, if_neg (by simp only; omega)]
    rfl
  simp only [nonzero, more, stored, if_true, if_false]
  rw [fresh, zero]

theorem loop_terminated {ws : List Nat} (small : ∀ w ∈ ws, w < 65536) (fresh : r.seenXdigits = 0)
    (zero : r.val = 0) {rest : List UInt8} (more : rest ≠ [])
    (room : r.bytes.length + 2 * ws.length ≤ 16) (token : r.curtok = terminated ws ++ rest)
    : inetPton6.loop (terminated ws ++ rest) r
      = inetPton6.loop rest { r with bytes := r.bytes ++ ws.flatMap wordBytes, curtok := rest } := by
  induction ws generalizing r with
  | nil =>
      obtain rfl : r.curtok = rest := token
      simp [terminated]
  | cons w ws ih =>
      have text : terminated (w :: ws) ++ rest = numeral 16 w ++ colon :: (terminated ws ++ rest) := by
        simp [terminated]
      rw [List.length_cons] at room
      have room' : (r.bytes ++ wordBytes w).length + 2 * ws.length ≤ 16 := by
        simp only [List.length_append, wordBytes, List.length_cons, List.length_nil]
        omega
      have later := ih (r := { r with bytes := r.bytes ++ wordBytes w, curtok := terminated ws ++ rest })
        (fun w member => small w (by simp [member])) fresh zero room' rfl
      rw [text, loop_word (small w (by simp)) fresh zero (by simp [more]) (by omega), later]
      simp

-----------------------------------------------------------------------------------------
-- Addresses
-----------------------------------------------------------------------------------------

theorem loop_quad {a b c d : UInt8} (fresh : r.seenXdigits = 0)
    (token : r.curtok = quadText a b c d) (room : r.bytes.length + 4 ≤ 16)
    : ∃ r', inetPton6.loop (quadText a b c d) r = some r' ∧ r'.colonp = r.colonp
      ∧ r'.completed = some (r.bytes ++ [a, b, c, d]) := by
  have length : (numeralDigits 10 a.toNat).length ≤ 3 :=
    numeralDigits_length_le (by decide) (by decide) (Nat.lt_trans a.toNat_lt (by decide))
  have digits_lt (d : Nat) (member : d ∈ numeralDigits 10 a.toNat) : d < 16 :=
    Nat.lt_trans (numeralDigits_lt (by decide) member) (by decide)
  have text : quadText a b c d = (numeralDigits 10 a.toNat).map digitByte
      ++ period :: (numeral 10 b.toNat ++ period :: numeral 10 c.toNat
        ++ period :: numeral 10 d.toNat) := by
    simp [quadText, numeral]
  -- The digits of the first octet have been read as hexadecimal ones.
  let val := (numeralDigits 10 a.toNat).foldl (fun v d => v * 16 + d) r.val
  refine ⟨{ r with val := val, bytes := r.bytes ++ [a, b, c, d], seenXdigits := 0 }, ?_, rfl, rfl⟩
  have dot : ¬ period = colon := by decide
  rw [text, loop_digits digits_lt (by omega), inetPton6.loop, xdigit_period]
  simp [dot, room, token, inetPton4_quad, val]

theorem quadText_ne_nil (a b c d : UInt8) : quadText a b c d ≠ [] := by
  simp [quadText]

theorem numeral_ne_nil (base n : Nat) : numeral base n ≠ [] := by
  rw [← List.length_pos_iff, length_numeral]
  exact numeralDigits_length_pos base n

theorem Tail.read {tail bytes : List UInt8} (h : Tail tail bytes) (fresh : r.seenXdigits = 0)
    (zero : r.val = 0) (token : r.curtok = tail) (room : r.bytes.length + bytes.length ≤ 16)
    : ∃ r', inetPton6.loop tail r = some r' ∧ r'.colonp = r.colonp
      ∧ r'.completed = some (r.bytes ++ bytes) := by
  cases h with
  | none => exact ⟨r, rfl, rfl, by simp [Reader.completed, fresh]⟩
  | @words ws w small =>
      rw [length_flatMap_wordBytes, List.length_append, List.length_singleton] at room
      obtain ⟨k, nonzero, last⟩ := loop_numeral
        (r := { r with bytes := r.bytes ++ ws.flatMap wordBytes, curtok := numeral 16 w })
        (small w (by simp)) fresh zero []
      rw [List.append_nil] at last
      rw [loop_terminated (fun w member => small w (by simp [member])) fresh zero
        (numeral_ne_nil 16 w) (by omega) token, last]
      refine ⟨_, rfl, rfl, ?_⟩
      have fits : ¬ (r.bytes ++ ws.flatMap wordBytes).length + 2 > 16 := by
        rw [List.length_append, length_flatMap_wordBytes]
        omega
      rw [Reader.completed, if_pos nonzero, Reader.word, if_neg fits]
      simp [wordBytes]
  | @quad ws a b c d small =>
      rw [List.length_append, length_flatMap_wordBytes] at room
      simp only [List.length_cons, List.length_nil] at room
      rw [loop_terminated small fresh zero (quadText_ne_nil a b c d) (by omega) token]
      obtain ⟨r', run, same, completed⟩ := loop_quad
        (r := { r with bytes := r.bytes ++ ws.flatMap wordBytes, curtok := quadText a b c d })
        fresh rfl (by simp only [List.length_append, length_flatMap_wordBytes]; omega)
      exact ⟨r', run, same, by rw [completed, List.append_assoc]⟩

/-- One byte goes from before the zeros to behind them. -/
theorem shiftByte_eq {before moved : List UInt8} {x : UInt8} {k colonp n i : Nat}
    (index : colonp + n - i = before.length)
    (target : 16 - i = before.length + 1 + k)
    : shiftByte colonp n (before ++ x :: (List.replicate (k + 1) 0 ++ moved)) i
      = before ++ (List.replicate (k + 1) 0 ++ x :: moved) := by
  have zeros : List.replicate (k + 1) (0 : UInt8) = List.replicate k 0 ++ [0] :=
    List.replicate_succ'
  have value : (before ++ x :: (List.replicate (k + 1) 0 ++ moved)).getD before.length 0 = x := by
    simp
  have stored : (before ++ x :: (List.replicate (k + 1) 0 ++ moved)).set (before.length + 1 + k) x
      = before ++ x :: (List.replicate k 0 ++ x :: moved) := by
    rw [zeros, List.set_append_right _ _ (by omega),
      show before.length + 1 + k - before.length = k + 1 by omega, List.set_cons_succ,
      List.append_assoc, List.set_append_right _ _ (by simp)]
    simp
  rw [shiftByte, index, target, value, stored, List.set_append_right _ _ le_rfl, Nat.sub_self,
    List.set_cons_zero, List.replicate_succ]
  rfl

/-- The induction is over the bytes that are still before the zeros, from the last one. -/
theorem foldl_shiftByte {before remaining moved : List UInt8} {k colonp n : Nat}
    (start : colonp = before.length) (count : n = remaining.length + moved.length)
    (size : before.length + n + (k + 1) = 16)
    : (List.range' (moved.length + 1) remaining.length).foldl (shiftByte colonp n)
        (before ++ remaining ++ (List.replicate (k + 1) 0 ++ moved))
      = before ++ (List.replicate (k + 1) 0 ++ (remaining ++ moved)) := by
  induction remaining using List.reverseRecOn generalizing moved with
  | nil => simp
  | append_singleton remaining x ih =>
      rw [List.length_append, List.length_singleton] at count
      have next := ih (show n = remaining.length + (x :: moved).length by rw [List.length_cons]; omega)
      have step : shiftByte colonp n
          ((before ++ remaining) ++ x :: (List.replicate (k + 1) 0 ++ moved)) (moved.length + 1) = _ :=
        shiftByte_eq (by rw [List.length_append]; omega) (by rw [List.length_append]; omega)
      rw [List.length_append, List.length_singleton, List.range'_succ, List.foldl_cons]
      simp only [List.append_assoc, List.cons_append, List.nil_append, List.length_cons] at step next ⊢
      rw [step, next]

theorem finish_run {before bytes : List UInt8} {n : Nat} (long : 2 ≤ n)
    (size : before.length + 2 * n + bytes.length = 16) (colonp : r.colonp = some before.length)
    (completed : r.completed = some (before ++ bytes))
    : inetPton6.finish r = some (before ++ List.replicate (2 * n) 0 ++ bytes) := by
  obtain ⟨k, zeros⟩ : ∃ k, 2 * n = k + 1 := ⟨2 * n - 1, by omega⟩
  have moved : bytes.length = bytes.length + ([] : List UInt8).length := rfl
  have shifted : List.foldl _ (before ++ bytes ++ (List.replicate (k + 1) 0 ++ [])) _ = _ :=
    foldl_shiftByte rfl moved (by omega)
  have length : (before ++ bytes).length = before.length + bytes.length := List.length_append
  rw [inetPton6.finish, completed, colonp]
  simp only [Option.bind_eq_bind, Option.bind_some]
  rw [if_neg (by omega), length, show 16 - (before.length + bytes.length) = k + 1 by omega,
    show before.length + bytes.length - before.length = bytes.length by omega]
  simp only [List.append_nil, List.length_nil, Nat.zero_add] at shifted
  rw [shifted, zeros, List.append_assoc]
  rfl

theorem digitByte_ne_colon {d : Nat} (h : d < 16) : digitByte d ≠ colon := by
  intro same
  have := xdigit_digitByte h
  rw [same, xdigit_colon] at this
  cases this

theorem skipColon_numeral (n : Nat) (rest : List UInt8)
    : skipColon (numeral 16 n ++ rest) = some (numeral 16 n ++ rest) := by
  have digits_lt : ∀ d ∈ numeralDigits 16 n, d < 16 := fun d => numeralDigits_lt (by decide)
  cases digits : numeralDigits 16 n with
  | nil =>
      have := numeralDigits_length_pos 16 n
      simp [digits] at this
  | cons d more =>
      have first := digitByte_ne_colon (digits_lt d (by simp [digits]))
      rw [numeral, digits, List.map_cons, List.cons_append, skipColon, if_neg first]

theorem skipColon_terminated {w : Nat} {ws : List Nat} (rest : List UInt8)
    : skipColon (terminated (w :: ws) ++ rest) = some (terminated (w :: ws) ++ rest) := by
  rw [terminated, List.flatMap_cons, List.append_assoc, List.append_assoc]
  exact skipColon_numeral w _

/-- The double colon stands where the zeros are. -/
theorem loop_doubleColon (fresh : r.seenXdigits = 0) (none : r.colonp = none) (rest : List UInt8)
    : inetPton6.loop (colon :: rest) r
      = inetPton6.loop rest { r with curtok := rest, colonp := some r.bytes.length } := by
  rw [inetPton6.loop, xdigit_colon]
  simp [fresh, none]

theorem skipColon_run (ws : List Nat) (tail : List UInt8)
    : skipColon (joined ws ++ colon :: colon :: tail) = some (terminated ws ++ colon :: tail) := by
  cases ws with
  | nil => rfl
  | cons w ws =>
      have text : joined (w :: ws) ++ colon :: colon :: tail = terminated (w :: ws) ++ colon :: tail := by
        rw [← joined_colon, List.append_assoc]
        rfl
      rw [text, skipColon_terminated]

theorem skipColon_full (ws : List Nat) (w : Nat)
    : skipColon (terminated ws ++ numeral 16 w) = some (terminated ws ++ numeral 16 w) := by
  cases ws with
  | nil => simpa [terminated] using skipColon_numeral w []
  | cons w' ws => exact skipColon_terminated _

/-- A text of the right shape is read as the address. -/
theorem Shape.read {text src : List UInt8} (h : Shape text src) (size : src.length = 16)
    : inetPton6 text = some src := by
  cases h with
  | @full ws w small =>
      obtain ⟨r', run, colonp, completed⟩ := (Tail.words small).read
        (r := ⟨[], none, terminated ws ++ numeral 16 w, 0, 0⟩) rfl rfl rfl (by rw [size]; exact le_rfl)
      rw [List.nil_append] at completed
      rw [inetPton6, skipColon_full]
      simp only [Option.bind_eq_bind, Option.bind_some, run]
      rw [inetPton6.finish, completed, colonp]
      simp only [Option.bind_eq_bind, Option.bind_some]
      rw [if_neg (not_not.mpr size)]
  | @run ws n tail bytes small long rest =>
      rw [List.length_append, List.length_append, List.length_replicate] at size
      have words := length_flatMap_wordBytes ws
      obtain ⟨r', run, colonp, completed⟩ := rest.read
        (r := ⟨ws.flatMap wordBytes, some (ws.flatMap wordBytes).length, tail, 0, 0⟩) rfl rfl rfl
        (by simp only; omega)
      have before : inetPton6.loop (terminated ws ++ colon :: tail)
          ⟨[], none, terminated ws ++ colon :: tail, 0, 0⟩ = _ :=
        loop_terminated small rfl rfl (List.cons_ne_nil _ _) (by simp only [List.length_nil]; omega) rfl
      rw [loop_doubleColon rfl rfl] at before
      rw [inetPton6, skipColon_run]
      simp only [Option.bind_eq_bind, Option.bind_some, before]
      rw [List.nil_append, run, Option.bind_some]
      exact finish_run long size colonp completed

end BSDLibC.Inet
