import Mathlib.Data.Nat.Digits.Lemmas

/-! Numerals in ASCII, most significant digit first, as `%u` and `%x` print them. -/

namespace BSDLibC.Bytes

/-- The character of a digit below 16. -/
def digitByte (d : Nat) : UInt8 := UInt8.ofNat (if d < 10 then 0x30 + d else 0x57 + d)

/-- The digits of a number, without leading zeros. -/
def numeralDigits (base n : Nat) : List Nat :=
  if n = 0 then [0] else (Nat.digits base n).reverse

def numeral (base n : Nat) : List UInt8 := (numeralDigits base n).map digitByte

theorem numeralDigits_lt {base n d : Nat} (h : 1 < base) (member : d ∈ numeralDigits base n)
    : d < base := by
  rw [numeralDigits] at member
  split at member
  · obtain rfl := List.mem_singleton.mp member
    omega
  · exact Nat.digits_lt_base h (List.mem_reverse.mp member)

theorem numeralDigits_length_pos (base n : Nat) : 0 < (numeralDigits base n).length := by
  rw [numeralDigits]
  split
  · simp
  · rw [List.length_reverse]
    exact List.length_pos_iff.mpr (Nat.digits_ne_nil_iff_ne_zero.mpr (by assumption))

theorem numeralDigits_length_le {base n k : Nat} (h : 1 < base) (pos : 0 < k) (small : n < base ^ k)
    : (numeralDigits base n).length ≤ k := by
  rw [numeralDigits]
  split
  · exact pos
  · rw [List.length_reverse]
    exact (Nat.digits_length_le_iff h n).mpr small

theorem lt_length_numeralDigits {base n k : Nat} (h : 1 < base) (big : base ^ k ≤ n)
    : k < (numeralDigits base n).length := by
  have nonzero : n ≠ 0 := by
    have := Nat.pow_pos (n := k) (Nat.lt_trans Nat.zero_lt_one h)
    omega
  rw [numeralDigits, if_neg nonzero, List.length_reverse]
  exact (Nat.lt_digits_length_iff h n).mpr big

/-- A number of several digits does not begin with a zero. -/
theorem numeralDigits_head {base n : Nat} {rest : List Nat} (h : numeralDigits base n = 0 :: rest)
    : rest = [] := by
  rw [numeralDigits] at h
  split at h
  · exact (List.cons.inj h).2.symm
  · next nonzero =>
      have nonempty : Nat.digits base n ≠ [] := Nat.digits_ne_nil_iff_ne_zero.mpr nonzero
      have last : (Nat.digits base n).getLast nonempty = 0 := by
        simp [← List.head_reverse, h]
      exact absurd last (Nat.getLast_digit_ne_zero base nonzero)

/-- Reading the digits in order gives the number. -/
theorem foldl_numeralDigits (base n : Nat)
    : (numeralDigits base n).foldl (fun v d => v * base + d) 0 = n := by
  rw [numeralDigits]
  split
  · next zero => simp [zero]
  · rw [List.foldl_reverse]
    conv_rhs => rw [← Nat.ofDigits_digits base n, Nat.ofDigits_eq_foldr]
    congr
    funext d v
    simp [Nat.mul_comm, Nat.add_comm]

theorem length_numeral (base n : Nat) : (numeral base n).length = (numeralDigits base n).length :=
  List.length_map _

/-- A number is known by its digits. -/
theorem numeral_injective {base m n : Nat} (h : 1 < base) (small : base ≤ 16)
    (same : numeral base m = numeral base n)
    : m = n := by
  have decoded : ∀ n, (numeral base n).map (fun c => c.toNat - if c < 0x3a then 0x30 else 0x57)
      = numeralDigits base n := by
    intro n
    rw [numeral, List.map_map, List.map_congr_left (g := id), List.map_id]
    intro d member
    have all : ∀ d : Fin 16, (digitByte d).toNat - (if digitByte d < 0x3a then 0x30 else 0x57) = d := by
      decide
    exact all ⟨d, Nat.lt_of_lt_of_le (numeralDigits_lt h member) small⟩
  rw [← foldl_numeralDigits base m, ← decoded m, same, decoded n, foldl_numeralDigits]

theorem digitByte_ne_zero {d : Nat} (h : d < 16) : digitByte d ≠ 0 := by
  have all : ∀ d : Fin 16, digitByte d ≠ 0 := by decide
  exact all ⟨d, h⟩

theorem numeral_ne_zero {base n : Nat} (h : 1 < base) (small : base ≤ 16)
    : ∀ c ∈ numeral base n, c ≠ 0 := by
  intro c member
  obtain ⟨d, digit, rfl⟩ := List.mem_map.mp member
  exact digitByte_ne_zero (Nat.lt_of_lt_of_le (numeralDigits_lt h digit) small)

end BSDLibC.Bytes
