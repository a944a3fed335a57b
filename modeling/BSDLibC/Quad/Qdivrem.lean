import BSDLibC.Digits.Windows
import Mathlib.Data.Nat.Bitwise
import Mathlib.Logic.Function.Basic

/-! `__qdivrem`, the division of 64-bit numbers in digits of 16 bits. An access outside a digit array,
and a value that its type does not hold, is no result; only the difference that may borrow wraps
around.
-/

namespace BSDLibC.Quad
open BSDLibC.Digits

/-- `B` -/
def base : Nat := 1 <<< 16

def hhalf (x : Nat) : Nat := x >>> 16

def lhalf (x : Nat) : Nat := x &&& (base - 1)

/-- A value of type `u_int` -/
def uint (x : Nat) : Option Nat := if x < 2 ^ 32 then some x else none

/-- A value of type `digit` -/
def digit (x : Nat) : Option Nat := if x < 2 ^ 16 then some x else none

/-- The difference of two values of type `u_int`, which wraps around. -/
def usub (a b : Nat) : Nat := (a + 2 ^ 32 - b) % 2 ^ 32

/-- `COMBINE` -/
def combine (a b : Nat) : Option Nat := do
  let high ← uint (a <<< 16)
  return high ||| b

/-- One of the arrays of five digits. -/
abbrev Space := Nat → Nat

def Space.get (a : Space) (i : Nat) : Option Nat := if i < 5 then some (a i) else none

def Space.set (a : Space) (i x : Nat) : Option Space := do
  let x ← digit x
  if i < 5 then some (Function.update a i x) else none

/-- The digits of a number at the places 1 to 4 of an array that holds `junk`. -/
def breakUp (junk : Space) (x : Nat) : Space
  | 1 => hhalf (x >>> 32)
  | 2 => lhalf (x >>> 32)
  | 3 => hhalf (x % 2 ^ 32)
  | 4 => lhalf (x % 2 ^ 32)
  | i => junk i

/-- `tmp.ul[H] = COMBINE(a[1], a[2]); tmp.ul[L] = COMBINE(a[3], a[4])` -/
def assemble (a1 a2 a3 a4 : Nat) : Option Nat := do
  let high ← combine a1 a2
  let low ← combine a3 a4
  return high * 2 ^ 32 + low

def assembleDigits (a : Space) : Option Nat := do
  assemble (← a.get 1) (← a.get 2) (← a.get 3) (← a.get 4)

/-- The loop that counts the digits of the divisor: the final `n`, and how often `v` moved on. It
ends with 1 in the middle of a pass.
-/
def divisorDigits (v : Space) : Nat → Nat → Option (Nat × Nat)
  | 0, _ => none
  | n + 1, ov => do
      if (← v.get (ov + 1)) = 0 then
        if n = 1 then
          return (1, ov)
        else
          divisorDigits v n (ov + 1)
      else
        return (n + 1, ov)

/-- The division by a single digit. -/
def shortDivision (u : Space) (t : Nat) : Option (Nat × Nat) := do
  let u1 ← u.get 1
  let u2 ← u.get 2
  let u3 ← u.get 3
  let u4 ← u.get 4
  if t = 0 then
    none
  else
    let q1 ← digit (u1 / t)
    let rbj ← combine (u1 % t) u2
    let q2 ← digit (rbj / t)
    let rbj ← combine (rbj % t) u3
    let q3 ← digit (rbj / t)
    let rbj ← combine (rbj % t) u4
    let q4 ← digit (rbj / t)
    return (← assemble q1 q2 q3 q4, rbj % t)

/-- `for (m = 4 - n; u[1] == 0; u++) m--;`, where `m` does not become negative. -/
def dividendDigits (u : Space) : Nat → Nat → Option (Nat × Nat)
  | m, ou => do
      if (← u.get (ou + 1)) = 0 then
        match m with
        | 0 => none
        | m + 1 => dividendDigits u m (ou + 1)
      else
        return (m, ou)

/-- `for (t = v[1]; t < B / 2; t <<= 1) d++;` -/
def normalizing : Nat → Nat → Option Nat
  | 0, _ => none
  | fuel + 1, t =>
      if t < base / 2 then do
        let t ← uint (t <<< 1)
        return (← normalizing fuel t) + 1
      else
        some 0

/-- One pass of the loop of `shl`. -/
def shiftDigit (p sh : Nat) (a : Space) (i : Nat) : Option Space := do
  let x ← uint ((← a.get (p + i)) <<< sh)
  let y ← a.get (p + i + 1)
  a.set (p + i) (lhalf x ||| y >>> (16 - sh))

/-- `shl` -/
def shl (a : Space) (p len sh : Nat) : Option Space := do
  let a ← (List.range len).foldlM (shiftDigit p sh) a
  let x ← uint ((← a.get (p + len)) <<< sh)
  a.set (p + len) (lhalf x)

/-- From the label `qhat_too_big` to the end of D3. -/
def qhatTooBig (v1 v2 uj2 : Nat) : Nat → Nat → Option Nat
  | 0, _ => none
  | qhat + 1, rhat => do
      let rhat ← uint (rhat + v1)
      if rhat ≥ base then
        return qhat
      else if (← uint (v2 * qhat)) > (← combine rhat uj2) then
        qhatTooBig v1 v2 uj2 qhat rhat
      else
        return qhat

/-- D3 -/
def calculateQhat (v1 v2 uj0 uj1 uj2 : Nat) : Option Nat :=
  if uj0 = v1 then
    qhatTooBig v1 v2 uj2 base uj1
  else if v1 = 0 then
    none
  else do
    let nn ← combine uj0 uj1
    let qhat := nn / v1
    let rhat := nn % v1
    if (← uint (v2 * qhat)) > (← combine rhat uj2) then
      qhatTooBig v1 v2 uj2 qhat rhat
    else
      return qhat

/-- The loop of D4 over the digits `i` to 1, with the borrow `t`. -/
def multiplySubtract (v : Space) (ov qhat p : Nat) : Nat → Space → Nat → Option (Space × Nat)
  | 0, u, t => some (u, t)
  | i + 1, u, t => do
      let x ← u.get (p + (i + 1))
      let product ← uint ((← v.get (ov + (i + 1))) * qhat)
      let t := usub (usub x product) t
      let u ← u.set (p + (i + 1)) (lhalf t)
      multiplySubtract v ov qhat p i u ((base - hhalf t) &&& (base - 1))

/-- The loop of D6, with the carry `t`. -/
def addBack (v : Space) (ov p : Nat) : Nat → Space → Nat → Option (Space × Nat)
  | 0, u, t => some (u, t)
  | i + 1, u, t => do
      let t ← uint (t + (← u.get (p + (i + 1))) + (← v.get (ov + (i + 1))))
      let u ← u.set (p + (i + 1)) (lhalf t)
      addBack v ov p i u (hhalf t)

/-- The end of D4 with the borrow `t`, and D5 and D6. -/
def storeDigit (v : Space) (ov n : Nat) (u q : Space) (p r qhat t : Nat)
    : Option (Space × Space) := do
  let t := usub (← u.get p) t
  let u ← u.set p (lhalf t)
  if hhalf t ≠ 0 then
    let (u, t) ← addBack v ov p n u 0
    let u ← u.set p (lhalf ((← u.get p) + t))
    return (u, ← q.set r (qhat - 1))
  else
    return (u, ← q.set r qhat)

/-- D3 to D6 for one digit of the quotient, where `p` is the place of `u[j]` and `r` of `q[j]`. -/
def divisionStep (v : Space) (ov n : Nat) (u q : Space) (p r : Nat) : Option (Space × Space) := do
  let qhat ← calculateQhat (← v.get (ov + 1)) (← v.get (ov + 2)) (← u.get p) (← u.get (p + 1))
    (← u.get (p + 2))
  let (u, t) ← multiplySubtract v ov qhat p n u 0
  storeDigit v ov n u q p r qhat t

/-- `u[i] = (u[i] >> d) | LHALF(u[i - 1] << (HALF_BITS - d))` for `i` from `m + k` down -/
def shiftBack (d p : Nat) : Nat → Space → Option Space
  | 0, u => some u
  | k + 1, u => do
      let low ← u.get (p + (k + 1))
      let high ← uint ((← u.get (p + k)) <<< (16 - d))
      shiftBack d p k (← u.set (p + (k + 1)) (low >>> d ||| lhalf high))

/-- The loop of D2 to D7 for the digit `j`. -/
def divisionPass (v : Space) (ov n ou oq : Nat) (s : Space × Space) (j : Nat)
    : Option (Space × Space) :=
  divisionStep v ov n s.1 s.2 (ou + j) (oq + j)

/-- The shift of D1, when there is one. -/
def shlSome (a : Space) (p len sh : Nat) : Option Space :=
  if sh > 0 then shl a p len sh else some a

/-- D8, when there was a shift. -/
def unnormalize (u : Space) (p n d : Nat) : Option Space :=
  if d > 0 then do
    let u ← shiftBack d p n u
    u.set p 0
  else
    some u

/-- What is stored for a remainder, when there is a place for it. -/
def storeRemainder (arq : Bool) (remainder : Option Nat) : Option (Option Nat) :=
  if arq then remainder.map some else some none

/-- Program D, from the first digits on. -/
def longDivision (junk u v : Space) (n ov : Nat) (arq : Bool) : Option (Nat × Option Nat) := do
  let (m, ou) ← dividendDigits u (4 - n) 0
  let q ← (List.range (4 - m)).foldlM (fun q i => Space.set q i 0) junk
  let oq := 4 - m
  let d ← normalizing 16 (← v.get (ov + 1))
  let u ← shlSome u ou (m + n) d
  let v ← shlSome v (ov + 1) (n - 1) d
  let (u, q) ← (List.range (m + 1)).foldlM (divisionPass v ov n ou oq) (u, q)
  let r ← storeRemainder arq (do
    let u ← unnormalize u (ou + m) n d
    assembleDigits u)
  let quotient ← assembleDigits q
  return (quotient, r)

/-- `__qdivrem(uq, vq, arq)`, where `arq` is whether there is a place for the remainder: the quotient
and what is stored there; `junk` is what the digit arrays held before.
-/
def qdivrem (junk : Space) (uq vq : Nat) (arq : Bool) : Option (Nat × Option Nat) :=
  if vq = 0 then
    none
  else if uq < vq then do
    return (0, ← storeRemainder arq (some uq))
  else do
    let u := Function.update (breakUp junk uq) 0 0
    let v := breakUp junk vq
    let (n, ov) ← divisorDigits v 4 0
    if n = 1 then
      let (quotient, r) ← shortDivision u (← v.get (ov + 2))
      return (quotient, ← storeRemainder arq (some r))
    else
      longDivision junk u v n ov arq

-----------------------------------------------------------------------------------------
-- Digits
-----------------------------------------------------------------------------------------

theorem base_eq : base = 65536 := rfl

theorem hhalf_eq (x : Nat) : hhalf x = x / 65536 := by rw [hhalf, Nat.shiftRight_eq_div_pow]

theorem and_base_eq (x : Nat) : x &&& (base - 1) = x % 65536 :=
  Nat.and_two_pow_sub_one_eq_mod x 16

theorem lhalf_eq (x : Nat) : lhalf x = x % 65536 := and_base_eq x

theorem uint_eq {x : Nat} (fits : x < 2 ^ 32) : uint x = some x := if_pos fits

theorem digit_eq {x : Nat} (fits : x < 65536) : digit x = some x := if_pos fits

theorem combine_eq {a b : Nat} (ha : a < 65536) (hb : b < 65536)
    : combine a b = some (a * 65536 + b) := by
  have fits : a <<< 16 < 2 ^ 32 := by
    rw [Nat.shiftLeft_eq]
    omega
  rw [combine, uint_eq fits, Option.bind_eq_bind, Option.bind_some, ← Nat.shiftLeft_add_eq_or_of_lt
    (by omega : b < 2 ^ 16), Nat.shiftLeft_eq]
  rfl

theorem Space.get_eq {a : Space} {i : Nat} (inside : i < 5) : a.get i = some (a i) := if_pos inside

theorem Space.set_eq {a : Space} {i x : Nat} (inside : i < 5) (fits : x < 65536)
    : a.set i x = some (Function.update a i x) := by
  rw [Space.set, digit_eq fits, Option.bind_eq_bind, Option.bind_some, if_pos inside]

/-- One digit of the difference and the borrow for the next. -/
theorem borrow_digit {x product t : Nat} (hx : x < 65536) (hproduct : product ≤ 65535 * 65535)
    (ht : t < 65536)
    : usub (usub x product) t % 65536 + product + t
      = x + (65536 - usub (usub x product) t / 65536) % 65536 * 65536 := by
  simp only [usub]
  omega

-----------------------------------------------------------------------------------------
-- One digit of the quotient
-----------------------------------------------------------------------------------------

section

variable {v u : Space} {ov qhat p n t : Nat}

/-- D4 subtracts a multiple of the divisor from the digits behind the first. -/
theorem multiplySubtract_spec (hv : ∀ i < n, v (ov + 1 + i) < 65536)
    (hu : ∀ i < n, u (p + 1 + i) < 65536) (hq : qhat < 65536) (ht : t < 65536) (inv : ov + n < 5)
    (inu : p + n < 5)
    : ∃ u' t', multiplySubtract v ov qhat p n u t = some (u', t')
      ∧ t' < 65536
      ∧ (∀ i < n, u' (p + 1 + i) < 65536)
      ∧ (∀ i, i ≤ p ∨ p + n < i → u' i = u i)
      ∧ windowValue 65536 u' (p + 1) n + qhat * windowValue 65536 v (ov + 1) n + t
        = windowValue 65536 u (p + 1) n + t' * 65536 ^ n := by
  induction n generalizing u t with
  | zero => exact ⟨u, t, rfl, ht, by simp, fun _ _ => rfl, by simp [windowValue]⟩
  | succ n ih =>
      have hx := hu n (by omega)
      have hy := hv n (by omega)
      have product : v (ov + 1 + n) * qhat ≤ 65535 * 65535 :=
        Nat.mul_le_mul (by omega) (by omega)
      have digit := borrow_digit hx product ht
      rw [multiplySubtract, show p + (n + 1) = p + 1 + n by omega,
        show ov + (n + 1) = ov + 1 + n by omega, Space.get_eq (by omega), Option.bind_eq_bind,
        Option.bind_some, Space.get_eq (by omega), Option.bind_some, uint_eq (by omega),
        Option.bind_some]
      simp only [and_base_eq, hhalf_eq, lhalf_eq]
      rw [base_eq]
      generalize usub (usub (u (p + 1 + n)) (v (ov + 1 + n) * qhat)) t = T at *
      rw [Space.set_eq (by omega) (by omega), Option.bind_eq_bind, Option.bind_some]
      have others (i : Nat) (other : i ≠ p + 1 + n)
          : Function.update u (p + 1 + n) (T % 65536) i = u i := Function.update_of_ne other _ _
      obtain ⟨u', t', run, ht', small, frame, value⟩ := ih (t := (65536 - T / 65536) % 65536)
        (u := Function.update u (p + 1 + n) (T % 65536)) (fun i inside => hv i (by omega))
        (fun i inside => by rw [others _ (by omega)]; exact hu i (by omega)) (by omega) (by omega)
        (by omega)
      have last : u' (p + 1 + n) = T % 65536 := by
        rw [frame _ (by omega), Function.update_self]
      refine ⟨u', t', run, ht', fun i inside => ?_, fun i outside => ?_, ?_⟩
      · rcases Nat.lt_succ_iff_lt_or_eq.mp inside with less | rfl
        · exact small i less
        · rw [last]
          omega
      · rw [frame i (by omega), others i (by omega)]
      · rw [windowValue_congr (fun i inside => others (p + 1 + i) (by omega))] at value
        rw [windowValue, windowValue, windowValue, last, Nat.pow_succ]
        calc
          _ = (windowValue 65536 u' (p + 1) n + qhat * windowValue 65536 v (ov + 1) n) * 65536
              + (T % 65536 + v (ov + 1 + n) * qhat + t) := by ring
          _ = (windowValue 65536 u' (p + 1) n + qhat * windowValue 65536 v (ov + 1) n
                + (65536 - T / 65536) % 65536) * 65536 + u (p + 1 + n) := by
            rw [digit]
            ring
          _ = _ := by
            rw [value]
            ring

/-- D6 adds the divisor to the digits behind the first. -/
theorem addBack_spec (hv : ∀ i < n, v (ov + 1 + i) < 65536) (hu : ∀ i < n, u (p + 1 + i) < 65536)
    (ht : t ≤ 1) (inv : ov + n < 5) (inu : p + n < 5)
    : ∃ u' t', addBack v ov p n u t = some (u', t')
      ∧ t' ≤ 1
      ∧ (∀ i < n, u' (p + 1 + i) < 65536)
      ∧ (∀ i, i ≤ p ∨ p + n < i → u' i = u i)
      ∧ windowValue 65536 u' (p + 1) n + t' * 65536 ^ n
        = windowValue 65536 u (p + 1) n + windowValue 65536 v (ov + 1) n + t := by
  induction n generalizing u t with
  | zero => exact ⟨u, t, rfl, ht, by simp, fun _ _ => rfl, by simp [windowValue]⟩
  | succ n ih =>
      have hx := hu n (by omega)
      have hy := hv n (by omega)
      rw [addBack, show p + (n + 1) = p + 1 + n by omega, show ov + (n + 1) = ov + 1 + n by omega,
        Space.get_eq (by omega), Option.bind_eq_bind, Option.bind_some, Space.get_eq (by omega),
        Option.bind_some, uint_eq (by omega), Option.bind_some, lhalf_eq, hhalf_eq]
      have digit := Nat.div_add_mod (t + u (p + 1 + n) + v (ov + 1 + n)) 65536
      have carry : (t + u (p + 1 + n) + v (ov + 1 + n)) / 65536 ≤ 1 := by omega
      generalize (t + u (p + 1 + n) + v (ov + 1 + n)) / 65536 = high at *
      have less : (t + u (p + 1 + n) + v (ov + 1 + n)) % 65536 < 65536 := Nat.mod_lt _ (by decide)
      generalize (t + u (p + 1 + n) + v (ov + 1 + n)) % 65536 = low at *
      rw [Space.set_eq (by omega) less, Option.bind_eq_bind, Option.bind_some]
      have others (i : Nat) (other : i ≠ p + 1 + n)
          : Function.update u (p + 1 + n) low i = u i := Function.update_of_ne other _ _
      obtain ⟨u', t', run, ht', small, frame, value⟩ := ih (t := high)
        (u := Function.update u (p + 1 + n) low) (fun i inside => hv i (by omega))
        (fun i inside => by rw [others _ (by omega)]; exact hu i (by omega)) carry (by omega)
        (by omega)
      have last : u' (p + 1 + n) = low := by rw [frame _ (by omega), Function.update_self]
      refine ⟨u', t', run, ht', fun i inside => ?_, fun i outside => ?_, ?_⟩
      · rcases Nat.lt_succ_iff_lt_or_eq.mp inside with earlier | rfl
        · exact small i earlier
        · rwa [last]
      · rw [frame i (by omega), others i (by omega)]
      · rw [windowValue_congr (fun i inside => others (p + 1 + i) (by omega))] at value
        rw [windowValue, windowValue, windowValue, last, Nat.pow_succ]
        calc
          _ = (windowValue 65536 u' (p + 1) n + t' * 65536 ^ n) * 65536 + low := by ring
          _ = (windowValue 65536 u (p + 1) n + windowValue 65536 v (ov + 1) n) * 65536
              + (65536 * high + low) := by
            rw [value]
            ring
          _ = _ := by
            rw [digit]
            ring

end

/-- The greatest digit whose product with the first two digits of the divisor does not exceed the
first three of the window.
-/
structure Estimates (v1 v2 uj0 uj1 uj2 qhat : Nat) : Prop where
  small : qhat < 65536
  enough : qhat * (v1 * 65536 + v2) ≤ (uj0 * 65536 + uj1) * 65536 + uj2
  most :
    qhat + 1 = 65536 ∨ (uj0 * 65536 + uj1) * 65536 + uj2 < (qhat + 1) * (v1 * 65536 + v2)

section

variable {v1 v2 uj0 uj1 uj2 qhat rhat : Nat}

/-- The test of D3 compares the product with the first three digits. -/
theorem test_iff (remainder : qhat * v1 + rhat = uj0 * 65536 + uj1)
    : v2 * qhat > rhat * 65536 + uj2
      ↔ (uj0 * 65536 + uj1) * 65536 + uj2 < qhat * (v1 * 65536 + v2) := by
  rw [← remainder, Nat.mul_add, ← Nat.mul_assoc, Nat.mul_comm qhat v2]
  omega

theorem product_lt (hv2 : v2 < 65536) (hq : qhat < 65536) : v2 * qhat < 2 ^ 32 := by
  have := Nat.mul_le_mul (Nat.le_sub_one_of_lt hv2) (Nat.le_sub_one_of_lt hq)
  omega

theorem qhatTooBig_spec (hv1 : v1 < 65536) (hv2 : v2 < 65536) (hu2 : uj2 < 65536)
    (remainder : (qhat + 1) * v1 + rhat = uj0 * 65536 + uj1) (hr : rhat < 65536)
    (hq : qhat + 1 ≤ 65536)
    (above : qhat + 1 = 65536
      ∨ (uj0 * 65536 + uj1) * 65536 + uj2 < (qhat + 1) * (v1 * 65536 + v2))
    : ∃ r, qhatTooBig v1 v2 uj2 (qhat + 1) rhat = some r ∧ Estimates v1 v2 uj0 uj1 uj2 r := by
  induction qhat generalizing rhat with
  | zero =>
      rw [qhatTooBig, uint_eq (by omega), Option.bind_eq_bind, Option.bind_some, base_eq]
      have done : Estimates v1 v2 uj0 uj1 uj2 0 := ⟨by decide, by simp, above⟩
      split
      · exact ⟨0, rfl, done⟩
      case isFalse inside =>
        rw [Nat.mul_zero, uint_eq (by decide), combine_eq (by omega) hu2]
        simp only [Option.bind_some]
        rw [if_neg (by omega)]
        exact ⟨0, rfl, done⟩
  | succ qhat ih =>
      have next : (qhat + 1) * v1 + (rhat + v1) = uj0 * 65536 + uj1 := by
        rw [← remainder]
        ring
      rw [qhatTooBig, uint_eq (by omega), Option.bind_eq_bind, Option.bind_some, base_eq]
      split
      case isTrue outside =>
        refine ⟨qhat + 1, rfl, by omega, ?_, above⟩
        have := product_lt hv2 (show qhat + 1 < 65536 by omega)
        rw [← not_lt, ← test_iff next]
        omega
      case isFalse inside =>
        rw [uint_eq (product_lt hv2 (by omega)), combine_eq (by omega) hu2]
        simp only [Option.bind_some]
        split
        case isTrue big =>
          exact ih next (by omega) (by omega) (Or.inr ((test_iff next).mp big))
        case isFalse fits =>
          exact ⟨qhat + 1, rfl, by omega, Nat.not_lt.mp (mt (test_iff next).mpr fits), above⟩

theorem calculateQhat_spec (hv1 : v1 < 65536) (positive : 0 < v1) (hv2 : v2 < 65536)
    (hu1 : uj1 < 65536) (hu2 : uj2 < 65536) (less : uj0 ≤ v1)
    : ∃ r, calculateQhat v1 v2 uj0 uj1 uj2 = some r ∧ Estimates v1 v2 uj0 uj1 uj2 r := by
  rw [calculateQhat]
  split
  case isTrue same =>
    subst same
    have most : 65535 + 1 = 65536 ∨ (uj0 * 65536 + uj1) * 65536 + uj2
        < (65535 + 1) * (uj0 * 65536 + v2) := Or.inl rfl
    exact qhatTooBig_spec hv1 hv2 hu2 (by ring) hu1 (by decide) most
  case isFalse other =>
    have behind (x : Nat) : x * 65536 + uj2 < (x + 1) * 65536 := by omega
    rw [if_neg (by omega), combine_eq (by omega) hu1, Option.bind_eq_bind, Option.bind_some]
    have division := Nat.div_add_mod (uj0 * 65536 + uj1) v1
    have low := Nat.mod_lt (uj0 * 65536 + uj1) positive
    have small : (uj0 * 65536 + uj1) / v1 < 65536 := by
      rw [Nat.div_lt_iff_lt_mul positive]
      have := Nat.mul_le_mul_right 65536 (show uj0 + 1 ≤ v1 by omega)
      omega
    have above := Nat.lt_mul_div_succ (uj0 * 65536 + uj1) positive
    generalize (uj0 * 65536 + uj1) / v1 = qhat at *
    generalize (uj0 * 65536 + uj1) % v1 = rhat at *
    have remainder : qhat * v1 + rhat = uj0 * 65536 + uj1 := by rw [Nat.mul_comm, division]
    have most : (uj0 * 65536 + uj1) * 65536 + uj2 < (qhat + 1) * (v1 * 65536 + v2) := by
      calc
        (uj0 * 65536 + uj1) * 65536 + uj2 < (uj0 * 65536 + uj1 + 1) * 65536 := behind _
        _ ≤ v1 * (qhat + 1) * 65536 := Nat.mul_le_mul_right 65536 above
        _ ≤ v1 * (qhat + 1) * 65536 + (qhat + 1) * v2 := Nat.le_add_right _ _
        _ = (qhat + 1) * (v1 * 65536 + v2) := by ring
    simp only [uint_eq (product_lt hv2 small), combine_eq (show rhat < 65536 by omega) hu2,
      Option.bind_some]
    split
    case isTrue big =>
      have wrong := (test_iff remainder).mp big
      cases qhat with
      | zero => omega
      | succ qhat =>
          exact qhatTooBig_spec hv1 hv2 hu2 remainder (by omega) (by omega) (Or.inr wrong)
    case isFalse fits =>
      exact ⟨qhat, rfl, small, Nat.not_lt.mp (mt (test_iff remainder).mpr fits), Or.inr most⟩

end

section

variable {v u q : Space} {ov n p r : Nat}

/-- The first digit of a window that is less than `B` times the divisor. -/
theorem first_le (hv : ∀ i < n, v (ov + 1 + i) < 65536) (some : 0 < n)
    (bound : windowValue 65536 u p (n + 1) < windowValue 65536 v (ov + 1) n * 65536)
    : u p ≤ v (ov + 1) := by
  obtain ⟨k, rfl⟩ := Nat.exists_eq_succ_of_ne_zero (Nat.ne_of_gt some)
  have rest : windowValue 65536 v (ov + 1 + 1) k < 65536 ^ k :=
    windowValue_lt (fun i inside => by
      rw [Nat.add_assoc (ov + 1)]
      exact hv (1 + i) (by omega))
  rw [windowValue_cons 65536 u, Nat.succ_eq_add_one, windowValue_cons 65536 v] at bound
  refine Nat.le_of_lt_succ (Nat.lt_of_mul_lt_mul_right (a := 65536 ^ (k + 1)) ?_)
  calc
    u p * 65536 ^ (k + 1)
        < (v (ov + 1) * 65536 ^ k + windowValue 65536 v (ov + 1 + 1) k) * 65536 := by omega
    _ ≤ (v (ov + 1) * 65536 ^ k + 65536 ^ k) * 65536 :=
      Nat.mul_le_mul_right _ (Nat.add_le_add_left rest.le _)
    _ = (v (ov + 1) + 1) * 65536 ^ (k + 1) := by ring

/-- The estimated digit is that of the quotient or one more. -/
theorem Estimates.near {qhat : Nat} (hv : ∀ i < n, v (ov + 1 + i) < 65536)
    (hu : ∀ i ≤ n, u (p + i) < 65536) (two : 2 ≤ n) (positive : 0 < v (ov + 1))
    (bound : windowValue 65536 u p (n + 1) < windowValue 65536 v (ov + 1) n * 65536)
    (h : Estimates (v (ov + 1)) (v (ov + 2)) (u p) (u (p + 1)) (u (p + 2)) qhat)
    : qhat * windowValue 65536 v (ov + 1) n
        < windowValue 65536 u p (n + 1) + windowValue 65536 v (ov + 1) n
      ∧ windowValue 65536 u p (n + 1) < (qhat + 1) * windowValue 65536 v (ov + 1) n := by
  obtain ⟨k, rfl⟩ := Nat.exists_eq_add_of_le two
  have dividend := windowValue_append 65536 u p 3 k
  have divisor := windowValue_append 65536 v (ov + 1) 2 k
  rw [show 3 + k = 2 + k + 1 by omega] at dividend
  have top : windowValue 65536 u p 3 = (u p * 65536 + u (p + 1)) * 65536 + u (p + 2) := by
    simp [windowValue]
  have vtop : windowValue 65536 v (ov + 1) 2 = v (ov + 1) * 65536 + v (ov + 2) := by
    simp [windowValue, Nat.add_assoc]
  obtain ⟨small, enough, most⟩ := h
  rw [← top, ← vtop] at enough most
  refine estimate_near dividend (windowValue_lt fun i inside => ?_) divisor
    (windowValue_lt fun i inside => ?_) ?_ small enough most bound
  · rw [Nat.add_assoc]
    exact hu (3 + i) (by omega)
  · rw [Nat.add_assoc (ov + 1)]
    exact hv (2 + i) (by omega)
  · rw [vtop]
    omega

/-- The difference of two digits, and whether it borrows. -/
theorem usub_digit {x t : Nat} (hx : x < 65536) (ht : t < 65536)
    : lhalf (usub x t) + t = x ∧ hhalf (usub x t) = 0
      ∨ lhalf (usub x t) + t = x + 65536 ∧ hhalf (usub x t) ≠ 0 := by
  rw [lhalf_eq, hhalf_eq, usub]
  omega

theorem lhalf_lt (x : Nat) : lhalf x < 65536 := by
  rw [lhalf_eq]
  exact Nat.mod_lt _ (by decide)

/-- The end of D4 and D6 leave the remainder in the window when the estimated digit is that of the
quotient or one more.
-/
theorem storeDigit_spec {qhat t V W : Nat} (hv : ∀ i < n, v (ov + 1 + i) < 65536)
    (hu : ∀ i < n, u (p + 1 + i) < 65536) (first : u p < 65536) (ht : t < 65536)
    (inv : ov + n < 5) (inu : p + n < 5) (inq : r < 5) (small : qhat < 65536)
    (divisor : windowValue 65536 v (ov + 1) n = V)
    (subtracted :
      u p * 65536 ^ n + windowValue 65536 u (p + 1) n + qhat * V = W + t * 65536 ^ n)
    (low : qhat * V < W + V) (high : W < (qhat + 1) * V)
    : ∃ u', storeDigit v ov n u q p r qhat t = some (u', Function.update q r (W / V))
      ∧ (∀ i ≤ n, u' (p + i) < 65536)
      ∧ (∀ i, i < p ∨ p + n < i → u' i = u i)
      ∧ windowValue 65536 u' p (n + 1) = W % V := by
  have cases := usub_digit first ht
  have digit := lhalf_lt (usub (u p) t)
  have others (i : Nat) (other : i ≠ p) (x : Nat) : Function.update u p x i = u i :=
    Function.update_of_ne other _ _
  rw [storeDigit, Space.get_eq (by omega), Option.bind_eq_bind, Option.bind_some]
  generalize usub (u p) t = T at *
  dsimp only
  rw [Space.set_eq (by omega) digit, Option.bind_eq_bind, Option.bind_some]
  generalize lhalf T = d at *
  have rest : windowValue 65536 (Function.update u p d) (p + 1) n
      = windowValue 65536 u (p + 1) n :=
    windowValue_congr fun i inside => others (p + 1 + i) (by omega) d
  have bound : windowValue 65536 u (p + 1) n < 65536 ^ n := windowValue_lt hu
  generalize hU : windowValue 65536 u (p + 1) n = U at *
  have positive : 0 < V :=
    Nat.pos_of_ne_zero (by rintro rfl; exact Nat.not_lt_zero _ high)
  have starts {a : Space} (i : Nat) (inside : i ≤ n) (zero : a p < 65536)
      (behind : ∀ i < n, a (p + 1 + i) < 65536)
      : a (p + i) < 65536 := by
    rcases Nat.eq_zero_or_pos i with rfl | later
    · exact zero
    · rw [show p + i = p + 1 + (i - 1) by omega]
      exact behind (i - 1) (by omega)
  rcases cases with ⟨sum, none⟩ | ⟨sum, borrow⟩
  · -- the estimated digit is that of the quotient
    rw [← sum, Nat.add_mul] at subtracted
    have value : windowValue 65536 (Function.update u p d) p (n + 1) + qhat * V = W := by
      rw [windowValue_cons, Function.update_self, rest]
      omega
    have less : windowValue 65536 (Function.update u p d) p (n + 1) < V := by
      rw [Nat.succ_mul] at high
      omega
    rw [Nat.mul_comm] at value
    obtain ⟨quotient, remainder⟩ := (Nat.div_mod_unique positive).mpr ⟨value, less⟩
    rw [if_neg (by simp [none]), quotient, Space.set_eq inq small, remainder]
    refine ⟨_, rfl, fun i inside => ?_, fun i outside => others i (by omega) d, rfl⟩
    refine starts i inside (by rwa [Function.update_self]) fun i inside => ?_
    rw [others _ (by omega) d]
    exact hu i inside
  · -- the estimated digit is one more, and the carry of D6 cancels the borrow
    obtain ⟨u₂, c, run, carry, small₂, frame₂, value₂⟩ :=
      addBack_spec (u := Function.update u p d) (p := p) (t := 0) hv
        (fun i inside => by rw [others _ (by omega) d]; exact hu i inside) (by decide) inv inu
    have bound₂ : windowValue 65536 u₂ (p + 1) n < 65536 ^ n := windowValue_lt small₂
    rw [divisor, rest] at value₂
    have product : (d + t) * 65536 ^ n = (u p + 65536) * 65536 ^ n := by rw [sum]
    rw [Nat.add_mul, Nat.add_mul] at product
    generalize 65536 ^ n = P at *
    have total : (d + c) * P + windowValue 65536 u₂ (p + 1) n + qhat * V = W + V + 65536 * P := by
      rw [Nat.add_mul]
      omega
    have full : d + c = 65536 := by
      by_contra other
      have := Nat.mul_le_mul_right P (show d + c ≤ 65535 by omega)
      omega
    obtain ⟨rfl, rfl⟩ : d = 65535 ∧ c = 1 := by omega
    obtain ⟨qhat, rfl⟩ : ∃ k, qhat = k + 1 := by
      refine Nat.exists_eq_succ_of_ne_zero ?_
      rintro rfl
      omega
    rw [Nat.succ_mul] at low total subtracted
    have last : u₂ p = 65535 := by rw [frame₂ p (by omega), Function.update_self]
    have value : windowValue 65536 u₂ (p + 1) n + V * qhat = W := by
      rw [Nat.mul_comm]
      omega
    obtain ⟨quotient, remainder⟩ := (Nat.div_mod_unique positive).mpr ⟨value, by omega⟩
    rw [if_pos borrow, run, Option.bind_eq_bind, Option.bind_some]
    dsimp only
    rw [Space.get_eq (by omega), last, Option.bind_some, Space.set_eq (by omega) (lhalf_lt _),
      Option.bind_some, Nat.add_sub_cancel, quotient, Space.set_eq inq (by omega), remainder]
    have others₂ (i : Nat) (other : i ≠ p) (x : Nat) : Function.update u₂ p x i = u₂ i :=
      Function.update_of_ne other _ _
    refine ⟨_, rfl, fun i inside => ?_, fun i outside => ?_, ?_⟩
    · refine starts i inside (by rw [Function.update_self]; exact lhalf_lt _) fun i inside => ?_
      rw [others₂ _ (by omega)]
      exact small₂ i inside
    · rw [others₂ i (by omega), frame₂ i (by omega), others i (by omega)]
    · rw [windowValue_cons, Function.update_self, windowValue_congr fun i inside =>
        others₂ (p + 1 + i) (by omega) _, show lhalf (65535 + 1) = 0 from rfl]
      omega

/-- D3 to D6 divide a window of the dividend by the divisor and leave the remainder in it. -/
theorem divisionStep_spec (hv : ∀ i < n, v (ov + 1 + i) < 65536)
    (hu : ∀ i ≤ n, u (p + i) < 65536) (two : 2 ≤ n) (inv : ov + n < 5) (inu : p + n < 5)
    (inq : r < 5) (positive : 0 < v (ov + 1)) {V W : Nat}
    (divisor : windowValue 65536 v (ov + 1) n = V)
    (dividend : windowValue 65536 u p (n + 1) = W) (bound : W < V * 65536)
    : ∃ u', divisionStep v ov n u q p r = some (u', Function.update q r (W / V))
      ∧ (∀ i ≤ n, u' (p + i) < 65536)
      ∧ (∀ i, i < p ∨ p + n < i → u' i = u i)
      ∧ windowValue 65536 u' p (n + 1) = W % V := by
  subst divisor dividend
  have first := first_le hv (by omega) bound
  obtain ⟨qhat, estimate, estimates⟩ := calculateQhat_spec (hv 0 (by omega)) positive
    (hv 1 (by omega)) (hu 1 (by omega)) (hu 2 two) first
  obtain ⟨low, high⟩ := estimates.near hv hu two positive bound
  have behind (i : Nat) (inside : i < n) : u (p + 1 + i) < 65536 := by
    rw [Nat.add_assoc]
    exact hu (1 + i) (by omega)
  obtain ⟨u₁, t, subtract, ht, small₁, frame₁, value₁⟩ :=
    multiplySubtract_spec (t := 0) hv behind estimates.small (by decide) inv inu
  have digit := hu 0 (by omega)
  rw [Nat.add_zero] at digit
  rw [divisionStep, Space.get_eq (by omega), Space.get_eq (by omega), Space.get_eq (by omega),
    Space.get_eq (by omega), Space.get_eq (by omega)]
  simp only [Option.bind_eq_bind, Option.bind_some, estimate, subtract]
  have same := frame₁ p (Or.inl (Nat.le_refl p))
  obtain ⟨u', run, small, frame, value⟩ := storeDigit_spec (q := q) (r := r) hv small₁
    (by rwa [same]) ht inv inu inq estimates.small rfl
    (W := windowValue 65536 u p (n + 1))
    (by
      rw [same, windowValue_cons]
      omega)
    low high
  refine ⟨u', run, small, fun i outside => ?_, value⟩
  rw [frame i outside, frame₁ i (by omega)]

end

-----------------------------------------------------------------------------------------
-- Shifts
-----------------------------------------------------------------------------------------

section

variable {a : Space} {p sh d : Nat}

theorem power_split (inside : sh ≤ 16) : 2 ^ (16 - sh) * 2 ^ sh = 65536 := by
  rw [← Nat.pow_add, Nat.sub_add_cancel inside]

/-- A digit shifted to the left next to the bits that the digit behind it loses. -/
theorem shifted_digit {x y : Nat} (hy : y < 65536) (inside : sh ≤ 16)
    : lhalf (x <<< sh) ||| y >>> (16 - sh) = x * 2 ^ sh % 65536 + y / 2 ^ (16 - sh)
      ∧ x * 2 ^ sh % 65536 + y / 2 ^ (16 - sh) < 65536 := by
  have split := power_split inside
  have less : y / 2 ^ (16 - sh) < 2 ^ sh := by
    rw [Nat.div_lt_iff_lt_mul (Nat.two_pow_pos _), Nat.mul_comm, split]
    exact hy
  have high : x * 2 ^ sh % 65536 = x % 2 ^ (16 - sh) * 2 ^ sh := by
    rw [← split, Nat.mul_mod_mul_right]
  have bound := Nat.mul_le_mul_right (2 ^ sh) (Nat.mod_lt x (Nat.two_pow_pos (16 - sh)))
  rw [lhalf_eq, Nat.shiftLeft_eq, Nat.shiftRight_eq_div_pow, high]
  constructor
  · rw [← Nat.shiftLeft_eq, ← Nat.shiftLeft_add_eq_or_of_lt less]
  · rw [split, Nat.succ_mul] at bound
    omega

theorem shifted_eq (x : Nat) (inside : sh ≤ 16)
    : x / 2 ^ (16 - sh) * 65536 + x * 2 ^ sh % 65536 = x * 2 ^ sh := by
  have quotient : x * 2 ^ sh / 65536 = x / 2 ^ (16 - sh) := by
    rw [← power_split inside, Nat.mul_div_mul_right _ _ (Nat.two_pow_pos sh)]
  rw [← quotient, Nat.mul_comm, Nat.div_add_mod]

theorem shiftLeft_fits {x : Nat} (hx : x < 65536) (inside : sh ≤ 16) : x <<< sh < 2 ^ 32 := by
  rw [Nat.shiftLeft_eq]
  calc
    x * 2 ^ sh < 65536 * 2 ^ sh := Nat.mul_lt_mul_of_pos_right hx (Nat.two_pow_pos sh)
    _ ≤ 65536 * 2 ^ 16 := Nat.mul_le_mul_left _ (Nat.pow_le_pow_right (by decide) inside)
    _ = 2 ^ 32 := by decide

theorem shiftDigit_eq {i : Nat} (hx : a (p + i) < 65536) (hy : a (p + i + 1) < 65536)
    (inside : sh ≤ 16) (fits : p + i + 1 < 5)
    : shiftDigit p sh a i
      = some (Function.update a (p + i)
          (a (p + i) * 2 ^ sh % 65536 + a (p + i + 1) / 2 ^ (16 - sh))) := by
  obtain ⟨digit, less⟩ := shifted_digit (x := a (p + i)) hy inside
  rw [shiftDigit, Space.get_eq (by omega), Option.bind_eq_bind, Option.bind_some,
    uint_eq (shiftLeft_fits hx inside), Option.bind_some, Space.get_eq fits, Option.bind_some,
    digit, Space.set_eq (by omega) less]

/-- The loop of `shl` leaves the digits before the last one shifted. -/
theorem shl_loop {len : Nat} (small : ∀ i ≤ len, a (p + i) < 65536) (inside : sh ≤ 16)
    (fits : p + len < 5)
    : ∃ a', (List.range len).foldlM (shiftDigit p sh) a = some a'
      ∧ (∀ i < len, a' (p + i) < 65536)
      ∧ (∀ i, i < p ∨ p + len ≤ i → a' i = a i)
      ∧ windowValue 65536 a' p len + a p / 2 ^ (16 - sh) * 65536 ^ len
        = windowValue 65536 a p len * 2 ^ sh + a (p + len) / 2 ^ (16 - sh) := by
  induction len with
  | zero => exact ⟨a, rfl, by simp, fun _ _ => rfl, by simp [windowValue]⟩
  | succ len ih =>
      obtain ⟨a', run, small', frame, value⟩ := ih (fun i low => small i (by omega)) (by omega)
      have this := frame (p + len) (by omega)
      have next := frame (p + len + 1) (by omega)
      have whole := shifted_eq (a (p + len)) inside
      have hy := small (len + 1) (by omega)
      rw [← Nat.add_assoc] at hy
      have less := (shifted_digit (x := a (p + len)) hy inside).2
      have others (i : Nat) (other : i ≠ p + len) (x : Nat)
          : Function.update a' (p + len) x i = a' i := Function.update_of_ne other _ _
      rw [List.range_succ, List.foldlM_append, run, Option.bind_eq_bind, Option.bind_some,
        List.foldlM_cons, shiftDigit_eq (by rw [this]; exact small len (by omega))
          (by rwa [next]) inside (by omega), this, next, Option.bind_eq_bind, Option.bind_some,
        List.foldlM_nil, ← Nat.add_assoc]
      refine ⟨_, rfl, fun i low => ?_, fun i outside => ?_, ?_⟩
      · rcases Nat.lt_succ_iff_lt_or_eq.mp low with earlier | rfl
        · rw [others _ (by omega)]
          exact small' i earlier
        · rwa [Function.update_self]
      · rw [others i (by omega), frame i (by omega)]
      · rw [windowValue, windowValue, Function.update_self, windowValue_congr fun i low =>
          others (p + i) (by omega) _, Nat.pow_succ]
        generalize a (p + len + 1) / 2 ^ (16 - sh) = low
        calc
          _ = (windowValue 65536 a' p len + a p / 2 ^ (16 - sh) * 65536 ^ len) * 65536
              + a (p + len) * 2 ^ sh % 65536 + low := by ring
          _ = windowValue 65536 a p len * 2 ^ sh * 65536
              + (a (p + len) / 2 ^ (16 - sh) * 65536 + a (p + len) * 2 ^ sh % 65536) + low := by
            rw [value]
            ring
          _ = _ := by
            rw [whole]
            ring

/-- `shl` multiplies a number whose first digit has room for the bits that move up. -/
theorem shl_spec {len : Nat} (small : ∀ i ≤ len, a (p + i) < 65536) (inside : sh ≤ 16)
    (fits : p + len < 5) (room : a p / 2 ^ (16 - sh) = 0)
    : ∃ a', shl a p len sh = some a'
      ∧ (∀ i ≤ len, a' (p + i) < 65536)
      ∧ (∀ i, i < p ∨ p + len < i → a' i = a i)
      ∧ windowValue 65536 a' p (len + 1) = windowValue 65536 a p (len + 1) * 2 ^ sh := by
  obtain ⟨a', run, small', frame, value⟩ := shl_loop small inside fits
  have this := frame (p + len) (by omega)
  have digit := lhalf_lt (a (p + len) <<< sh)
  have whole := shifted_eq (a (p + len)) inside
  have others (i : Nat) (other : i ≠ p + len) (x : Nat)
      : Function.update a' (p + len) x i = a' i := Function.update_of_ne other _ _
  rw [shl, run, Option.bind_eq_bind, Option.bind_some, Space.get_eq fits, Option.bind_eq_bind,
    Option.bind_some, this, uint_eq (shiftLeft_fits (small len (Nat.le_refl _)) inside), Option.bind_some,
    Space.set_eq fits digit]
  refine ⟨_, rfl, fun i low => ?_, fun i outside => ?_, ?_⟩
  · rcases Nat.lt_or_eq_of_le low with earlier | rfl
    · rw [others _ (by omega)]
      exact small' i earlier
    · rwa [Function.update_self]
  · rw [others i (by omega), frame i (by omega)]
  · rw [room, Nat.zero_mul, Nat.add_zero] at value
    rw [windowValue, windowValue, Function.update_self, windowValue_congr fun i low =>
      others (p + i) (by omega) _, value, lhalf_eq, Nat.shiftLeft_eq]
    calc
      _ = windowValue 65536 a p len * 2 ^ sh * 65536
          + (a (p + len) / 2 ^ (16 - sh) * 65536 + a (p + len) * 2 ^ sh % 65536) := by ring
      _ = _ := by
        rw [whole]
        ring

/-- A digit shifted to the right next to the bits that the digit before it loses. -/
theorem lowered_digit {x y : Nat} (hx : x < 65536) (inside : d ≤ 16)
    : x >>> d ||| lhalf (y <<< (16 - d)) = y % 2 ^ d * 2 ^ (16 - d) + x / 2 ^ d
      ∧ y % 2 ^ d * 2 ^ (16 - d) + x / 2 ^ d < 65536 := by
  have back : 16 - (16 - d) = d := Nat.sub_sub_self inside
  obtain ⟨digit, less⟩ := @shifted_digit (16 - d) y x hx (Nat.sub_le 16 d)
  have split := power_split inside
  have high : y * 2 ^ (16 - d) % 65536 = y % 2 ^ d * 2 ^ (16 - d) := by
    rw [← split, Nat.mul_comm (2 ^ (16 - d)), Nat.mul_mod_mul_right]
  rw [back, high] at digit less
  exact ⟨by rw [Nat.lor_comm, digit], less⟩

/-- D8 divides the digits behind `p` by the power of two, where the last bits are lost. -/
theorem shiftBack_spec {k : Nat} (small : ∀ i ≤ k, a (p + i) < 65536) (inside : d ≤ 16)
    (fits : p + k < 5)
    : ∃ a', shiftBack d p k a = some a'
      ∧ (∀ i < k, a' (p + 1 + i) < 65536)
      ∧ (∀ i, i ≤ p ∨ p + k < i → a' i = a i)
      ∧ 2 ^ d * (windowValue 65536 a' (p + 1) k + a p / 2 ^ d * 65536 ^ k) + a (p + k) % 2 ^ d
        = windowValue 65536 a p (k + 1) := by
  induction k generalizing a with
  | zero =>
      refine ⟨a, rfl, by simp, fun _ _ => rfl, ?_⟩
      simp only [windowValue, Nat.add_zero, Nat.pow_zero, Nat.mul_one, Nat.zero_add, Nat.zero_mul]
      exact Nat.div_add_mod _ _
  | succ k ih =>
      have hx := small (k + 1) (Nat.le_refl _)
      have hy := small k (by omega)
      obtain ⟨digit, less⟩ := lowered_digit (y := a (p + k)) hx inside
      have others (i : Nat) (other : i ≠ p + (k + 1)) (x : Nat)
          : Function.update a (p + (k + 1)) x i = a i := Function.update_of_ne other _ _
      obtain ⟨a', run, small', frame, value⟩ := ih
        (a := Function.update a (p + (k + 1))
          (a (p + k) % 2 ^ d * 2 ^ (16 - d) + a (p + (k + 1)) / 2 ^ d))
        (fun i low => by rw [others _ (by omega)]; exact small i (by omega)) (by omega)
      rw [shiftBack, Space.get_eq (by omega), Option.bind_eq_bind, Option.bind_some,
        Space.get_eq (by omega), Option.bind_eq_bind, Option.bind_some,
        uint_eq (shiftLeft_fits hy (Nat.sub_le 16 d)), Option.bind_some, digit,
        Space.set_eq fits less, Option.bind_some, run]
      have last : a' (p + (k + 1)) = a (p + k) % 2 ^ d * 2 ^ (16 - d) + a (p + (k + 1)) / 2 ^ d := by
        rw [frame _ (by omega), Function.update_self]
      refine ⟨a', rfl, fun i low => ?_, fun i outside => ?_, ?_⟩
      · rcases Nat.lt_succ_iff_lt_or_eq.mp low with earlier | rfl
        · exact small' i earlier
        · rwa [show p + 1 + i = p + (i + 1) by omega, last]
      · rw [frame i (by omega), others i (by omega)]
      · rw [others p (by omega), others (p + k) (by omega), windowValue_congr fun i low =>
          others (p + i) (by omega) _] at value
        have split := power_split inside
        have bits := Nat.div_add_mod (a (p + (k + 1))) (2 ^ d)
        rw [windowValue, windowValue, show p + 1 + k = p + (k + 1) by omega, last, ← value,
          Nat.pow_succ]
        generalize a (p + (k + 1)) = x at *
        calc
          _ = 2 ^ d * (windowValue 65536 a' (p + 1) k + a p / 2 ^ d * 65536 ^ k) * 65536
              + 2 ^ (16 - d) * 2 ^ d * (a (p + k) % 2 ^ d) + (2 ^ d * (x / 2 ^ d) + x % 2 ^ d) := by
            ring
          _ = _ := by
            rw [split, bits]
            ring

end

-----------------------------------------------------------------------------------------
-- The digits of the numbers
-----------------------------------------------------------------------------------------

theorem breakUp_small (junk : Space) {x : Nat} (hx : x < 2 ^ 64)
    : ∀ i < 4, breakUp junk x (1 + i) < 65536 := by
  intro i inside
  have high : hhalf (x >>> 32) < 65536 := by
    rw [hhalf_eq, Nat.shiftRight_eq_div_pow]
    omega
  have low : hhalf (x % 2 ^ 32) < 65536 := by
    rw [hhalf_eq]
    omega
  match i with
  | 0 => exact high
  | 1 => exact lhalf_lt _
  | 2 => exact low
  | 3 => exact lhalf_lt _

theorem breakUp_value (junk : Space) (x : Nat)
    : windowValue 65536 (breakUp junk x) 1 4 = x := by
  have digits : windowValue 65536 (breakUp junk x) 1 4
      = (((0 * 65536 + hhalf (x >>> 32)) * 65536 + lhalf (x >>> 32)) * 65536 + hhalf (x % 2 ^ 32))
        * 65536 + lhalf (x % 2 ^ 32) := rfl
  rw [digits, hhalf_eq, hhalf_eq, lhalf_eq, lhalf_eq, Nat.shiftRight_eq_div_pow]
  omega

theorem assemble_eq {a1 a2 a3 a4 : Nat} (h1 : a1 < 65536) (h2 : a2 < 65536) (h3 : a3 < 65536)
    (h4 : a4 < 65536)
    : assemble a1 a2 a3 a4 = some (((a1 * 65536 + a2) * 65536 + a3) * 65536 + a4) := by
  rw [assemble, combine_eq h1 h2, combine_eq h3 h4]
  simp only [Option.bind_eq_bind, Option.bind_some, Option.pure_def, Option.some.injEq]
  omega

theorem windowValue_four (a : Space)
    : windowValue 65536 a 1 4 = ((a 1 * 65536 + a 2) * 65536 + a 3) * 65536 + a 4 := by
  simp [windowValue]

/-- The divisor has one digit, or its digits from the first that is not zero on. -/
theorem divisorDigits_spec {v : Space}
    : ∃ n ov, divisorDigits v 4 0 = some (n, ov)
      ∧ (n = 1 ∧ ov = 2 ∧ windowValue 65536 v 1 4 = v 4
        ∨ 2 ≤ n ∧ n + ov = 4 ∧ 0 < v (ov + 1)
          ∧ windowValue 65536 v 1 4 = windowValue 65536 v (ov + 1) n) := by
  by_cases h1 : v 1 = 0
  case neg => exact ⟨4, 0, by simp [divisorDigits, Space.get, h1], Or.inr ⟨by decide, rfl,
    Nat.pos_of_ne_zero h1, rfl⟩⟩
  by_cases h2 : v 2 = 0
  case neg => exact ⟨3, 1, by simp [divisorDigits, Space.get, h1, h2], Or.inr ⟨by decide, rfl,
    Nat.pos_of_ne_zero h2, by simp [windowValue, h1]⟩⟩
  by_cases h3 : v 3 = 0
  case neg => exact ⟨2, 2, by simp [divisorDigits, Space.get, h1, h2, h3], Or.inr ⟨by decide, rfl,
    Nat.pos_of_ne_zero h3, by simp [windowValue, h1, h2]⟩⟩
  exact ⟨1, 2, by simp [divisorDigits, Space.get, h1, h2, h3], Or.inl ⟨rfl, rfl, by
    simp [windowValue, h1, h2, h3]⟩⟩

/-- Digits are skipped while they are zero and digits of the quotient are left. -/
theorem dividendDigits_spec {u : Space} {m ou : Nat} (fits : ou + m + 1 < 5)
    (found : ∃ i ≤ m, u (ou + 1 + i) ≠ 0)
    : ∃ m' ou', dividendDigits u m ou = some (m', ou')
      ∧ m' + ou' = m + ou
      ∧ (∀ i, ou < i → i ≤ ou' → u i = 0) := by
  induction m generalizing ou with
  | zero =>
      obtain ⟨i, low, digit⟩ := found
      obtain rfl := Nat.le_zero.mp low
      rw [dividendDigits, Space.get_eq (by omega), Option.bind_eq_bind, Option.bind_some,
        if_neg digit]
      exact ⟨0, ou, rfl, rfl, fun i above below => by omega⟩
  | succ m ih =>
      rw [dividendDigits, Space.get_eq (by omega), Option.bind_eq_bind, Option.bind_some]
      split
      case isTrue zero =>
        obtain ⟨i, low, digit⟩ := found
        obtain ⟨k, rfl⟩ : ∃ k, i = k + 1 := by
          refine Nat.exists_eq_succ_of_ne_zero ?_
          rintro rfl
          exact digit zero
        have later : ∃ i ≤ m, u (ou + 1 + 1 + i) ≠ 0 :=
          ⟨k, by omega, by rwa [show ou + 1 + 1 + k = ou + 1 + (k + 1) by omega]⟩
        obtain ⟨m', ou', run, sum, skipped⟩ := ih (by omega) later
        refine ⟨m', ou', run, by omega, fun i above below => ?_⟩
        rcases Nat.lt_or_eq_of_le above with later | rfl
        · exact skipped i later below
        · exact zero
      case isFalse digit => exact ⟨m + 1, ou, rfl, rfl, fun i above below => by omega⟩

/-- The divisor is shifted until its first digit is at least half of the base. -/
theorem normalizing_spec {fuel k t : Nat} (enough : k < fuel) (ht : t < 65536)
    (large : 32768 ≤ t * 2 ^ k)
    : ∃ d ≤ k, normalizing fuel t = some d ∧ 32768 ≤ t * 2 ^ d ∧ t * 2 ^ d < 65536 := by
  induction fuel generalizing k t with
  | zero => exact absurd enough (Nat.not_lt_zero k)
  | succ fuel ih =>
      rw [normalizing, show base / 2 = 32768 from rfl]
      split
      case isTrue less =>
        obtain ⟨k, rfl⟩ : ∃ j, k = j + 1 := by
          refine Nat.exists_eq_succ_of_ne_zero ?_
          rintro rfl
          omega
        have twice : t <<< 1 = t * 2 := by rw [Nat.shiftLeft_eq, Nat.pow_one]
        rw [Nat.pow_succ', ← Nat.mul_assoc] at large
        obtain ⟨d, low, run, least, most⟩ := ih (t := t * 2) (by omega) (by omega) large
        refine ⟨d + 1, by omega, ?_, ?_, ?_⟩
        · rw [twice, uint_eq (by omega), Option.bind_eq_bind, Option.bind_some, run]
          rfl
        · rwa [Nat.pow_succ', ← Nat.mul_assoc]
        · rwa [Nat.pow_succ', ← Nat.mul_assoc]
      case isFalse more => exact ⟨0, Nat.zero_le k, rfl, by omega, by omega⟩

/-- The first digits of the quotient are zero. -/
theorem zeroDigits_eq {junk : Space} {k : Nat} (fits : k ≤ 5)
    : (List.range k).foldlM (fun q i => Space.set q i 0) junk
      = some (fun i => if i < k then 0 else junk i) := by
  induction k with
  | zero => simp
  | succ k ih =>
      rw [List.range_succ, List.foldlM_append, ih (by omega), Option.bind_eq_bind, Option.bind_some,
        List.foldlM_cons, Space.set_eq (by omega) (by decide), Option.bind_eq_bind,
        Option.bind_some, List.foldlM_nil]
      congr 1
      funext i
      by_cases last : i = k
      · subst last
        simp
      · rw [Function.update_of_ne last]
        exact if_congr (by omega) rfl rfl

/-- One digit of the division by a single digit -/
theorem short_digit {r x t : Nat} (hx : x < 65536) (less : r < t)
    : ∃ a b, (r * 65536 + x) / t = a ∧ (r * 65536 + x) % t = b ∧ a < 65536 ∧ b < t
      ∧ t * a + b = r * 65536 + x := by
  refine ⟨_, _, rfl, rfl, ?_, Nat.mod_lt _ (by omega), Nat.div_add_mod _ _⟩
  rw [Nat.div_lt_iff_lt_mul (by omega)]
  have := Nat.mul_le_mul_right 65536 (Nat.succ_le_of_lt less)
  rw [Nat.succ_mul] at this
  omega

theorem shortDivision_spec {u : Space} {t : Nat} (small : ∀ i < 4, u (1 + i) < 65536)
    (positive : 0 < t) (ht : t < 65536)
    : shortDivision u t
      = some (windowValue 65536 u 1 4 / t, windowValue 65536 u 1 4 % t) := by
  obtain ⟨a1, b1, d1, m1, q1, r1, e1⟩ := short_digit (show u 1 < 65536 from small 0 (by decide))
    positive
  obtain ⟨a2, b2, d2, m2, q2, r2, e2⟩ := short_digit (show u 2 < 65536 from small 1 (by decide)) r1
  obtain ⟨a3, b3, d3, m3, q3, r3, e3⟩ := short_digit (show u 3 < 65536 from small 2 (by decide)) r2
  obtain ⟨a4, b4, d4, m4, q4, r4, e4⟩ := short_digit (show u 4 < 65536 from small 3 (by decide)) r3
  rw [Nat.zero_mul, Nat.zero_add] at d1 m1 e1
  have value : b4 + t * (((a1 * 65536 + a2) * 65536 + a3) * 65536 + a4)
      = windowValue 65536 u 1 4 := by
    calc
      _ = (t * a1 * 65536 * 65536 + t * a2 * 65536 + t * a3) * 65536 + (t * a4 + b4) := by ring
      _ = (t * a1 * 65536 * 65536 + t * a2 * 65536 + (t * a3 + b3)) * 65536 + u 4 := by
        rw [e4]
        ring
      _ = ((t * a1 * 65536 + (t * a2 + b2)) * 65536 + u 3) * 65536 + u 4 := by
        rw [e3]
        ring
      _ = (((t * a1 + b1) * 65536 + u 2) * 65536 + u 3) * 65536 + u 4 := by
        rw [e2]
        ring
      _ = _ := by rw [e1, windowValue_four]
  obtain ⟨quotient, remainder⟩ := (Nat.div_mod_unique positive).mpr ⟨value, r4⟩
  rw [shortDivision, Space.get_eq (by decide), Space.get_eq (by decide), Space.get_eq (by decide),
    Space.get_eq (by decide), quotient, remainder]
  simp only [Option.bind_eq_bind, Option.bind_some]
  rw [if_neg (by omega), d1, m1, digit_eq q1, Option.bind_some,
    combine_eq (r1.trans ht) (small 1 (by decide)), Option.bind_some, d2, m2, digit_eq q2,
    Option.bind_some, combine_eq (r2.trans ht) (small 2 (by decide)), Option.bind_some, d3, m3,
    digit_eq q3, Option.bind_some, combine_eq (r3.trans ht) (small 3 (by decide)),
    Option.bind_some, d4, m4, digit_eq q4, Option.bind_some, assemble_eq q1 q2 q3 q4]
  rfl

-----------------------------------------------------------------------------------------
-- All digits of the quotient
-----------------------------------------------------------------------------------------

/-- What holds after `j` digits of the quotient of the digits `u₀` from `ou` on by `V`. -/
structure Divided (u₀ : Space) (ou oq n V j : Nat) (u q : Space) : Prop where
  small : ∀ i < 5, u i < 65536
  behind : ∀ i, ou + n + j ≤ i → u i = u₀ i
  before : ∀ i < ou + j, u i = 0
  quotientSmall : ∀ i < oq + j, q i < 65536
  quotientBefore : ∀ i < oq, q i = 0
  less : windowValue 65536 u (ou + j) n < V
  value :
    windowValue 65536 q oq j * V + windowValue 65536 u (ou + j) n
      = windowValue 65536 u₀ ou (n + j)

section

variable {u₀ v : Space} {ou oq ov n V j : Nat} {u q : Space}

theorem Divided.step (hv : ∀ i < n, v (ov + 1 + i) < 65536) (two : 2 ≤ n) (inv : ov + n < 5)
    (positive : 0 < v (ov + 1)) (divisor : windowValue 65536 v (ov + 1) n = V)
    (inu : ou + j + n < 5) (inq : oq + j < 5) (h : Divided u₀ ou oq n V j u q)
    : ∃ u' q', divisionPass v ov n ou oq (u, q) j = some (u', q')
      ∧ Divided u₀ ou oq n V (j + 1) u' q' := by
  obtain ⟨small, behind, before, quotientSmall, quotientBefore, less, value⟩ := h
  have window : windowValue 65536 u (ou + j) (n + 1)
      = windowValue 65536 u (ou + j) n * 65536 + u₀ (ou + n + j) := by
    rw [windowValue, show ou + j + n = ou + n + j by omega, behind _ (Nat.le_refl _)]
  have digit : u₀ (ou + n + j) < 65536 := by
    rw [← behind _ (Nat.le_refl _)]
    exact small _ (by omega)
  have bound : windowValue 65536 u (ou + j) (n + 1) < V * 65536 := by
    have := Nat.mul_le_mul_right 65536 (Nat.succ_le_of_lt less)
    rw [Nat.succ_mul] at this
    omega
  have Vbound : V < 65536 ^ n := by
    rw [← divisor]
    exact windowValue_lt hv
  obtain ⟨u', run, small', frame, value'⟩ := divisionStep_spec (q := q) (r := oq + j) hv
    (fun i low => small _ (by omega)) two inv inu inq positive divisor rfl bound
  generalize windowValue 65536 u (ou + j) (n + 1) = W at *
  have remainder := Nat.mod_lt W (Nat.zero_lt_of_lt less)
  have quotient : W / V < 65536 := by
    rw [Nat.div_lt_iff_lt_mul (Nat.zero_lt_of_lt less), Nat.mul_comm]
    exact bound
  have zero : u' (ou + j) = 0 := by
    by_contra other
    rw [windowValue_cons] at value'
    have := Nat.mul_le_mul_right (65536 ^ n) (Nat.one_le_iff_ne_zero.mpr other)
    omega
  rw [windowValue_cons, zero, Nat.zero_mul, Nat.zero_add] at value'
  have others (i : Nat) (other : i ≠ oq + j) : Function.update q (oq + j) (W / V) i = q i :=
    Function.update_of_ne other _ _
  refine ⟨_, _, run, fun i inside => ?_, fun i later => ?_, fun i earlier => ?_, fun i earlier => ?_,
    fun i earlier => ?_, ?_, ?_⟩
  · by_cases inWindow : ou + j ≤ i ∧ i ≤ ou + j + n
    · have := small' (i - (ou + j)) (by omega)
      rwa [Nat.add_sub_cancel' inWindow.1] at this
    · rw [frame i (by omega)]
      exact small i inside
  · rw [frame i (by omega)]
    exact behind i (by omega)
  · rcases Nat.lt_or_eq_of_le (show i ≤ ou + j by omega) with earlier | rfl
    · rw [frame i (Or.inl earlier)]
      exact before i earlier
    · exact zero
  · by_cases last : i = oq + j
    · rw [last, Function.update_self]
      exact quotient
    · rw [others i last]
      exact quotientSmall i (by omega)
  · rw [others i (by omega)]
    exact quotientBefore i earlier
  · rw [← Nat.add_assoc, value']
    exact remainder
  · rw [windowValue, Function.update_self, windowValue_congr fun i low => others (oq + i) (by omega),
      ← Nat.add_assoc, value', ← Nat.add_assoc, windowValue, ← value, ← Nat.add_assoc]
    calc
      _ = windowValue 65536 q oq j * V * 65536 + (V * (W / V) + W % V) := by ring
      _ = _ := by
        rw [Nat.div_add_mod, window]
        ring

theorem Divided.run (hv : ∀ i < n, v (ov + 1 + i) < 65536) (two : 2 ≤ n) (inv : ov + n < 5)
    (positive : 0 < v (ov + 1)) (divisor : windowValue 65536 v (ov + 1) n = V)
    (h : Divided u₀ ou oq n V 0 u q) (inu : ou + j + n ≤ 5) (inq : oq + j ≤ 5)
    : ∃ u' q', (List.range j).foldlM (divisionPass v ov n ou oq) (u, q) = some (u', q')
      ∧ Divided u₀ ou oq n V j u' q' := by
  induction j with
  | zero => exact ⟨u, q, rfl, h⟩
  | succ j ih =>
      obtain ⟨u', q', run, h'⟩ := ih (by omega) (by omega)
      obtain ⟨u'', q'', pass, h''⟩ := h'.step hv two inv positive divisor (by omega) (by omega)
      refine ⟨u'', q'', ?_, h''⟩
      rw [List.range_succ, List.foldlM_append, run, Option.bind_eq_bind, Option.bind_some,
        List.foldlM_cons, pass]
      rfl

end

section

variable {a u v junk : Space} {p n ov d R : Nat}

theorem shlSome_spec {len : Nat} (small : ∀ i ≤ len, a (p + i) < 65536) (inside : d ≤ 16)
    (fits : p + len < 5) (room : a p / 2 ^ (16 - d) = 0)
    : ∃ a', shlSome a p len d = some a'
      ∧ (∀ i ≤ len, a' (p + i) < 65536)
      ∧ (∀ i, i < p ∨ p + len < i → a' i = a i)
      ∧ windowValue 65536 a' p (len + 1) = windowValue 65536 a p (len + 1) * 2 ^ d := by
  rw [shlSome]
  split
  case isTrue some => exact shl_spec small inside fits room
  case isFalse none =>
    obtain rfl := Nat.eq_zero_of_not_pos none
    exact ⟨a, rfl, small, fun _ _ => rfl, by rw [Nat.pow_zero, Nat.mul_one]⟩

/-- D8 takes the power of two out of a remainder. -/
theorem unnormalize_spec (small : ∀ i ≤ n, a (p + i) < 65536) (inside : d ≤ 16) (fits : p + n < 5)
    (zero : a p = 0) (value : windowValue 65536 a (p + 1) n = R * 2 ^ d)
    : ∃ a', unnormalize a p n d = some a'
      ∧ (∀ i < n, a' (p + 1 + i) < 65536)
      ∧ (∀ i < p, a' i = a i)
      ∧ a' p = 0
      ∧ windowValue 65536 a' (p + 1) n = R := by
  rw [unnormalize]
  split
  case isTrue some =>
    obtain ⟨a', run, small', frame, value'⟩ := shiftBack_spec small inside fits
    have others (i : Nat) (other : i ≠ p) : Function.update a' p 0 i = a' i :=
      Function.update_of_ne other _ _
    rw [run, Option.bind_eq_bind, Option.bind_some, Space.set_eq (by omega) (by decide)]
    refine ⟨_, rfl, fun i low => ?_, fun i earlier => ?_, Function.update_self _ _ _, ?_⟩
    · rw [others _ (by omega)]
      exact small' i low
    · rw [others i (by omega), frame i (by omega)]
    · rw [zero, Nat.zero_div, Nat.zero_mul, Nat.add_zero, windowValue_cons, zero, Nat.zero_mul,
        Nat.zero_add, value, Nat.mul_comm R] at value'
      rw [windowValue_congr fun i low => others (p + 1 + i) (by omega)]
      have bits := congrArg (· / 2 ^ d) value'
      simp only [Nat.mul_add_div (Nat.two_pow_pos d), Nat.mul_div_cancel_left _ (Nat.two_pow_pos d),
        Nat.div_eq_of_lt (Nat.mod_lt _ (Nat.two_pow_pos d)), Nat.add_zero] at bits
      exact bits
  case isFalse none =>
    obtain rfl := Nat.eq_zero_of_not_pos none
    refine ⟨a, rfl, fun i low => ?_, fun _ _ => rfl, zero, ?_⟩
    · rw [Nat.add_assoc]
      exact small (1 + i) (by omega)
    · rw [value, Nat.pow_zero, Nat.mul_one]

/-- A dividend that is not less than a divisor of `n` digits has a digit to start with. -/
theorem dividend_starts {V : Nat} (hu : ∀ i < 5, u i < 65536) (two : 2 ≤ n) (four : n ≤ 4)
    (large : 65536 ^ (n - 1) ≤ V) (enough : V ≤ windowValue 65536 u 1 4)
    : ∃ i ≤ 4 - n, u (0 + 1 + i) ≠ 0 := by
  by_contra none
  push Not at none
  have split := windowValue_append 65536 u 1 (4 - n + 1) (n - 1)
  rw [show 4 - n + 1 + (n - 1) = 4 by omega,
    windowValue_zero fun i low => none i (Nat.le_of_lt_succ low), Nat.zero_mul, Nat.zero_add]
    at split
  have less : windowValue 65536 u (1 + (4 - n + 1)) (n - 1) < 65536 ^ (n - 1) :=
    windowValue_lt fun i low => hu _ (by omega)
  omega

theorem first_positive {k : Nat} (small : ∀ i ≤ k + 1, a (p + i) < 65536)
    (large : 65536 ^ (k + 1) ≤ windowValue 65536 a p (k + 1 + 1))
    : 0 < a p := by
  by_contra zero
  rw [windowValue_cons, Nat.eq_zero_of_not_pos zero, Nat.zero_mul, Nat.zero_add] at large
  refine absurd large (Nat.not_le.mpr (windowValue_lt fun i low => ?_))
  rw [Nat.add_assoc]
  exact small (1 + i) (by omega)

/-- The digits before the first step are less than the divisor, for the first of them only holds
bits that moved up.
-/
theorem start_less {U V m k ou : Nat} {u₀ : Space} (zero : u ou = 0)
    (small : ∀ i ≤ m + (2 + k), u (ou + i) < 65536)
    (dividend : windowValue 65536 u ou (m + (2 + k) + 1) = U)
    (shifted : windowValue 65536 u₀ ou (m + (2 + k) + 1) = U * 2 ^ d)
    (large : 65536 ^ (k + 1) ≤ V)
    : windowValue 65536 u₀ ou (2 + k) < V * 2 ^ d := by
  have bound : U < 65536 ^ (m + (2 + k)) := by
    rw [← dividend, windowValue_cons, zero, Nat.zero_mul, Nat.zero_add]
    refine windowValue_lt fun i low => ?_
    rw [Nat.add_assoc]
    exact small (1 + i) (by omega)
  have split := windowValue_append 65536 u₀ ou (2 + k) (m + 1)
  rw [show 2 + k + (m + 1) = m + (2 + k) + 1 by omega, shifted] at split
  refine Nat.lt_of_mul_lt_mul_right (a := 65536 ^ (m + 1)) ?_
  calc
    windowValue 65536 u₀ ou (2 + k) * 65536 ^ (m + 1) ≤ U * 2 ^ d := by
      rw [split]
      exact Nat.le_add_right _ _
    _ < 65536 ^ (m + (2 + k)) * 2 ^ d := Nat.mul_lt_mul_of_pos_right bound (Nat.two_pow_pos d)
    _ = 65536 ^ (k + 1) * (2 ^ d * 65536 ^ (m + 1)) := by ring
    _ ≤ V * (2 ^ d * 65536 ^ (m + 1)) := Nat.mul_le_mul_right _ large
    _ = V * 2 ^ d * 65536 ^ (m + 1) := by ring

/-- Digits behind zeros -/
theorem windowValue_tail {m k : Nat} (sum : m + (2 + k) = 4) (zeros : ∀ i ≤ m, a i = 0)
    : windowValue 65536 a 1 4 = windowValue 65536 a (m + 1) (2 + k) := by
  rw [← sum, windowValue_append, windowValue_zero fun i low => zeros (1 + i) (by omega),
    Nat.zero_mul, Nat.zero_add, Nat.add_comm 1]

theorem assembleDigits_eq (small : ∀ i < 5, a i < 65536)
    : assembleDigits a = some (windowValue 65536 a 1 4) := by
  rw [assembleDigits, Space.get_eq (by decide), Space.get_eq (by decide), Space.get_eq (by decide),
    Space.get_eq (by decide), windowValue_four]
  simp only [Option.bind_eq_bind, Option.bind_some]
  exact assemble_eq (small 1 (by decide)) (small 2 (by decide)) (small 3 (by decide))
    (small 4 (by decide))

theorem storeRemainder_some (arq : Bool) (r : Nat)
    : storeRemainder arq (some r) = some (if arq then some r else none) := by
  cases arq <;> rfl

/-- Program D divides. -/
theorem longDivision_spec {U V : Nat} (hu : ∀ i < 5, u i < 65536) (hu0 : u 0 = 0)
    (hv : ∀ i < 4, v (1 + i) < 65536) (two : 2 ≤ n) (sum : n + ov = 4) (first : 0 < v (ov + 1))
    (divisor : windowValue 65536 v (ov + 1) n = V) (dividend : windowValue 65536 u 1 4 = U)
    (enough : V ≤ U) (arq : Bool)
    : longDivision junk u v n ov arq = some (U / V, if arq then some (U % V) else none) := by
  have vsmall (i : Nat) (low : i < n) : v (ov + 1 + i) < 65536 := by
    rw [show ov + 1 + i = 1 + (ov + i) by omega]
    exact hv _ (by omega)
  obtain ⟨k, rfl⟩ := Nat.exists_eq_add_of_le two
  have large : 65536 ^ (k + 1) ≤ V := by
    rw [← divisor, show 2 + k = k + 1 + 1 by omega, windowValue_cons]
    have := Nat.mul_le_mul_right (65536 ^ (k + 1)) first
    omega
  obtain ⟨m, ou, starts, left, skipped⟩ := @dividendDigits_spec u (4 - (2 + k)) 0
    (by omega) (dividend_starts (V := V) hu two (by omega) (by
      rw [show 2 + k - 1 = k + 1 by omega]
      exact large) (by rwa [dividend]))
  have zeros (i : Nat) (early : i ≤ ou) : u i = 0 := by
    rcases Nat.eq_zero_or_pos i with rfl | later
    · exact hu0
    · exact skipped i later early
  have whole : windowValue 65536 u ou (m + (2 + k) + 1) = U := by
    have all := windowValue_cons 65536 u 0 4
    have split := windowValue_append 65536 u 0 ou (m + (2 + k) + 1)
    have front : windowValue 65536 u 0 ou = 0 := windowValue_zero fun i low => zeros _ (by omega)
    rw [front, Nat.zero_mul, Nat.zero_add, Nat.zero_add,
      show ou + (m + (2 + k) + 1) = 4 + 1 by omega, all, hu0, Nat.zero_mul, Nat.zero_add,
      dividend] at split
    exact split.symm
  obtain ⟨d, low, normal, -, most⟩ := normalizing_spec (t := v (ov + 1)) (k := 15)
    (Nat.lt_succ_self 15) (vsmall 0 (by omega)) (by omega)
  have room : v (ov + 1) / 2 ^ (16 - d) = 0 := by
    refine Nat.div_eq_of_lt (Nat.lt_of_mul_lt_mul_right (a := 2 ^ d) ?_)
    rw [power_split (by omega)]
    exact most
  obtain ⟨u₀, shiftU, smallU, frameU, valueU⟩ := @shlSome_spec u ou d (m + (2 + k))
    (fun i inside => hu _ (by omega)) (by omega) (by omega)
    (by rw [zeros ou (Nat.le_refl _), Nat.zero_div])
  obtain ⟨v₀, shiftV, smallV, -, valueV⟩ := @shlSome_spec v (ov + 1) d (k + 1)
    (fun i inside => vsmall i (by omega)) (by omega) (by omega) room
  rw [whole] at valueU
  rw [show k + 1 + 1 = 2 + k by omega, divisor] at valueV
  have smallV' (i : Nat) (inside : i < 2 + k) : v₀ (ov + 1 + i) < 65536 := smallV i (by omega)
  have positive : 0 < v₀ (ov + 1) := by
    refine first_positive smallV ?_
    rw [show k + 1 + 1 = 2 + k by omega, valueV]
    exact large.trans (Nat.le_mul_of_pos_right V (Nat.two_pow_pos d))
  have zeros₀ (i : Nat) (early : i < ou) : u₀ i = 0 := by
    rw [frameU i (Or.inl early)]
    exact zeros i early.le
  have start : Divided u₀ ou (4 - m) (2 + k) (V * 2 ^ d) 0 u₀
      (fun i => if i < 4 - m then 0 else junk i) := {
    small := fun i inside => by
      by_cases early : i < ou
      · rw [zeros₀ i early]
        decide
      · have := smallU (i - ou) (by omega)
        rwa [Nat.add_sub_cancel' (Nat.le_of_not_lt early)] at this
    behind := fun _ _ => rfl
    before := zeros₀
    quotientSmall := fun i early => by
      rw [if_pos (show i < 4 - m from early)]
      decide
    quotientBefore := fun i early => if_pos early
    less := start_less (zeros ou (Nat.le_refl _)) (fun i inside => hu _ (by omega)) whole valueU large
    value := by rw [windowValue, Nat.zero_mul, Nat.zero_add]; rfl }
  obtain ⟨u₁, q, runs, divided⟩ := start.run smallV' two (by omega) positive valueV
    (j := m + 1) (by omega) (by omega)
  have value := divided.value
  rw [show 2 + k + (m + 1) = m + (2 + k) + 1 by omega, valueU, Nat.add_comm, Nat.mul_comm _ (V * _)]
    at value
  obtain ⟨quotient, remainder⟩ := (Nat.div_mod_unique (Nat.zero_lt_of_lt divided.less)).mpr
    ⟨value, divided.less⟩
  rw [Nat.mul_div_mul_right _ _ (Nat.two_pow_pos d)] at quotient
  rw [Nat.mul_mod_mul_right] at remainder
  obtain ⟨u₂, back, small₂, frame₂, zero₂, value₂⟩ := unnormalize_spec (a := u₁) (p := ou + m)
    (n := 2 + k) (d := d) (fun i inside => divided.small _ (by omega)) (by omega) (by omega)
    (divided.before _ (by omega)) remainder.symm
  have zeros₂ (i : Nat) (early : i ≤ ou + m) : u₂ i = 0 := by
    rcases Nat.lt_or_eq_of_le early with earlier | rfl
    · rw [frame₂ i earlier]
      exact divided.before i (by omega)
    · exact zero₂
  have digits₂ (i : Nat) (inside : i < 5) : u₂ i < 65536 := by
    by_cases early : i ≤ ou + m
    · rw [zeros₂ i early]
      decide
    · have := small₂ (i - (ou + m + 1)) (by omega)
      rwa [Nat.add_sub_cancel' (Nat.lt_of_not_le early)] at this
  rw [longDivision, starts, Option.bind_eq_bind, Option.bind_some]
  dsimp only
  rw [zeroDigits_eq (by omega), Option.bind_eq_bind, Option.bind_some, Space.get_eq (by omega),
    Option.bind_eq_bind, Option.bind_some, normal, Option.bind_some, shiftU, Option.bind_some,
    show 2 + k - 1 = k + 1 by omega, shiftV, Option.bind_some, runs, Option.bind_eq_bind,
    Option.bind_some]
  dsimp only
  rw [back, Option.bind_eq_bind, Option.bind_eq_bind, Option.bind_some, assembleDigits_eq digits₂,
    storeRemainder_some, Option.bind_some, assembleDigits_eq fun i inside => divided.quotientSmall i (by omega), Option.bind_some,
    quotient, windowValue_tail (show ou + m + (2 + k) = 4 by omega) zeros₂, value₂]
  have digits := windowValue_append 65536 q 1 (3 - m) (m + 1)
  have front : windowValue 65536 q 1 (3 - m) = 0 :=
    windowValue_zero fun i low => divided.quotientBefore _ (by omega)
  rw [front, Nat.zero_mul, Nat.zero_add, show 3 - m + (m + 1) = 4 by omega,
    show 1 + (3 - m) = 4 - m by omega] at digits
  rw [digits]
  rfl

end

/-- `__qdivrem` gives the quotient and the remainder for all numbers of 64 bits. -/
theorem qdivrem_exact (junk : Space) {uq vq : Nat} (divisor : 0 < vq) (hu : uq < 2 ^ 64)
    (hv : vq < 2 ^ 64) (arq : Bool)
    : qdivrem junk uq vq arq = some (uq / vq, if arq then some (uq % vq) else none) := by
  rw [qdivrem, if_neg (Nat.ne_of_gt divisor)]
  split
  case isTrue less =>
    rw [Nat.div_eq_of_lt less, Nat.mod_eq_of_lt less, storeRemainder_some]
    rfl
  case isFalse enough =>
    have others (i : Nat) (later : 0 < i) : Function.update (breakUp junk uq) 0 0 i
        = breakUp junk uq i := Function.update_of_ne (Nat.ne_of_gt later) _ _
    have dividend : windowValue 65536 (Function.update (breakUp junk uq) 0 0) 1 4 = uq := by
      rw [windowValue_congr fun i _ => others (1 + i) (by omega), breakUp_value junk uq]
    have smallU (i : Nat) (inside : i < 4)
        : Function.update (breakUp junk uq) 0 0 (1 + i) < 65536 := by
      rw [others _ (by omega)]
      exact breakUp_small junk hu i inside
    have smallV := breakUp_small junk hv
    have value := breakUp_value junk vq
    obtain ⟨n, ov, digits, cases⟩ := divisorDigits_spec (v := breakUp junk vq)
    have zero : Function.update (breakUp junk uq) 0 0 0 = 0 := Function.update_self _ _ _
    generalize Function.update (breakUp junk uq) 0 0 = u at *
    generalize breakUp junk vq = v at *
    have smallU' (i : Nat) (inside : i < 5) : u i < 65536 := by
      rcases Nat.eq_zero_or_pos i with rfl | later
      · rw [zero]
        decide
      · have := smallU (i - 1) (by omega)
        rwa [Nat.add_sub_cancel' later] at this
    dsimp only
    rw [digits, Option.bind_eq_bind, Option.bind_some]
    rcases cases with ⟨rfl, rfl, single⟩ | ⟨two, sum, first, tail⟩
    · have last := smallV 3 (by decide)
      rw [value] at single
      rw [if_pos rfl, Space.get_eq (by decide), Option.bind_eq_bind, Option.bind_some,
        shortDivision_spec smallU (show 0 < v 4 by omega) last, Option.bind_eq_bind,
        Option.bind_some, storeRemainder_some, dividend, single]
      rfl
    · rw [if_neg (by omega)]
      exact longDivision_spec smallU' zero smallV two sum first (by rw [← tail, value]) dividend
        (Nat.le_of_not_lt enough) arq

theorem qdivrem_exact_three
    : qdivrem (fun _ => 0) (2 ^ 63 + 5) (2 ^ 40 + 1) true
      = some ((2 ^ 63 + 5) / (2 ^ 40 + 1), some ((2 ^ 63 + 5) % (2 ^ 40 + 1))) :=
  qdivrem_exact _ (by decide) (by decide) (by decide) true

end BSDLibC.Quad
