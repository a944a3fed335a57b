import Mathlib.Algebra.Order.Ring.Nat
import Mathlib.Data.List.Basic
import Mathlib.Tactic.Common

/-! Buffers that are filled from the front. A store outside of a buffer is a fault. -/

namespace BSDLibC.Bytes

/-- The conversion of an unsigned number, such as a length, to an `int`. -/
def toInt (n : Nat) : Int :=
  if n % 0x100000000 < 0x80000000 then n % 0x100000000 else n % 0x100000000 - 0x100000000

/-- `buffer[i] = byte` -/
def store (buffer : List UInt8) (i : Nat) (byte : UInt8) : Option (List UInt8) :=
  if i < buffer.length then some (buffer.set i byte) else none

/-- Stores of several bytes, one after the other. -/
def storeAll (buffer : List UInt8) (i : Nat) : List UInt8 → Option (List UInt8)
  | [] => some buffer
  | byte :: bytes => do storeAll (← store buffer i byte) (i + 1) bytes

/-- A store behind the filled part takes the place of the first free byte. -/
theorem store_append {written rest : List UInt8} {i : Nat} {old : UInt8} (h : i = written.length)
    (byte : UInt8)
    : store (written ++ old :: rest) i byte = some (written ++ byte :: rest) := by
  subst h
  simp [store]

/-- Bytes that fit go behind the filled part. -/
theorem storeAll_append {written rest : List UInt8} {i : Nat} (bytes : List UInt8)
    (h : i = written.length) (fits : bytes.length ≤ rest.length)
    : storeAll (written ++ rest) i bytes = some (written ++ bytes ++ rest.drop bytes.length) := by
  induction bytes generalizing written rest i with
  | nil => simp [storeAll]
  | cons byte bytes ih =>
      obtain _ | ⟨old, rest⟩ := rest
      · simp at fits
      · have more : storeAll ((written ++ [byte]) ++ rest) (i + 1) bytes = _ :=
          ih (by simp [h]) (by simpa using fits)
        rw [storeAll, store_append h]
        simpa using more

/-- A text is what stands before its terminator. -/
theorem takeWhile_text {text : List UInt8} (h : ∀ c ∈ text, c ≠ 0) (rest : List UInt8)
    : (text ++ 0 :: rest).takeWhile (· != 0) = text := by
  rw [List.takeWhile_append_of_pos (by simpa using h)]
  simp

end BSDLibC.Bytes
