import Mathlib.Algebra.Order.Ring.Nat
import Mathlib.Tactic.Common

/-! `hcreate_r` and `hsearch_r`, where `size_t` has 64 bits. A result `none` is an access outside of
the table. What the language leaves undefined, a shift of an `int` by its width or more, is what the
processor does on x86_64: the number of bits is taken modulo 32.
-/

namespace BSDLibC.Hsearch

def MIN_BUCKETS : Nat := 16

def MAX_BUCKETS : Nat := 2 ^ 58

def EOVERFLOW : Int := 84

def ENOMEM : Int := 12

def ESRCH : Int := 3

/-- `ENTRY` -/
structure Entry (δ : Type) where
  key : List UInt8
  data : δ
deriving DecidableEq

/-- `struct hsearch_data`, with the chains of the table. -/
structure HsearchData (δ : Type) where
  table : List (List (Entry δ))
  size : Nat
  filled : Nat

-----------------------------------------------------------------------------------------
-- hcreate_r
-----------------------------------------------------------------------------------------

/-- The value of `reallocarr` for a new array, where `fits` tells for which sizes there is memory. -/
def reallocarr (fits : Nat → Bool) (number size : Nat) : Int :=
  if number = 0 ∨ size = 0 then 0
  else if number > (2 ^ 64 - 1) / size then EOVERFLOW
  else if fits (number * size) then 0
  else ENOMEM

/-- The loop that counts the bits of a number. -/
def countBits : Nat → Nat → Nat
  | 0, _ => 0
  | bound + 1, nel => if nel ≠ 0 then countBits bound (nel / 2) + 1 else 0

/-- `1 << p2` as a `size_t`. -/
def shiftOne (p2 : Nat) : Nat := ((1#32 <<< (p2 % 32)).signExtend 64).toNat

/-- The number of buckets. -/
def buckets (nel : Nat) : Nat :=
  let nel := if nel < MIN_BUCKETS then MIN_BUCKETS else nel
  let nel := if nel > MAX_BUCKETS then MAX_BUCKETS else nel
  if nel &&& (nel - 1) ≠ 0 then shiftOne (countBits 64 nel) else nel

/-- The return value, `errno` and the head. -/
def hcreateR {δ : Type} (fits : Nat → Bool) (nel : Nat) (head : HsearchData δ)
    : Int × Int × HsearchData δ :=
  let nel := buckets nel
  let head := { head with size := nel, filled := 0 }
  let errno := reallocarr fits nel 8
  if errno ≠ 0 then (0, errno, head) else (1, errno, { head with table := List.replicate nel [] })

-----------------------------------------------------------------------------------------
-- hsearch_r
-----------------------------------------------------------------------------------------

/-- `ACTION` -/
inductive Action where
  | find
  | enter
deriving DecidableEq

/-- What a call tells: an entry of the table, that there is none, or that there is no memory for one. -/
inductive Answer (δ : Type) where
  | entry (entry : Entry δ)
  | absent
  | noMemory
deriving DecidableEq

variable {δ : Type} (hash : List UInt8 → UInt32)

/-- The index of the chain for a key. -/
def HsearchData.index (head : HsearchData δ) (key : List UInt8) : Nat :=
  (hash key).toNat &&& (head.size - 1)

/-- `hsearch_r`, where `memory` is whether there is memory for an entry. -/
def hsearchR (memory : Bool) (item : Entry δ) (action : Action) (head : HsearchData δ)
    : Option (Answer δ × HsearchData δ) := do
  let chain ← head.table[head.index hash item.key]?
  match chain.find? fun ie => ie.key = item.key with
  | some ie => return (.entry ie, head)
  | none =>
      if action = .find then
        return (.absent, head)
      else if !memory then
        return (.noMemory, head)
      else
        return (.entry item,
          { head with
            table := head.table.set (head.index hash item.key) (item :: chain)
            filled := head.filled + 1 })

/-- A call of `hsearch_r`. -/
structure Call (δ : Type) where
  memory : Bool
  item : Entry δ
  action : Action

/-- The answers to calls one after the other. -/
def answers : List (Call δ) → HsearchData δ → Option (List (Answer δ))
  | [], _ => some []
  | call :: calls, head => do
      let (answer, head) ← hsearchR hash call.memory call.item call.action head
      return answer :: (← answers calls head)

end BSDLibC.Hsearch
