import Mathlib.Algebra.Order.Ring.Nat
import Mathlib.Tactic.Common

/-! The bit commands of `setmode`: what `getmode` does with them and how `compress_mode` merges them.
A result `none` is an access outside of the array.
-/

namespace BSDLibC.Setmode

/-- `mode_t` -/
abbrev Mode := BitVec 32

def S_IRWXU : Mode := 0o700

def S_IRWXG : Mode := 0o070

def S_IRWXO : Mode := 0o007

def S_IFDIR : Mode := 0o040000

/-- `S_IXUSR|S_IXGRP|S_IXOTH` -/
def S_IX : Mode := 0o111

/-- The characters in the field `cmd`, with `stop` for `\0`. -/
inductive Cmd where
  | stop
  | u
  | g
  | o
  | plus
  | minus
  | x
deriving DecidableEq

structure Bitcmd where
  cmd : Cmd
  cmd2 : BitVec 8
  bits : Mode
deriving DecidableEq

def CMD2_CLR : BitVec 8 := 0x01

def CMD2_SET : BitVec 8 := 0x02

def CMD2_GBITS : BitVec 8 := 0x04

def CMD2_OBITS : BitVec 8 := 0x08

def CMD2_UBITS : BitVec 8 := 0x10

/-- A flag of `cmd2`. -/
def Bitcmd.has (set : Bitcmd) (flag : BitVec 8) : Bool := set.cmd2 &&& flag ≠ 0

-----------------------------------------------------------------------------------------
-- getmode
-----------------------------------------------------------------------------------------

/-- What follows the label `common`. -/
def copyBits (set : Bitcmd) (value newmode : Mode) : Mode :=
  let clrval := if set.has CMD2_SET then S_IRWXO else value
  let newmode :=
    if set.has CMD2_CLR then
      let newmode :=
        if set.has CMD2_UBITS then newmode &&& ~~~((clrval <<< 6) &&& set.bits) else newmode
      let newmode :=
        if set.has CMD2_GBITS then newmode &&& ~~~((clrval <<< 3) &&& set.bits) else newmode
      if set.has CMD2_OBITS then newmode &&& ~~~(clrval &&& set.bits) else newmode
    else
      newmode
  if set.has CMD2_SET then
    let newmode := if set.has CMD2_UBITS then newmode ||| ((value <<< 6) &&& set.bits) else newmode
    let newmode := if set.has CMD2_GBITS then newmode ||| ((value <<< 3) &&& set.bits) else newmode
    if set.has CMD2_OBITS then newmode ||| (value &&& set.bits) else newmode
  else
    newmode

/-- One round of the loop, for a command that is not the last. -/
def Bitcmd.apply (omode : Mode) (set : Bitcmd) (newmode : Mode) : Mode :=
  match set.cmd with
  | .u => copyBits set ((newmode &&& S_IRWXU) >>> 6) newmode
  | .g => copyBits set ((newmode &&& S_IRWXG) >>> 3) newmode
  | .o => copyBits set (newmode &&& S_IRWXO) newmode
  | .plus => newmode ||| set.bits
  | .minus => newmode &&& ~~~set.bits
  | .x => if omode &&& (S_IFDIR ||| S_IX) ≠ 0 then newmode ||| set.bits else newmode
  | .stop => newmode

/-- The loop over the commands. -/
def getmodeFrom (omode : Mode) : List Bitcmd → Mode → Option Mode
  | [], _ => none
  | set :: sets, newmode =>
      if set.cmd = .stop then some newmode else getmodeFrom omode sets (set.apply omode newmode)

def getmode (bbox : List Bitcmd) (omode : Mode) : Option Mode := getmodeFrom omode bbox omode

-----------------------------------------------------------------------------------------
-- compress_mode
-----------------------------------------------------------------------------------------

/-- The commands that are merged. -/
def Cmd.merges : Cmd → Bool
  | .plus => true
  | .minus => true
  | .x => true
  | _ => false

/-- Where `compress_mode` is: in the loop that copies, in the loop that merges, or before it writes the
commands that it merged.
-/
inductive Phase where
  | copying
  | merging (setbits clrbits xbits : Mode)
  | writing (pending : List (Cmd × Mode))
  | returned
deriving DecidableEq

/-- The array and the places of the pointers to write to and to read from. -/
structure Compress where
  array : List Bitcmd
  set : Nat
  nset : Nat
  phase : Phase
deriving DecidableEq

/-- A store through the pointer to write to. -/
def Compress.store (s : Compress) (c : Bitcmd) : Option (List Bitcmd) :=
  if s.set < s.array.length then some (s.array.set s.set c) else none

/-- One step, without a result after the return. -/
def Compress.step (s : Compress) : Option Compress :=
  match s.phase with
  | .copying => do
      let c ← s.array[s.nset]?
      if c.cmd.merges then
        return { s with phase := .merging 0 0 0 }
      else
        let array ← s.store c
        return ⟨array, s.set + 1, s.nset + 1, if c.cmd = .stop then .returned else .copying⟩
  | .merging setbits clrbits xbits => do
      let c ← s.array[s.nset]?
      match c.cmd with
      | .minus =>
          return { s with
            nset := s.nset + 1
            phase := .merging (setbits &&& ~~~c.bits) (clrbits ||| c.bits) (xbits &&& ~~~c.bits) }
      | .plus =>
          return { s with
            nset := s.nset + 1
            phase := .merging (setbits ||| c.bits) (clrbits &&& ~~~c.bits) (xbits &&& ~~~c.bits) }
      | .x =>
          return { s with
            nset := s.nset + 1
            phase := .merging setbits clrbits (xbits ||| (c.bits &&& ~~~setbits)) }
      | _ =>
          return { s with phase := .writing [(.minus, clrbits), (.plus, setbits), (.x, xbits)] }
  | .writing [] => some { s with phase := .copying }
  | .writing ((cmd, bits) :: pending) =>
      if bits ≠ 0 then do
        let array ← s.store ⟨cmd, 0, bits⟩
        return ⟨array, s.set + 1, s.nset, .writing pending⟩
      else
        some { s with phase := .writing pending }
  | .returned => none

/-- The state after some steps. -/
def Compress.after : Nat → Compress → Option Compress
  | 0, s => some s
  | k + 1, s => do Compress.after k (← s.step)

/-- The state at the call. -/
def Compress.start (array : List Bitcmd) : Compress := ⟨array, 0, 0, .copying⟩

/-- The steps up to the return, no more than a bound. -/
def Compress.run : Nat → Compress → Option (List Bitcmd)
  | 0, _ => none
  | bound + 1, s =>
      if s.phase = .returned then some s.array else do Compress.run bound (← s.step)

def compressMode (array : List Bitcmd) : Option (List Bitcmd) :=
  Compress.run (7 * array.length + 1) (.start array)

end BSDLibC.Setmode
