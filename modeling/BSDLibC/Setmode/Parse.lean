import BSDLibC.Setmode.Compress
import BSDLibC.Strto.Exact

/-! `setmode`, which makes bit commands of a mode string. -/

namespace BSDLibC.Setmode
open BSDLibC.Strto

def S_ISUID : Mode := 0o4000

def S_ISGID : Mode := 0o2000

def S_ISTXT : Mode := 0o1000

def STANDARD_BITS : Mode := S_ISUID ||| S_ISGID ||| S_IRWXU ||| S_IRWXG ||| S_IRWXO

def ENOMEM : Int := 12

/-- A return of `NULL` with `errno`, or a store outside of the array. -/
inductive Failure where
  | errno (code : Int)
  | outside
deriving DecidableEq

/-- The operators. -/
inductive Op where
  | plus
  | minus
  | assign
deriving DecidableEq

/-- The commands so far, and the length of the array. -/
structure Built where
  sets : List Bitcmd
  setlen : Nat

-----------------------------------------------------------------------------------------
-- Commands
-----------------------------------------------------------------------------------------

def orElse (who other : Mode) : Mode := if who ≠ 0 then who else other

/-- `addcmd` for an operator or `X`; the field `cmd2` of these commands is never read. -/
def addbits (cmd : Cmd) (who oparg mask : Mode) : Bitcmd := ⟨cmd, 0, orElse who mask &&& oparg⟩

def addop (op : Op) (who oparg mask : Mode) : List Bitcmd :=
  match op with
  | .assign => [⟨.minus, 0, orElse who STANDARD_BITS⟩, addbits .plus who oparg mask]
  | .plus => [addbits .plus who oparg mask]
  | .minus => [addbits .minus who oparg mask]

/-- `addcmd` for `u`, `g` and `o`. -/
def addcopy (cmd : Cmd) (who : Mode) (op : Op) (mask : Mode) : Bitcmd :=
  let places : BitVec 8 :=
    if who ≠ 0 then
      (if who &&& 0o400 ≠ 0 then CMD2_UBITS else 0) ||| (if who &&& 0o040 ≠ 0 then CMD2_GBITS else 0)
        ||| (if who &&& 0o004 ≠ 0 then CMD2_OBITS else 0)
    else
      CMD2_UBITS ||| CMD2_GBITS ||| CMD2_OBITS
  let action :=
    match op with
    | .plus => CMD2_SET
    | .minus => CMD2_CLR
    | .assign => CMD2_SET ||| CMD2_CLR
  ⟨cmd, places ||| action, if who ≠ 0 then ~~~0 else mask⟩

/-- `ADDCMD`, where `fits` tells whether there is memory for an array of some length. -/
def ADDCMD (fits : Nat → Bool) (new : List Bitcmd) (built : Built) : Except Failure Built :=
  if built.sets.length ≥ built.setlen - 2 then
    if fits (built.setlen + 4) then
      if built.sets.length + new.length ≤ built.setlen + 4 then
        .ok ⟨built.sets ++ new, built.setlen + 4⟩
      else
        .error .outside
    else
      .error (.errno ENOMEM)
  else if built.sets.length + new.length ≤ built.setlen then
    .ok ⟨built.sets ++ new, built.setlen⟩
  else
    .error .outside

-----------------------------------------------------------------------------------------
-- Clauses
-----------------------------------------------------------------------------------------

/-- The loop over the letters of whose bits are meant. -/
def getWho : List UInt8 → Mode → Mode × List UInt8
  | [], who => (who, [])
  | c :: p, who =>
      if c = 0x61 then getWho p (who ||| STANDARD_BITS)
      else if c = 0x75 then getWho p (who ||| (S_ISUID ||| S_IRWXU))
      else if c = 0x67 then getWho p (who ||| (S_ISGID ||| S_IRWXG))
      else if c = 0x6f then getWho p (who ||| S_IRWXO)
      else (who, c :: p)

/-- The variables of the loop over the permissions. -/
structure Clause where
  who : Mode
  perm : Mode
  permXbits : Mode
  equalopdone : Bool
  built : Built

section

variable (fits : Nat → Bool) (mask : Mode) (op : Op)

/-- A letter of a permission. -/
def Clause.letter (clause : Clause) (c : UInt8) : Option Clause :=
  if c = 0x72 then some { clause with perm := clause.perm ||| 0o444 }
  else if c = 0x73 then
    if clause.who = 0 ∨ clause.who &&& ~~~S_IRWXO ≠ 0 then
      some { clause with perm := clause.perm ||| (S_ISUID ||| S_ISGID) }
    else
      some clause
  else if c = 0x74 then
    if clause.who = 0 ∨ clause.who &&& ~~~S_IRWXO ≠ 0 then
      some { clause with who := clause.who ||| S_ISTXT, perm := clause.perm ||| S_ISTXT }
    else
      some clause
  else if c = 0x77 then some { clause with perm := clause.perm ||| 0o222 }
  else if c = 0x58 then some { clause with permXbits := S_IX }
  else if c = 0x78 then some { clause with perm := clause.perm ||| S_IX }
  else none

/-- The letters of the bits that are copied. -/
def copyLetter (c : UInt8) : Option Cmd :=
  if c = 0x75 then some .u
  else if c = 0x67 then some .g
  else if c = 0x6f then some .o
  else none

/-- A command for the permissions so far, where that is due. -/
def Clause.settlePerm (clause : Clause) (due : Bool) : Except Failure Clause :=
  if due then do
    let built ← ADDCMD fits (addop op clause.who clause.perm mask) clause.built
    return { clause with perm := 0, built := built }
  else
    .ok clause

/-- A command for an `X`, where that is due. -/
def Clause.settleX (clause : Clause) (due : Bool) : Except Failure Clause :=
  if due then do
    let built ← ADDCMD fits [addbits .x clause.who clause.permXbits mask] clause.built
    return { clause with permXbits := 0, built := built }
  else
    .ok clause

/-- A copy, after the permissions so far. -/
def Clause.copy (clause : Clause) (cmd : Cmd) : Except Failure Clause := do
  let clause ← clause.settlePerm fits mask op (clause.perm ≠ 0)
  let clause := if op = .assign then { clause with equalopdone := true } else clause
  let clause ← clause.settleX fits mask (op = .plus ∧ clause.permXbits ≠ 0)
  let built ← ADDCMD fits [addcopy cmd clause.who op mask] clause.built
  return { clause with built := built }

/-- The permissions that are left at the end of the list. -/
def Clause.flush (clause : Clause) : Except Failure Clause := do
  let due := clause.perm ≠ 0 ∨ (op = .assign ∧ clause.equalopdone = false)
  let clause := if due ∧ op = .assign then { clause with equalopdone := true } else clause
  let clause ← clause.settlePerm fits mask op due
  clause.settleX fits mask (clause.permXbits ≠ 0)

/-- The loop over the permissions of one operator. -/
def perms : List UInt8 → Clause → Except Failure (Clause × List UInt8)
  | [], clause => do return (← clause.flush fits mask op, [])
  | c :: p, clause =>
      match clause.letter c with
      | some clause => perms p clause
      | none =>
          match copyLetter c with
          | some cmd => do perms p (← clause.copy fits mask op cmd)
          | none => do return (← clause.flush fits mask op, c :: p)

end

def getOp (c : UInt8) : Option Op :=
  if c = 0x2b then some .plus
  else if c = 0x2d then some .minus
  else if c = 0x3d then some .assign
  else none

/-- The loop over the operators and the clauses, from an operator on. -/
def clauses (fits : Nat → Bool) (mask : Mode)
    : Nat → Mode → List UInt8 → Bool → Built → Except Failure Built
  | 0, _, _, _, _ => .error .outside
  | bound + 1, who, p, equalopdone, built =>
      match p with
      | [] => .error (.errno EINVAL)
      | c :: p =>
          match getOp c with
          | none => .error (.errno EINVAL)
          | some op => do
              let equalopdone := if op = .assign then false else equalopdone
              let (clause, p) ← perms fits mask op p ⟨who &&& ~~~S_ISTXT, 0, 0, equalopdone, built⟩
              match p with
              | [] => return clause.built
              | c :: rest =>
                  if c ≠ 0x2c then
                    clauses fits mask bound clause.who (c :: rest) clause.equalopdone clause.built
                  else
                    let (who, p) := getWho rest 0
                    clauses fits mask bound who p clause.equalopdone clause.built

-----------------------------------------------------------------------------------------
-- setmode
-----------------------------------------------------------------------------------------

/-- The command that ends the array. -/
def finish (built : Built) : Except Failure (List Bitcmd) :=
  if built.sets.length < built.setlen then .ok (built.sets ++ [⟨.stop, 0, 0⟩]) else .error .outside

/-- An absolute mode. -/
def absolute (fits : Nat → Bool) (mask : Mode) (loc : Strto.Locale) (p : Text) (built : Built)
    : Except Failure (List Bitcmd) :=
  match strtol loc p 8 0 with
  | none => .error .outside
  | some lval =>
      if lval.endptr ≠ p.bytes.length then
        .error (.errno EINVAL)
      else if lval.errno = ERANGE ∧ (lval.value = long.max ∨ lval.value = long.min) then
        .error (.errno lval.errno)
      else if BitVec.ofInt 64 lval.value &&& ~~~((STANDARD_BITS ||| S_ISTXT).setWidth 64) ≠ 0 then
        .error (.errno EINVAL)
      else do
        let perm := BitVec.ofInt 32 lval.value
        finish (← ADDCMD fits (addop .assign (STANDARD_BITS ||| S_ISTXT) perm mask) built)

/-- `setmode`, with the file creation mask of the process. -/
def setmode (fits : Nat → Bool) (loc : Strto.Locale) (umask : Mode) (p : Text)
    : Except Failure (List Bitcmd) :=
  match p.bytes with
  | [] => .error (.errno EINVAL)
  | c :: _ =>
      let mask := ~~~umask
      if !fits 8 then
        .error (.errno ENOMEM)
      else if 0x30 ≤ c ∧ c ≤ 0x39 then
        absolute fits mask loc p ⟨[], 8⟩
      else do
        let (who, rest) := getWho p.bytes 0
        let built ← clauses fits mask (p.bytes.length + 1) who rest false ⟨[], 8⟩
        let array ← finish built
        match compressMode array with
        | none => .error .outside
        | some array => .ok array

end BSDLibC.Setmode
