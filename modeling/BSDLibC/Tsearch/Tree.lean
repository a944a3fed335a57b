import BSDLibC.LinkedTree.Layout

/-! The search trees of `tsearch`, `tfind` and `tdelete`. Nodes lie in a heap that knows which of
them are allocated, and an access to one that is not has no result.
-/

namespace BSDLibC.Tsearch
open BSDLibC.ColorTree BSDLibC.LinkedTree

variable {K : Type}

abbrev Addr := Nat

/-- A `node_t`, with `llink` and `rlink` as its links to the left and to the right. -/
structure Node (K : Type) where
  key : K
  link : Dir → Option Addr

structure State (K : Type) where
  root : Option Addr
  heap : Addr → Option (Node K)

/-- `*rootp`, where `none` inside is `NULL`. -/
def State.get (s : State K) : Cursor Addr → Option (Option Addr)
  | .top => some s.root
  | .child p d => (s.heap p).map (fun node => node.link d)

/-- `*rootp = value` -/
def State.put (s : State K) (value : Option Addr) : Cursor Addr → Option (State K)
  | .top => some { s with root := value }
  | .child p d => do
      let node ← s.heap p
      return { s with
        heap := Function.update s.heap p
          (some { node with link := Function.update node.link d value }) }

/-- `p->key = key` -/
def State.putKey (s : State K) (p : Addr) (key : K) : Option (State K) := do
  let node ← s.heap p
  return { s with heap := Function.update s.heap p (some { node with key := key }) }

/-- `free(p)` -/
def State.free (s : State K) (p : Addr) : State K :=
  { s with heap := Function.update s.heap p none }

variable (compar : K → K → Int)

/-- The loop of `tsearch` and `tfind`. It ends where the key is, or at `NULL`. -/
def walk (s : State K) (vkey : K) : Nat → Cursor Addr → Option (Cursor Addr)
  | 0, _ => none
  | fuel + 1, rootp => do
      match ← s.get rootp with
      | none => return rootp
      | some p =>
          let node ← s.heap p
          let r := compar vkey node.key
          if r = 0 then return rootp
          else walk s vkey fuel (.child p (if r < 0 then .left else .right))

/-- The block that `malloc` returns holds something. -/
def tsearch (fuel : Nat) (s : State K) (vkey : K) (vrootp : Option (Cursor Addr))
    (malloc : Option (Addr × Node K))
    : Option (Option Addr × State K) := do
  match vrootp with
  | none => return (none, s)
  | some rootp =>
      let rootp ← walk compar s vkey fuel rootp
      match ← s.get rootp with
      | some p => return (some p, s)
      | none =>
          match malloc with
          | none => return (none, s)
          | some (q, contents) =>
              let s : State K := { s with heap := Function.update s.heap q (some contents) }
              let s ← s.put (some q) rootp
              let s ← s.putKey q vkey
              let s ← s.put none (.child q .right)
              let s ← s.put none (.child q .left)
              return (some q, s)

def tfind (fuel : Nat) (s : State K) (vkey : K) (vrootp : Option (Cursor Addr))
    : Option (Option Addr) := do
  match vrootp with
  | none => return none
  | some rootp => s.get (← walk compar s vkey fuel rootp)

/-- The loop of `tdelete`, at a link that is not `NULL`. -/
def tdelete.walk (s : State K) (vkey : K)
    : Nat → Addr → Cursor Addr → Option (Option (Addr × Cursor Addr))
  | 0, _, _ => none
  | fuel + 1, p, rootp => do
      let cur ← ← s.get rootp
      let node ← s.heap cur
      let cmp := compar vkey node.key
      if cmp = 0 then
        return some (p, rootp)
      else
        let rootp := Cursor.child cur (if cmp < 0 then Dir.left else Dir.right)
        match ← s.get rootp with
        | none => return none
        | some _ => tdelete.walk s vkey fuel cur rootp

/-- `D3`: the node whose left link is `NULL`, after its father. -/
def tdelete.successor (s : State K) : Nat → Addr → Addr → Option (Addr × Addr)
  | 0, _, _ => none
  | fuel + 1, r, q => do
      match ← s.get (.child q .left) with
      | none => return (r, q)
      | some next => tdelete.successor s fuel q next

/-- What takes the place of `*rootp`. -/
def tdelete.splice (fuel : Nat) (s : State K) (cur : Addr) : Option (Option Addr × State K) := do
  let r ← s.get (.child cur .right)
  let q ← s.get (.child cur .left)
  match q, r with
  | none, r => return (r, s)
  | some q, none => return (some q, s)
  | some q, some r =>
      match ← s.get (.child r .left) with
      | none => return (some r, ← s.put (some q) (.child r .left))
      | some next =>
          let (r, q) ← tdelete.successor s fuel r next
          let s ← s.put (← s.get (.child q .right)) (.child r .left)
          let s ← s.put (← s.get (.child cur .left)) (.child q .left)
          let s ← s.put (← s.get (.child cur .right)) (.child q .right)
          return (some q, s)

def tdelete (fuel : Nat) (s : State K) (vkey : K) (vrootp : Option (Cursor Addr))
    : Option (Option Addr × State K) := do
  match vrootp with
  | none => return (none, s)
  | some rootp =>
      match ← s.get rootp with
      | none => return (none, s)
      | some p =>
          match ← tdelete.walk compar s vkey fuel p rootp with
          | none => return (none, s)
          | some (p, rootp) =>
              let cur ← ← s.get rootp
              let (q, s) ← tdelete.splice fuel s cur
              let s ← (s.free cur).put q rootp
              return (some p, s)

end BSDLibC.Tsearch
