import BSDLibC.LinkedTree.Layout
import Mathlib.Data.Nat.Bitwise
import Mathlib.Tactic.IntervalCases

/-! The radix priority search tree of `rpst.c`, over a memory in which the users have their nodes.
A result `none` is an access through `NULL` or an assertion that fails.
-/

namespace BSDLibC.Rpst
open BSDLibC.ColorTree BSDLibC.LinkedTree

abbrev Addr := Nat

/-- An `rpst_node`, with its children 0 and 1 to the left and to the right. -/
structure Node where
  nX : UInt64
  nY : UInt64
  nParent : Option Addr
  nChildren : Dir → Option Addr

/-- The fields of the `rpst_tree`, and the nodes. -/
structure State where
  tRoot : Option Addr
  tHeight : Nat
  node : Addr → Node

/-- `*where` -/
def State.get (s : State) : Cursor Addr → Option Addr
  | .top => s.tRoot
  | .child a d => (s.node a).nChildren d

/-- `*where = value` -/
def State.put (s : State) (value : Option Addr) : Cursor Addr → State
  | .top => { s with tRoot := value }
  | .child a d =>
      { s with
        node := Function.update s.node a
          { s.node a with nChildren := Function.update (s.node a).nChildren d value } }

/-- `a->n_parent = parent` -/
def State.setParent (s : State) (a : Addr) (parent : Option Addr) : State :=
  { s with node := Function.update s.node a { s.node a with nParent := parent } }

/-- `memcpy(a->n_children, children, sizeof(a->n_children))` -/
def State.setChildren (s : State) (a : Addr) (children : Dir → Option Addr) : State :=
  { s with node := Function.update s.node a { s.node a with nChildren := children } }

def rpstInitTree (s : State) : State := { s with tRoot := none, tHeight := 0 }

def rpstHeight2max (height : Nat) : Option UInt64 := do
  guard (height < 64)
  if height = 63 then
    return UInt64.ofNat (2 ^ 64 - 1)
  else
    return (1 <<< UInt64.ofNat (height + 1)) - 1

def rpstLevel2mask (s : State) (level : Nat) : UInt64 :=
  if s.tHeight < level then 0 else 1 <<< UInt64.ofNat (s.tHeight - level)

def rpstStartmask (s : State) : Option UInt64 := do
  let mask := rpstLevel2mask s 0
  guard (mask ||| (mask - 1) = (← rpstHeight2max s.tHeight))
  return mask

/-- The step of the loop of `rpst_update_parents`. -/
def rpstUpdateParents.child (n : Addr) (s : State) (i : Dir) : State :=
  match (s.node n).nChildren i with
  | none => s
  | some c => s.setParent c (some n)

def rpstUpdateParents (s : State) (n : Addr) : State :=
  [Dir.left, Dir.right].foldl (rpstUpdateParents.child n) s

-----------------------------------------------------------------------------------------
-- Removal
-----------------------------------------------------------------------------------------

/-- The pointer to a node, after its parent. -/
def rpstFindPptr (s : State) (n : Addr) : Option (Option Addr × Cursor Addr) := do
  match (s.node n).nParent with
  | none => return (none, .top)
  | some parent =>
      let i := if (s.node parent).nChildren .left = some n then Dir.left else Dir.right
      guard ((s.node parent).nChildren i = some n)
      return (some parent, .child parent i)

/-- One step of the loop that selects a child. -/
def rpstRemoveNodeAt.select (s : State) (cur : Addr) (best : Option Addr × Dir) (i : Dir)
    : Option (Option Addr × Dir) := do
  let c := (s.node cur).nChildren i
  guard (∀ a ∈ c, (s.node a).nParent = some cur)
  match best.1, c with
  | none, c => return (c, i)
  | some _, none => return best
  | some selected, some c =>
      if (s.node c).nY < (s.node selected).nY then return (some c, i) else return best

/-- Swap `selected->n_children` and `cur->n_children`, with the parents that follow. -/
def rpstRemoveNodeAt.swap (s : State) (parent : Option Addr) (cur selected : Addr) : State :=
  let tmp := (s.node selected).nChildren
  let s := s.setChildren selected (s.node cur).nChildren
  let s := s.setChildren cur tmp
  let s := rpstUpdateParents s cur
  let s := rpstUpdateParents s selected
  s.setParent selected parent

/-- From the label `next` on. -/
def rpstRemoveNodeAt.next : Nat → State → Option Addr → Cursor Addr → Addr → Option State
  | 0, _, _, _, _ => none
  | fuel + 1, s, parent, where_, cur => do
      let best ← rpstRemoveNodeAt.select s cur (none, .left) .left
      let (selected, selectedIdx) ← rpstRemoveNodeAt.select s cur best .right
      let s := s.put selected where_
      match selected with
      | none => return s
      | some selected =>
          let s := rpstRemoveNodeAt.swap s parent cur selected
          rpstRemoveNodeAt.next fuel s (some selected) (.child selected selectedIdx) cur

def rpstRemoveNodeAt (fuel : Nat) (s : State) (parent : Option Addr) (where_ : Cursor Addr) (cur : Addr)
    : Option State := do
  guard (parent = (s.node cur).nParent)
  rpstRemoveNodeAt.next fuel s parent where_ cur

def rpstRemoveNode (fuel : Nat) (s : State) (n : Addr) : Option State := do
  let (parent, where_) ← rpstFindPptr s n
  rpstRemoveNodeAt fuel s parent where_ n

-----------------------------------------------------------------------------------------
-- Insertion
-----------------------------------------------------------------------------------------

/-- The body of the loop of `rpst_enlarge_tree`. -/
def rpstEnlargeTree.step (fuel : Nat) (s : State) : Option State := do
  match s.tRoot with
  | none => return { s with tHeight := s.tHeight + 1 }
  | some n =>
      let s ← rpstRemoveNode fuel s n
      let s := s.setChildren n (fun _ => none)
      let s := s.put s.tRoot (.child n .left)
      let s := s.setParent (← s.tRoot) (some n)
      let s := s.put (some n) .top
      let s := s.setParent n none
      return { s with tHeight := s.tHeight + 1 }

/-- The loop, where `fuel` also bounds the removals in it. -/
def rpstEnlargeTree.loop (fuel : Nat) (idx : UInt64) : Nat → State → Option State
  | 0, _ => none
  | turns + 1, s => do
      if (← rpstHeight2max s.tHeight) < idx then
        rpstEnlargeTree.loop fuel idx turns (← rpstEnlargeTree.step fuel s)
      else
        return s

def rpstEnlargeTree (fuel : Nat) (s : State) (idx : UInt64) : Option State :=
  rpstEnlargeTree.loop fuel idx fuel s

/-- `(x & mask) != 0` as an index of a child. -/
def index (x mask : UInt64) : Dir := if x &&& mask = 0 then .left else .right

/-- Swap `cur` and `n`, where `n` is not in the tree. -/
def rpstInsertNode1.swap (s : State) (where_ : Cursor Addr) (n cur : Addr) : State :=
  let s := s.setChildren n (s.node cur).nChildren
  let s := s.setParent n (s.node cur).nParent
  let s := rpstUpdateParents s n
  s.put (some n) where_

/-- From the label `next` on. The first part of the result is the node that is returned. -/
def rpstInsertNode1.next
    : Nat → State → Cursor Addr → Addr → UInt64 → Option Addr → Option (Option Addr × State)
  | 0, _, _, _, _, _ => none
  | fuel + 1, s, where_, n, mask, parent => do
      match s.get where_ with
      | none =>
          let s := s.setParent n parent
          let s := s.setChildren n (fun _ => none)
          return (none, s.put (some n) where_)
      | some cur =>
          guard ((s.node cur).nParent = parent)
          if (s.node n).nY = (s.node cur).nY ∧ (s.node n).nX = (s.node cur).nX then
            return (some cur, s)
          else
            let (s, n, cur) :=
              if (s.node n).nY < (s.node cur).nY then
                (rpstInsertNode1.swap s where_ n cur, cur, n)
              else
                (s, n, cur)
            guard (s.get where_ = some cur)
            let idx := index (s.node n).nX mask
            let child := (s.node cur).nChildren idx
            guard (∀ c ∈ child, index (s.node c).nX mask = idx)
            guard (∀ c ∈ child, (s.node cur).nY ≤ (s.node c).nY)
            rpstInsertNode1.next fuel s (.child cur idx) n (mask >>> 1) (some cur)

def rpstInsertNode1 (fuel : Nat) (s : State) (where_ : Cursor Addr) (n : Addr) (mask : UInt64)
    : Option (Option Addr × State) := do
  guard ((s.node n).nX &&& ((-mask) <<< 1) = 0)
  rpstInsertNode1.next fuel s where_ n mask none

def rpstInsertNode (fuel : Nat) (s : State) (n : Addr) : Option (Option Addr × State) := do
  let s ← rpstEnlargeTree fuel s (s.node n).nX
  rpstInsertNode1 fuel s .top n (← rpstStartmask s)

-----------------------------------------------------------------------------------------
-- Masks, which select bits from `t_height` down
-----------------------------------------------------------------------------------------

/-- The mask for a place with `k` bits left. -/
def mask (k : Nat) : UInt64 := if k = 0 then 0 else UInt64.ofNat (2 ^ (k - 1))

/-- The child that a coordinate belongs to, with `k` bits left. -/
def branch (k : Nat) (x : UInt64) : Dir := if k ≠ 0 ∧ x.toNat.testBit (k - 1) then .right else .left

variable {k height : Nat} {x : UInt64}

theorem index_mask (few : k ≤ 64) : index x (mask k) = branch k x := by
  rw [index, mask, branch]
  by_cases zero : k = 0
  · simp [zero]
  · have low : 2 ^ (k - 1) < 2 ^ 64 := Nat.pow_lt_pow_right (by decide) (by omega)
    have selected : x &&& UInt64.ofNat (2 ^ (k - 1)) = 0 ↔ x.toNat.testBit (k - 1) = false := by
      rw [← UInt64.toNat_inj, UInt64.toNat_and, UInt64.toNat_ofNat_of_lt' low, Nat.and_two_pow]
      cases x.toNat.testBit (k - 1) <;> simp
    rw [if_neg zero]
    cases bit : x.toNat.testBit (k - 1) <;> simp [zero, selected, bit]

theorem mask_shift (few : k ≤ 64) : mask k >>> 1 = mask (k - 1) := by
  interval_cases k <;> decide

theorem rpstLevel2mask_zero (s : State) (low : s.tHeight < 64) : rpstLevel2mask s 0 = mask (s.tHeight + 1) := by
  rw [rpstLevel2mask, if_neg (by omega), mask]
  generalize s.tHeight = height at low
  interval_cases height <;> decide

theorem rpstHeight2max_eq (low : height < 64)
    : rpstHeight2max height = some (UInt64.ofNat (2 ^ (height + 1) - 1)) := by
  interval_cases height <;> decide

/-- A coordinate fits when it has no bits above those of the height. -/
theorem le_height2max (low : height < 64)
    : ¬ UInt64.ofNat (2 ^ (height + 1) - 1) < x ↔ x.toNat < 2 ^ (height + 1) := by
  have bound : 2 ^ (height + 1) ≤ 2 ^ 64 := Nat.pow_le_pow_right (by decide) (by omega)
  have positive : 0 < 2 ^ (height + 1) := Nat.two_pow_pos _
  rw [UInt64.lt_iff_toNat_lt, UInt64.toNat_ofNat_of_lt' (show 2 ^ (height + 1) - 1 < 2 ^ 64 by omega)]
  omega

theorem rpstStartmask_eq (s : State) (low : s.tHeight < 64) : rpstStartmask s = some (mask (s.tHeight + 1)) := by
  rw [rpstStartmask, rpstLevel2mask_zero s low, rpstHeight2max_eq low, mask]
  generalize s.tHeight = height at low
  interval_cases height <;> decide

/-- The bits above those that are left. -/
theorem high_mask (low : height < 64)
    : ((-mask (height + 1)) <<< 1).toNat = 2 ^ (height + 1) * (2 ^ (63 - height) - 1) := by
  interval_cases height <;> decide

/-- The assertion at the start of `rpst_insert_node1`. -/
theorem and_neg_mask (low : height < 64) (fits : x.toNat < 2 ^ (height + 1))
    : x &&& ((-mask (height + 1)) <<< 1) = 0 := by
  rw [← UInt64.toNat_inj, UInt64.toNat_and, high_mask low]
  refine Nat.eq_of_testBit_eq fun i => ?_
  rw [Nat.testBit_and, Nat.testBit_two_pow_mul]
  by_cases inside : height + 1 ≤ i
  · rw [Nat.testBit_lt_two_pow (lt_of_lt_of_le fits (Nat.pow_le_pow_right (by decide) inside))]
    simp
  · simp [inside]

theorem branch_of_lt (small : x.toNat < 2 ^ k) : branch (k + 1) x = .left := by
  rw [branch, Nat.add_sub_cancel, Nat.testBit_lt_two_pow small]
  simp

end BSDLibC.Rpst
