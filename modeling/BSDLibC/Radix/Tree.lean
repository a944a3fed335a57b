import Mathlib.Algebra.Order.Ring.Nat
import Mathlib.Data.List.FinRange
import Mathlib.Logic.Function.Basic

/-! The radix tree of `radixtree.c`. A slot that a `void **` points to is named by the indexes that
lead to it from `t_root`, since every intermediate node has one slot that holds it. A result `none`
is an assertion that fails or a pointer that does not lead to a node.
-/

namespace BSDLibC.Radix

variable {P : Type}

/-- A set of the two tag ids. -/
abbrev Tags := BitVec 2

instance neZeroSixteen : NeZero 16 := ⟨by decide⟩

/-- The slots from the root down. -/
abbrev Slot := List (Fin 16)

/-- What a slot holds: no pointer, a pointer of the user or one to an intermediate node, with the
tags in its low bits.
-/
inductive Entry (P : Type)
  | null (tags : Tags)
  | leaf (tags : Tags) (p : P)
  | node (tags : Tags) (nPtrs : Fin 16 → Entry P)

def Entry.tagmask : Entry P → Tags
  | .null tags => tags
  | .leaf tags _ => tags
  | .node tags _ => tags

/-- `entry_compose(entry_ptr(e), tagmask)` -/
def Entry.compose (tagmask : Tags) : Entry P → Entry P
  | .null _ => .null tagmask
  | .leaf _ p => .leaf tagmask p
  | .node _ n => .node tagmask n

/-- `entry_ptr(e) == NULL` -/
def Entry.isNull : Entry P → Bool
  | .null _ => true
  | _ => false

/-- `e == NULL`, with the tags. -/
def Entry.isZero (e : Entry P) : Bool := e.isNull && e.tagmask == 0

/-- The node that an entry points to. -/
def Entry.nPtrs? : Entry P → Option (Fin 16 → Entry P)
  | .node _ n => some n
  | _ => none

/-- What the user gets for an entry, `none` for `NULL`. -/
def Entry.user? : Entry P → Option (Option P)
  | .null _ => some none
  | .leaf _ p => some (some p)
  | .node _ _ => none

structure Tree (P : Type) where
  tRoot : Entry P
  tHeight : Nat

def radixTreeInitTree : Tree P := ⟨.null 0, 0⟩

def radixTreeEmptyTreeP (t : Tree P) : Bool := t.tRoot.isZero

def radixTreeEmptyTaggedTreeP (t : Tree P) (tagmask : Tags) : Bool := t.tRoot.tagmask &&& tagmask == 0

/-- `*vpp` -/
def getSlot : Entry P → Slot → Option (Entry P)
  | e, [] => some e
  | .node _ n, i :: vpp => getSlot (n i) vpp
  | .null _, _ :: _ => none
  | .leaf _ _, _ :: _ => none

/-- `*vpp = entry` -/
def setSlot (entry : Entry P) : Entry P → Slot → Entry P
  | _, [] => entry
  | .node tags n, i :: vpp => .node tags (Function.update n i (setSlot entry (n i) vpp))
  | .null tags, _ :: _ => .null tags
  | .leaf tags p, _ :: _ => .leaf tags p

/-- The tags of `radix_tree_sum_node`. -/
def sumTags (n : Fin 16 → Entry P) : Tags :=
  (List.finRange 16).foldr (fun i tags => (n i).tagmask ||| tags) 0

/-- `radix_tree_sum_node(n) != 0` -/
def sumNonzero (n : Fin 16 → Entry P) : Bool := (List.finRange 16).any (fun i => !(n i).isZero)

def emptyNode : Fin 16 → Entry P := fun _ => .null 0

/-- `radix_tree_alloc_node`, where the list says which of the next allocations succeed. -/
def radixTreeAllocNode : List Bool → Bool × List Bool
  | [] => (false, [])
  | success :: memory => (success, memory)

/-- The new nodes of `radix_tree_grow`. -/
def radixTreeGrow.stack (tagmask : Tags) : Nat → Entry P → List Bool → Option (Entry P) × List Bool
  | 0, root, memory => (some root, memory)
  | levels + 1, root, memory =>
      match radixTreeAllocNode memory with
      | (false, memory) => (none, memory)
      | (true, memory) =>
          radixTreeGrow.stack tagmask levels (.node tagmask (Function.update emptyNode 0 root)) memory

def radixTreeGrow (t : Tree P) (newheight : Nat) (memory : List Bool)
    : Option (Tree P) × List Bool :=
  if t.tRoot.isZero then
    (some { t with tHeight := newheight }, memory)
  else
    match radixTreeGrow.stack t.tRoot.tagmask (newheight - t.tHeight) t.tRoot memory with
    | (none, memory) => (none, memory)
    | (some root, memory) => (some ⟨root, max t.tHeight newheight⟩, memory)

-----------------------------------------------------------------------------------------
-- `radix_tree_lookup_ptr`
-----------------------------------------------------------------------------------------

/-- The index into a node whose slots lie `level` nodes above the leafs. -/
def nibble (idx : UInt64) (level : Nat) : Fin 16 := Fin.ofNat 16 (idx.toNat >>> (4 * level))

/-- The slot that is returned, or the slots up to `p_lastidx` where `NULL` is. `none` stands for
`RADIX_TREE_INVALID_HEIGHT`.
-/
inductive Found
  | slot (vpp : Slot)
  | stopped (lastidx : Option Slot)
deriving DecidableEq, Repr

/-- `path->p_refs` up to `p_lastidx`. -/
def Found.path : Found → Option Slot
  | .slot vpp => some vpp
  | .stopped lastidx => lastidx

/-- Whether there is a node to go on with at `vpp`. -/
def radixTreeLookupPtr.next (alloc : Bool) (tagmask : Tags) (t : Tree P) (vpp : Slot)
    (memory : List Bool)
    : Option (Bool × Tree P × List Bool) := do
  let entry ← getSlot t.tRoot vpp
  if entry.isNull || (tagmask != 0 && entry.tagmask &&& tagmask == 0) then
    if !alloc then
      return (false, t, memory)
    else
      match radixTreeAllocNode memory with
      | (false, memory) => return (false, t, memory)
      | (true, memory) =>
          return (true, { t with tRoot := setSlot (.node 0 emptyNode) t.tRoot vpp }, memory)
  else
    return (true, t, memory)

/-- The loop over `shift`, which is `4 * level` in a round. -/
def radixTreeLookupPtr.loop (idx : UInt64) (alloc : Bool) (tagmask : Tags)
    : Nat → Tree P → Slot → List Bool → Option (Found × Tree P × List Bool)
  | 0, t, vpp, memory =>
      if alloc then do
        let entry ← getSlot t.tRoot vpp
        if entry.isZero then return (.slot vpp, t, memory) else none
      else
        some (.slot vpp, t, memory)
  | level + 1, t, vpp, memory =>
      if t.tHeight ≤ level && vpp ≠ [] then
        none
      else if t.tHeight ≤ level && nibble idx level = 0 then
        radixTreeLookupPtr.loop idx alloc tagmask level t vpp memory
      else if t.tHeight ≤ level && !alloc then
        some (.stopped none, t, memory)
      else
        match if t.tHeight ≤ level then radixTreeGrow t (level + 1) memory else (some t, memory) with
        | (none, memory) => some (.stopped none, t, memory)
        | (some t, memory) =>
            match radixTreeLookupPtr.next alloc tagmask t vpp memory with
            | none => none
            | some (false, t, memory) => some (.stopped (some vpp), t, memory)
            | some (true, t, memory) =>
                radixTreeLookupPtr.loop idx alloc tagmask level t (vpp ++ [nibble idx level]) memory

def radixTreeLookupPtr (t : Tree P) (idx : UInt64) (alloc : Bool) (tagmask : Tags)
    (memory : List Bool)
    : Option (Found × Tree P × List Bool) :=
  radixTreeLookupPtr.loop idx alloc tagmask 16 t [] memory

/-- A lookup that does not allocate. -/
def lookupPath (t : Tree P) (idx : UInt64) (tagmask : Tags) : Option Found :=
  (radixTreeLookupPtr t idx false tagmask []).map (·.1)

-----------------------------------------------------------------------------------------
-- Insertion, replacement and removal
-----------------------------------------------------------------------------------------

/-- The loop that frees empty nodes, from the one at `p_refs[i - 1]` up. It ends at a node that is
not empty, or with 0 above the root.
-/
def freeEmpty (path : Slot) : Nat → Entry P → Option (Entry P × Nat)
  | 0, root => some (root, 0)
  | i + 1, root => do
      let entry ← getSlot root (path.take i)
      let n ← entry.nPtrs?
      if sumNonzero n then return (root, i + 1)
      else freeEmpty path i (setSlot (.null 0) root (path.take i))

/-- The height of a tree after the loop. -/
def fixHeight (t : Tree P) (root : Entry P) (i : Nat) : Option (Tree P) :=
  if i = 0 then
    if root.isZero then some ⟨root, 0⟩ else none
  else
    some { t with tRoot := root }

def radixTreeUndoInsertNode (t : Tree P) (idx : UInt64) : Option (Tree P) := do
  let found ← lookupPath t idx 0
  match found.path with
  | none => return t
  | some path =>
      let (root, i) ← freeEmpty path path.length t.tRoot
      fixHeight t root i

inductive Errno
  | ENOMEM
deriving DecidableEq, Repr

/-- The error, or none for a result 0. -/
def radixTreeInsertNode (t : Tree P) (idx : UInt64) (p : P) (memory : List Bool)
    : Option (Option Errno × Tree P × List Bool) := do
  let (found, t, memory) ← radixTreeLookupPtr t idx true 0 memory
  match found with
  | .stopped _ => return (some .ENOMEM, ← radixTreeUndoInsertNode t idx, memory)
  | .slot vpp =>
      let old ← getSlot t.tRoot vpp
      if old.isZero then
        return (none, { t with tRoot := setSlot (.leaf 0 p) t.tRoot vpp }, memory)
      else
        none

/-- The slot of an index that is there, with what it holds. -/
def presentSlot (t : Tree P) (idx : UInt64) : Option (Slot × Entry P) := do
  match ← lookupPath t idx 0 with
  | .stopped _ => none
  | .slot vpp =>
      let old ← getSlot t.tRoot vpp
      if old.isZero then none else return (vpp, old)

def radixTreeReplaceNode (t : Tree P) (idx : UInt64) (p : P) : Option (P × Tree P) := do
  let (vpp, old) ← presentSlot t idx
  let oldp ← ← old.user?
  return (oldp, { t with tRoot := setSlot (.leaf old.tagmask p) t.tRoot vpp })

/-- The loop that updates the tags, from the node at `p_refs[i - 1]` up. -/
def updateTags (path : Slot) : Nat → Entry P → Option (Entry P)
  | 0, root => some root
  | i + 1, root => do
      let entry ← getSlot root (path.take i)
      let n ← entry.nPtrs?
      if !sumNonzero n then
        none
      else if sumTags n == entry.tagmask then
        return root
      else
        updateTags path i (setSlot (.node (sumTags n) n) root (path.take i))

def radixTreeRemoveNode (t : Tree P) (idx : UInt64) : Option (P × Tree P) := do
  let (vpp, old) ← presentSlot t idx
  if vpp.length ≠ t.tHeight then
    none
  else
    let oldp ← ← old.user?
    let (root, i) ← freeEmpty vpp t.tHeight (setSlot (.null 0) t.tRoot vpp)
    let t ← fixHeight t root i
    return (oldp, { t with tRoot := ← updateTags vpp i t.tRoot })

def radixTreeLookupNode (t : Tree P) (idx : UInt64) : Option (Option P) := do
  match ← lookupPath t idx 0 with
  | .stopped _ => return none
  | .slot vpp => (← getSlot t.tRoot vpp).user?

-----------------------------------------------------------------------------------------
-- Tags
-----------------------------------------------------------------------------------------

def radixTreeGetTag (t : Tree P) (idx : UInt64) (tagmask : Tags) : Option Tags := do
  match ← lookupPath t idx tagmask with
  | .stopped _ => return 0
  | .slot vpp =>
      let entry ← getSlot t.tRoot vpp
      if entry.isZero then none else return entry.tagmask &&& tagmask

/-- The loop of `radix_tree_set_tag`, from `p_refs[i - 1]` up. -/
def setTags (tagmask : Tags) (path : Slot) : Nat → Entry P → Option (Entry P)
  | 0, root => some root
  | i + 1, root => do
      let entry ← getSlot root (path.take i)
      if entry.tagmask &&& tagmask != 0 then
        return root
      else
        setTags tagmask path i
          (setSlot (entry.compose (entry.tagmask ||| tagmask)) root (path.take i))

def radixTreeSetTag (t : Tree P) (idx : UInt64) (tagmask : Tags) : Option (Tree P) := do
  let (vpp, _) ← presentSlot t idx
  if tagmask = 0 || vpp.length ≠ t.tHeight then none
  else return { t with tRoot := ← setTags tagmask vpp (t.tHeight + 1) t.tRoot }

/-- The loop of `radix_tree_clear_tag`, from `p_refs[i - 1]` up. -/
def clearTags (tagmask : Tags) (path : Slot) : Nat → Entry P → Option (Entry P)
  | 0, root => some root
  | i + 1, root => do
      let entry ← getSlot root (path.take i)
      if entry.tagmask &&& tagmask == 0 then
        none
      else
        let root := setSlot (entry.compose (entry.tagmask &&& ~~~tagmask)) root (path.take i)
        if 0 < i then
          let above ← getSlot root (path.take (i - 1))
          let n ← above.nPtrs?
          if sumTags n &&& tagmask != 0 then return root else clearTags tagmask path i root
        else
          return root

def radixTreeClearTag (t : Tree P) (idx : UInt64) (tagmask : Tags) : Option (Tree P) := do
  let (vpp, old) ← presentSlot t idx
  if tagmask = 0 || vpp.length ≠ t.tHeight then
    none
  else if old.tagmask &&& tagmask == 0 then
    return t
  else
    return { t with tRoot := ← clearTags tagmask vpp (t.tHeight + 1) t.tRoot }

-----------------------------------------------------------------------------------------
-- Slots with the nodes around them
-----------------------------------------------------------------------------------------

/-- A node with the slot that is looked at. -/
structure Frame (P : Type) where
  tags : Tags
  n : Fin 16 → Entry P
  i : Fin 16

/-- The node with an entry in its slot. -/
def Frame.put (f : Frame P) (e : Entry P) : Fin 16 → Entry P := Function.update f.n f.i e

def Frame.fill (f : Frame P) (e : Entry P) : Entry P := .node f.tags (f.put e)

def plug : List (Frame P) → Entry P → Entry P
  | [], e => e
  | f :: up, e => plug up (f.fill e)

/-- The indexes from the root to the slot. -/
def route (ctx : List (Frame P)) : Slot := (ctx.map Frame.i).reverse

variable {ctx : List (Frame P)} {f : Frame P} {e x : Entry P} {vpp : Slot}

@[simp] theorem plug_nil (e : Entry P) : plug [] e = e := rfl

@[simp] theorem plug_cons (f : Frame P) (up : List (Frame P)) (e : Entry P)
    : plug (f :: up) e = plug up (f.fill e) := rfl

@[simp] theorem route_nil : route ([] : List (Frame P)) = [] := rfl

@[simp] theorem route_cons (f : Frame P) (up : List (Frame P)) : route (f :: up) = route up ++ [f.i] := by
  simp [route]

@[simp] theorem length_route (ctx : List (Frame P)) : (route ctx).length = ctx.length := by
  simp [route]

@[simp] theorem Frame.put_self (f : Frame P) (e : Entry P) : f.put e f.i = e := by
  simp [Frame.put]

theorem Frame.put_ne {j : Fin 16} (h : j ≠ f.i) (e : Entry P) : f.put e j = f.n j := by
  simp [Frame.put, h]

@[simp] theorem getSlot_nil (e : Entry P) : getSlot e [] = some e := by
  cases e <;> rfl

@[simp] theorem setSlot_nil (v e : Entry P) : setSlot v e [] = v := by
  cases e <;> rfl

/-- A slot below the one that is looked at. -/
theorem getSlot_plug (ctx : List (Frame P)) (e : Entry P) (vpp : Slot)
    : getSlot (plug ctx e) (route ctx ++ vpp) = getSlot e vpp := by
  induction ctx generalizing e vpp with
  | nil => rfl
  | cons f up ih =>
      rw [route_cons, List.append_assoc, plug_cons, ih, List.singleton_append, Frame.fill, getSlot,
        Frame.put_self]

theorem setSlot_plug (ctx : List (Frame P)) (v e : Entry P) (vpp : Slot)
    : setSlot v (plug ctx e) (route ctx ++ vpp) = plug ctx (setSlot v e vpp) := by
  induction ctx generalizing e vpp with
  | nil => rfl
  | cons f up ih =>
      rw [route_cons, List.append_assoc, plug_cons, ih, List.singleton_append, Frame.fill, setSlot,
        Frame.put_self, plug_cons, Frame.fill, Frame.put, Frame.put, Function.update_idem]

@[simp] theorem getSlot_route (ctx : List (Frame P)) (e : Entry P)
    : getSlot (plug ctx e) (route ctx) = some e := by
  have same := getSlot_plug ctx e []
  rwa [List.append_nil, getSlot_nil] at same

@[simp] theorem setSlot_route (ctx : List (Frame P)) (v e : Entry P)
    : setSlot v (plug ctx e) (route ctx) = plug ctx v := by
  have same := setSlot_plug ctx v e []
  rwa [List.append_nil, setSlot_nil] at same

/-- Every slot that is there can be looked at. -/
theorem exists_plug (h : getSlot e vpp = some x) : ∃ ctx, e = plug ctx x ∧ route ctx = vpp := by
  induction vpp generalizing e with
  | nil =>
      rw [getSlot_nil] at h
      exact ⟨[], Option.some.inj h, rfl⟩
  | cons i vpp ih =>
      cases e with
      | null tags => cases h
      | leaf tags p => cases h
      | node tags n =>
          obtain ⟨ctx, below, rfl⟩ := ih (e := n i) h
          refine ⟨ctx ++ [⟨tags, n, i⟩], ?_, by simp [route]⟩
          have whole : plug (ctx ++ [⟨tags, n, i⟩]) x = Frame.fill ⟨tags, n, i⟩ (plug ctx x) := by
            clear below h ih
            induction ctx generalizing x with
            | nil => rfl
            | cons f up ih => exact ih
          rw [whole, ← below, Frame.fill, Frame.put, Function.update_eq_self]

/-- The path to a slot leads through the slots around it. -/
theorem take_route (inner ctx : List (Frame P)) : (route (inner ++ ctx)).take ctx.length = route ctx := by
  simp [route]

end BSDLibC.Radix
