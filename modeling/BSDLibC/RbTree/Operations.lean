import BSDLibC.RbTree.Memory

/-! The operations of `libc/gen/rb.c`, as built without `RBDEBUG`, `RBSTATS` and `RBSMALL`.
An object is identified with the node embedded in it, since `RB_NODETOITEM` and
`RB_ITEMTONODE` only add and subtract a fixed offset. A loop takes fuel and has no result
when it runs out, so a result certifies both termination and the absence of a bad access.
-/

namespace BSDLibC.RbTree
open BSDLibC.ColorTree

/-- The index of a C comparison result used as `rb_nodes[diff < 0]`. -/
def childIndex (b : Bool) : Dir := if b then .right else .left

variable {Key : Type} (rbt : Ptr)

/-- `rb_tree_init` -/
def rbTreeInit (m : Mem) : Mem :=
  { m with rbtRoot := NULL, rbtMinmax := fun _ => NULL }

-----------------------------------------------------------------------------------------
-- Searching
-----------------------------------------------------------------------------------------

/-- The loop shared by the three lookups, which differ in when they remember `last`. -/
def rbTreeFind.loop (keep : Int → Bool) (compareKey : Ptr → Key → Int) (m : Mem) (key : Key)
    : Nat → Ptr → Ptr → Option Ptr
  | 0, _, _ => none
  | fuel + 1, parent, last =>
      if parent = NULL then
        some last
      else
        let diff := compareKey parent key
        if diff = 0 then
          some parent
        else do
          let last := if keep diff then parent else last
          let next ← m.rbNodes rbt parent (childIndex (diff < 0))
          rbTreeFind.loop keep compareKey m key fuel next last

/-- `rb_tree_find_node` -/
def rbTreeFindNode (compareKey : Ptr → Key → Int) (fuel : Nat) (m : Mem) (key : Key)
    : Option Ptr :=
  rbTreeFind.loop rbt (fun _ => false) compareKey m key fuel m.rbtRoot NULL

/-- `rb_tree_find_node_geq` -/
def rbTreeFindNodeGeq (compareKey : Ptr → Key → Int) (fuel : Nat) (m : Mem) (key : Key)
    : Option Ptr :=
  rbTreeFind.loop rbt (fun diff => diff > 0) compareKey m key fuel m.rbtRoot NULL

/-- `rb_tree_find_node_leq` -/
def rbTreeFindNodeLeq (compareKey : Ptr → Key → Int) (fuel : Nat) (m : Mem) (key : Key)
    : Option Ptr :=
  rbTreeFind.loop rbt (fun diff => diff < 0) compareKey m key fuel m.rbtRoot NULL

-----------------------------------------------------------------------------------------
-- Rotation and insertion
-----------------------------------------------------------------------------------------

/-- The part of `rb_tree_reparent_nodes` that exchanges the linkages and the properties of
the two nodes.
-/
def rbTreeReparentNodes.exchange (m : Mem) (oldFather : Ptr) (which : Dir)
    : Option Mem := do
  let other := which.other
  let grandpa ← m.rbFather rbt oldFather
  let oldChild ← m.rbNodes rbt oldFather which
  let newFather := oldChild
  let newChild := oldFather
  -- Exchange descendant linkages.
  let position ← m.rbPosition rbt oldFather
  let m ← m.setNodes rbt grandpa position newFather
  let inner ← m.rbNodes rbt oldChild other
  let m ← m.setNodes rbt newChild which inner
  let m ← m.setNodes rbt newFather other newChild
  -- Update ancestor linkages.
  let m ← m.rbSetFather rbt newFather grandpa
  let m ← m.rbSetFather rbt newChild newFather
  -- Exchange properties between the two.
  let m ← m.rbSwapProperties rbt newFather newChild
  m.rbSetPosition rbt newChild other

/-- `rb_tree_reparent_nodes`: swap the location and colours of a node and its child. -/
def rbTreeReparentNodes (m : Mem) (oldFather : Ptr) (which : Dir) : Option Mem := do
  let newChild := oldFather
  let m ← rbTreeReparentNodes.exchange rbt m oldFather which
  -- Make sure to reparent the new child's child to it.
  let son ← m.rbNodes rbt newChild which
  if son = NULL then
    return m
  else
    let m ← m.rbSetFather rbt son newChild
    m.rbSetPosition rbt son which

/-- The part of `rb_tree_insert_rebalance` after its loop: cases 2 and 3. -/
def rbTreeInsertRebalance.rotate (m : Mem) (self father grandpa : Ptr) (which : Dir)
    : Option Mem := do
  let other := which.other
  let inner ← m.rbNodes rbt father other
  let m ← if self = inner then rbTreeReparentNodes rbt m father other else some m
  let m ← rbTreeReparentNodes rbt m grandpa which
  m.rbMarkBlack rbt m.rbtRoot

def rbTreeInsertRebalance.loop : Nat → Mem → Ptr → Ptr → Option Mem
  | 0, _, _, _ => none
  | fuel + 1, m, self, father => do
      let grandpa ← m.rbFather rbt father
      let right ← m.rbNodes rbt grandpa .right
      let which := childIndex (father = right)
      let uncle ← m.rbNodes rbt grandpa which.other
      if ← m.rbRedP rbt uncle then
        -- Case 1: invert the colours of father and uncle, and go on at grandpa.
        let m ← m.rbMarkBlack rbt uncle
        let m ← m.rbMarkBlack rbt father
        if m.rbtRoot = grandpa then
          return m
        else
          let m ← m.rbMarkRed rbt grandpa
          let father' ← m.rbFather rbt grandpa
          if ← m.rbRedP rbt father' then
            rbTreeInsertRebalance.loop fuel m grandpa father'
          else
            return m
      else
        rbTreeInsertRebalance.rotate rbt m self father grandpa which

/-- `rb_tree_insert_rebalance` -/
def rbTreeInsertRebalance (fuel : Nat) (m : Mem) (self : Ptr) : Option Mem := do
  let father ← m.rbFather rbt self
  let _grandpa ← m.rbFather rbt father
  rbTreeInsertRebalance.loop rbt fuel m self father

/-- Where the search of `rb_tree_insert_node` ends. -/
inductive InsertPoint
  | exists (tobj : Ptr)
  | vacant (parent : Ptr) (position : Dir)

def rbTreeInsertNode.search (compareNodes : Ptr → Ptr → Int) (m : Mem) (object : Ptr)
    : Nat → Ptr → Dir → Ptr → Option InsertPoint
  | 0, _, _, _ => none
  | fuel + 1, parent, position, tmp =>
      if tmp = NULL then
        some (.vacant parent position)
      else
        let diff := compareNodes tmp object
        if diff = 0 then
          some (.exists tmp)
        else do
          let position := childIndex (diff < 0)
          let next ← m.rbNodes rbt tmp position
          rbTreeInsertNode.search compareNodes m object fuel tmp position next

/-- The part of `rb_tree_insert_node` after its search: link a new leaf and rebalance. -/
def rbTreeInsertNode.link (fuel : Nat) (m : Mem) (self parent : Ptr) (position : Dir)
    : Option Mem := do
  let m ← m.rbSetFather rbt self parent
  let m ← m.rbSetPosition rbt self position
  let (m, rebalance) ←
    if parent = rbt then do
      let m ← m.rbMarkBlack rbt self
      let m := (m.putMinmax .left self).putMinmax .right self
      pure (m, false)
    else do
      let m := if parent = m.rbtMinmax position then m.putMinmax position self else m
      let m ← m.rbMarkRed rbt self
      let rebalance ← m.rbRedP rbt parent
      pure (m, rebalance)
  let sentinel ← m.rbNodes rbt parent position
  let m ← m.setNodes rbt self .left sentinel
  let sentinel ← m.rbNodes rbt parent position
  let m ← m.setNodes rbt self .right sentinel
  let m ← m.setNodes rbt parent position self
  if rebalance then rbTreeInsertRebalance rbt fuel m self else some m

/-- `rb_tree_insert_node`: the memory afterwards and the returned object. -/
def rbTreeInsertNode (compareNodes : Ptr → Ptr → Int) (fuel : Nat) (m : Mem)
    (object : Ptr)
    : Option (Mem × Ptr) := do
  match ← rbTreeInsertNode.search rbt compareNodes m object fuel rbt .left m.rbtRoot with
  | .exists tobj => return (m, tobj)
  | .vacant parent position =>
      let m ← rbTreeInsertNode.link rbt fuel m object parent position
      return (m, object)

-----------------------------------------------------------------------------------------
-- Iteration
-----------------------------------------------------------------------------------------

def rbTreeIterate.climb (m : Mem) (other : Dir) : Nat → Ptr → Option Ptr
  | 0, _ => none
  | fuel + 1, self =>
      if m.rbtRoot = self then
        some NULL
      else do
        let father ← m.rbFather rbt self
        if other = (← m.rbPosition rbt self) then
          return father
        else
          rbTreeIterate.climb m other fuel father

def rbTreeIterate.descend (m : Mem) (other : Dir) : Nat → Ptr → Option Ptr
  | 0, _ => none
  | fuel + 1, self => do
      let next ← m.rbNodes rbt self other
      if next = NULL then return self else rbTreeIterate.descend m other fuel next

/-- `rb_tree_iterate` -/
def rbTreeIterate (fuel : Nat) (m : Mem) (object : Ptr) (direction : Dir) : Option Ptr :=
  let other := direction.other
  if object = NULL then
    if m.rbtRoot = NULL then some NULL else some (m.rbtMinmax direction)
  else do
    let next ← m.rbNodes rbt object direction
    if next = NULL then
      rbTreeIterate.climb rbt m other fuel object
    else
      rbTreeIterate.descend rbt m other fuel next

-----------------------------------------------------------------------------------------
-- Removal
-----------------------------------------------------------------------------------------

/-- `RB_BLACK_P(brother->rb_left) && RB_BLACK_P(brother->rb_right)` -/
def nephewsBlack (m : Mem) (brother : Ptr) : Option Bool := do
  let left ← m.rbNodes rbt brother .left
  if ← m.rbRedP rbt left then
    return false
  else
    let right ← m.rbNodes rbt brother .right
    return !(← m.rbRedP rbt right)

/-- The part of the loop body of `rb_tree_removal_rebalance` after cases 1 and 2a. -/
def rbTreeRemovalRebalance.finish (m : Mem) (parent brother : Ptr) (which : Dir)
    : Option Mem := do
  let other := which.other
  let simple ←
    if ← m.rbRedP rbt parent then
      if ← m.rbRedP rbt brother then pure false else nephewsBlack rbt m brother
    else
      pure false
  if simple then
    -- Case 2b: exchange the colours of father and brother.
    let m ← m.rbMarkBlack rbt parent
    m.rbMarkRed rbt brother
  else
    let far ← m.rbNodes rbt brother other
    let (m, brother) ←
      if ← m.rbRedP rbt far then
        pure (m, brother)
      else do
        -- Case 3: swap our brother with our near nephew.
        let m ← rbTreeReparentNodes rbt m brother which
        let brother ← m.rbNodes rbt parent other
        pure (m, brother)
    -- Case 4: blacken our far nephew and swap our father and brother.
    let far ← m.rbNodes rbt brother other
    let m ← m.rbMarkBlack rbt far
    rbTreeReparentNodes rbt m parent other

/-- `rb_tree_removal_rebalance` -/
def rbTreeRemovalRebalance : Nat → Mem → Ptr → Dir → Option Mem
  | 0, _, _, _ => none
  | fuel + 1, m, parent, which => do
      let child ← m.rbNodes rbt parent which
      if ← m.rbRedP rbt child then
        return m
      else
        let other := which.other
        let brother ← m.rbNodes rbt parent other
        let allBlack ←
          if ← m.rbRedP rbt parent then pure false else nephewsBlack rbt m brother
        if allBlack then
          if ← m.rbRedP rbt brother then
            -- Case 1: swap our red brother with our parent and fall through.
            let m ← rbTreeReparentNodes rbt m parent other
            let brother ← m.rbNodes rbt parent other
            rbTreeRemovalRebalance.finish rbt m parent brother which
          else
            -- Case 2a: redden our brother and continue one rank up.
            let m ← m.rbMarkRed rbt brother
            if m.rbtRoot = parent then
              return m
            else
              let which ← m.rbPosition rbt parent
              let parent ← m.rbFather rbt parent
              rbTreeRemovalRebalance fuel m parent which
        else
          rbTreeRemovalRebalance.finish rbt m parent brother which

/-- `rb_tree_prune_node` -/
def rbTreePruneNode (fuel : Nat) (m : Mem) (self : Ptr) (rebalance : Bool)
    : Option Mem := do
  let which ← m.rbPosition rbt self
  let father ← m.rbFather rbt self
  let wasRoot : Bool := m.rbtRoot = self
  let left ← m.rbNodes rbt self .left
  let m ← m.setNodes rbt father which left
  let position ← m.rbPosition rbt self
  let m :=
    if m.rbtMinmax position = self then
      let m := m.putMinmax position father
      if wasRoot then m.putMinmax .right father else m
    else
      m
  let m ← m.rbSetFather rbt self NULL
  if rebalance then rbTreeRemovalRebalance rbt fuel m father which else some m

/-- `standin->rb_nodes[d] = self->rb_nodes[d]; RB_SET_FATHER(standin->rb_nodes[d], standin)` -/
def rbTreeSwapPruneAndRebalance.adopt (m : Mem) (self standin : Ptr) (d : Dir)
    : Option Mem := do
  let son ← m.rbNodes rbt self d
  let m ← m.setNodes rbt standin d son
  let son ← m.rbNodes rbt standin d
  m.rbSetFather rbt son standin

/-- The part of `rb_tree_swap_prune_and_rebalance` that replaces self with standin. -/
def rbTreeSwapPruneAndRebalance.replace (m : Mem) (self standin : Ptr) : Option Mem := do
  let m ← m.rbCopyProperties rbt standin self
  let father ← m.rbFather rbt self
  let m ← m.rbSetFather rbt standin father
  let newFather ← m.rbFather rbt standin
  let position ← m.rbPosition rbt standin
  let m ← m.setNodes rbt newFather position standin
  let position ← m.rbPosition rbt self
  let father ← m.rbFather rbt self
  let m := if m.rbtMinmax position = self then m.putMinmax position father else m
  m.rbSetFather rbt self NULL

/-- `rb_tree_swap_prune_and_rebalance` -/
def rbTreeSwapPruneAndRebalance (fuel : Nat) (m : Mem) (self standin : Ptr)
    : Option Mem := do
  let standinWhich ← m.rbPosition rbt standin
  let standinOther := standinWhich.other
  let standinFather ← m.rbFather rbt standin
  let rebalance := !(← m.rbRedP rbt standin)
  let standinSon ←
    m.rbNodes rbt standin (if standinFather = self then standinWhich else standinOther)
  let (m, rebalance) ←
    if ← m.rbRedP rbt standinSon then do
      -- Flipping a red son to black makes rebalancing unnecessary.
      let m ← m.rbMarkBlack rbt standinSon
      if standinFather = self then
        pure (m, false)
      else
        let m ← m.rbSetFather rbt standinSon standinFather
        let m ← m.rbSetPosition rbt standinSon standinWhich
        pure (m, false)
    else
      pure (m, rebalance)
  let (m, standinFather, remaining) ←
    if standinFather = self then
      pure (m, standin, standinOther)
    else do
      -- Sever standin's connection to his father and adopt the far son.
      let m ← m.setNodes rbt standinFather standinWhich standinSon
      let m ← rbTreeSwapPruneAndRebalance.adopt rbt m self standin standinOther
      pure (m, standinFather, standinWhich)
  -- Move the only remaining son to our standin.
  let m ← rbTreeSwapPruneAndRebalance.adopt rbt m self standin remaining
  let m ← rbTreeSwapPruneAndRebalance.replace rbt m self standin
  if rebalance then
    rbTreeRemovalRebalance rbt fuel m standinFather standinWhich
  else
    some m

/-- `rb_tree_prune_blackred_branch` -/
def rbTreePruneBlackredBranch (m : Mem) (self : Ptr) (which : Dir) : Option Mem := do
  let father ← m.rbFather rbt self
  let son ← m.rbNodes rbt self which
  let wasRoot : Bool := m.rbtRoot = self
  let m ← m.rbCopyProperties rbt son self
  let position ← m.rbPosition rbt son
  let m ← m.setNodes rbt father position son
  let m ← m.rbSetFather rbt son father
  let position ← m.rbPosition rbt self
  let m :=
    if wasRoot then
      m.putMinmax which.other son
    else if m.rbtMinmax position = self then
      m.putMinmax position son
    else
      m
  m.rbSetFather rbt self NULL

/-- `rb_tree_remove_node` -/
def rbTreeRemoveNode (fuel : Nat) (m : Mem) (object : Ptr) : Option Mem := do
  let self := object
  let left ← m.rbNodes rbt self .left
  let right ← m.rbNodes rbt self .right
  if left = NULL ∧ right = NULL then
    let rebalance := !(← m.rbRedP rbt self) && !(decide (m.rbtRoot = self))
    rbTreePruneNode rbt fuel m self rebalance
  else if left = NULL ∨ right = NULL then
    let which := if left = NULL then Dir.right else Dir.left
    rbTreePruneBlackredBranch rbt m self which
  else
    -- Prefer to remove from the inside of the tree.
    let which := (← m.rbPosition rbt self).other
    let standin ← rbTreeIterate rbt fuel m object which
    rbTreeSwapPruneAndRebalance rbt fuel m self standin

end BSDLibC.RbTree
