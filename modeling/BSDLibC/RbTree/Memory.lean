import BSDLibC.RbTree.Node
import Mathlib.Logic.Function.Basic

/-! The memory that `rb.c` works on: one `rb_tree` header and the nodes behind pointers.
A read or write through `NULL` has no result. The header itself serves as the father of the
root (`(struct rb_node *)&rbt->rbt_root`): its left link is `rbt_root`, and any other field
reached through that cast would hit `rbt_ops` or `rbt_minmax`, so it has no result either.
-/

namespace BSDLibC.RbTree
open BSDLibC.ColorTree

structure RbNode where
  rbNodes : Dir → Ptr
  rbInfo : BitVec 64

structure Mem where
  rbtRoot : Ptr
  rbtMinmax : Dir → Ptr
  node : Ptr → RbNode

/-- A pointer to a node proper: neither `NULL` nor the header at `rbt`. -/
structure Valid (rbt p : Ptr) : Prop where
  ne_null : p ≠ NULL
  ne_rbt : p ≠ rbt

instance (rbt p : Ptr) : Decidable (Valid rbt p) :=
  decidable_of_iff (p ≠ NULL ∧ p ≠ rbt) ⟨fun h => ⟨h.1, h.2⟩, fun h => ⟨h.ne_null, h.ne_rbt⟩⟩

def Mem.putNodes (rbt : Ptr) (m : Mem) (p : Ptr) (d : Dir) (x : Ptr) : Mem :=
  if p = rbt then
    { m with rbtRoot := x }
  else
    { m with
      node := Function.update m.node p
        { m.node p with rbNodes := Function.update (m.node p).rbNodes d x } }

def Mem.putInfo (m : Mem) (p : Ptr) (info : BitVec 64) : Mem :=
  { m with node := Function.update m.node p { m.node p with rbInfo := info } }

def Mem.putMinmax (m : Mem) (d : Dir) (x : Ptr) : Mem :=
  { m with rbtMinmax := Function.update m.rbtMinmax d x }

/-- `p->rb_nodes[d]` -/
def Mem.rbNodes (rbt : Ptr) (m : Mem) (p : Ptr) (d : Dir) : Option Ptr :=
  if p = NULL then none
  else if p = rbt then (if d = .left then some m.rbtRoot else none)
  else some ((m.node p).rbNodes d)

/-- `p->rb_nodes[d] = x` -/
def Mem.setNodes (rbt : Ptr) (m : Mem) (p : Ptr) (d : Dir) (x : Ptr) : Option Mem :=
  if p = NULL ∨ p = rbt ∧ d = .right then none else some (m.putNodes rbt p d x)

/-- `p->rb_info` -/
def Mem.rbInfo (rbt : Ptr) (m : Mem) (p : Ptr) : Option (BitVec 64) :=
  if p = NULL ∨ p = rbt then none else some (m.node p).rbInfo

/-- `p->rb_info = f(p->rb_info)`, the form of every writing macro. -/
def Mem.modifyInfo (rbt : Ptr) (m : Mem) (p : Ptr) (f : BitVec 64 → BitVec 64)
    : Option Mem :=
  (m.rbInfo rbt p).map (fun info => m.putInfo p (f info))

/-- `RB_FATHER` -/
def Mem.rbFather (rbt : Ptr) (m : Mem) (p : Ptr) : Option Ptr :=
  (m.rbInfo rbt p).map RbTree.rbFather

/-- `RB_POSITION` -/
def Mem.rbPosition (rbt : Ptr) (m : Mem) (p : Ptr) : Option Dir :=
  (m.rbInfo rbt p).map RbTree.rbPosition

/-- `RB_RED_P`; `RB_BLACK_P` is its negation, so a sentinel is black and not dereferenced. -/
def Mem.rbRedP (rbt : Ptr) (m : Mem) (p : Ptr) : Option Bool :=
  if p = NULL then some false else (m.rbInfo rbt p).map rbRed

/-- `RB_SET_FATHER` -/
def Mem.rbSetFather (rbt : Ptr) (m : Mem) (p father : Ptr) : Option Mem :=
  m.modifyInfo rbt p (fun info => RbTree.rbSetFather info father)

/-- `RB_SET_POSITION` -/
def Mem.rbSetPosition (rbt : Ptr) (m : Mem) (p : Ptr) (d : Dir) : Option Mem :=
  m.modifyInfo rbt p (fun info => RbTree.rbSetPosition info d)

/-- `RB_MARK_RED` -/
def Mem.rbMarkRed (rbt : Ptr) (m : Mem) (p : Ptr) : Option Mem :=
  m.modifyInfo rbt p RbTree.rbMarkRed

/-- `RB_MARK_BLACK` -/
def Mem.rbMarkBlack (rbt : Ptr) (m : Mem) (p : Ptr) : Option Mem :=
  m.modifyInfo rbt p RbTree.rbMarkBlack

/-- `RB_COPY_PROPERTIES` -/
def Mem.rbCopyProperties (rbt : Ptr) (m : Mem) (dst src : Ptr) : Option Mem := do
  let srcInfo ← m.rbInfo rbt src
  m.modifyInfo rbt dst (fun dstInfo => RbTree.rbCopyProperties dstInfo srcInfo)

/-- `RB_SWAP_PROPERTIES` -/
def Mem.rbSwapProperties (rbt : Ptr) (m : Mem) (a b : Ptr) : Option Mem := do
  let aInfo ← m.rbInfo rbt a
  let bInfo ← m.rbInfo rbt b
  let swapped := RbTree.rbSwapProperties aInfo bInfo
  let m ← m.modifyInfo rbt a (fun _ => swapped.1)
  m.modifyInfo rbt b (fun _ => swapped.2)

section Access

variable {rbt p : Ptr} {m : Mem}

theorem Mem.rbNodes_valid (h : Valid rbt p) (d : Dir)
    : m.rbNodes rbt p d = some ((m.node p).rbNodes d) := by
  simp [Mem.rbNodes, h.ne_null, h.ne_rbt]

theorem Mem.rbInfo_valid (h : Valid rbt p) : m.rbInfo rbt p = some (m.node p).rbInfo := by
  simp [Mem.rbInfo, h.ne_null, h.ne_rbt]

theorem Mem.setNodes_valid (h : Valid rbt p) (d : Dir) (x : Ptr)
    : m.setNodes rbt p d x = some (m.putNodes rbt p d x) := by
  simp [Mem.setNodes, h.ne_null, h.ne_rbt]

theorem Mem.modifyInfo_valid (h : Valid rbt p) (f : BitVec 64 → BitVec 64)
    : m.modifyInfo rbt p f = some (m.putInfo p (f (m.node p).rbInfo)) := by
  simp [Mem.modifyInfo, Mem.rbInfo_valid h]

theorem Mem.rbFather_valid (h : Valid rbt p)
    : m.rbFather rbt p = some (RbTree.rbFather (m.node p).rbInfo) := by
  simp [Mem.rbFather, Mem.rbInfo_valid h]

theorem Mem.rbPosition_valid (h : Valid rbt p)
    : m.rbPosition rbt p = some (RbTree.rbPosition (m.node p).rbInfo) := by
  simp [Mem.rbPosition, Mem.rbInfo_valid h]

theorem Mem.rbRedP_valid (h : Valid rbt p)
    : m.rbRedP rbt p = some (rbRed (m.node p).rbInfo) := by
  simp [Mem.rbRedP, h.ne_null, Mem.rbInfo_valid h]

theorem Mem.rbSetFather_valid (h : Valid rbt p) (father : Ptr)
    : m.rbSetFather rbt p father
      = some (m.putInfo p (RbTree.rbSetFather (m.node p).rbInfo father)) :=
  Mem.modifyInfo_valid h _

theorem Mem.rbSetPosition_valid (h : Valid rbt p) (d : Dir)
    : m.rbSetPosition rbt p d
      = some (m.putInfo p (RbTree.rbSetPosition (m.node p).rbInfo d)) :=
  Mem.modifyInfo_valid h _

theorem Mem.rbMarkRed_valid (h : Valid rbt p)
    : m.rbMarkRed rbt p = some (m.putInfo p (RbTree.rbMarkRed (m.node p).rbInfo)) :=
  Mem.modifyInfo_valid h _

theorem Mem.rbMarkBlack_valid (h : Valid rbt p)
    : m.rbMarkBlack rbt p = some (m.putInfo p (RbTree.rbMarkBlack (m.node p).rbInfo)) :=
  Mem.modifyInfo_valid h _

theorem Mem.rbCopyProperties_valid {dst src : Ptr} (hd : Valid rbt dst) (hs : Valid rbt src)
    : m.rbCopyProperties rbt dst src
      = some (m.putInfo dst
          (RbTree.rbCopyProperties (m.node dst).rbInfo (m.node src).rbInfo)) := by
  simp [Mem.rbCopyProperties, Mem.rbInfo_valid hs, Mem.modifyInfo_valid hd]

theorem Mem.rbSwapProperties_valid {a b : Ptr} (ha : Valid rbt a) (hb : Valid rbt b)
    : m.rbSwapProperties rbt a b
      = some ((m.putInfo a
            (RbTree.rbCopyProperties (m.node a).rbInfo (m.node b).rbInfo)).putInfo b
          (RbTree.rbCopyProperties (m.node b).rbInfo (m.node a).rbInfo)) := by
  simp [Mem.rbSwapProperties, Mem.rbInfo_valid ha, Mem.rbInfo_valid hb,
    Mem.modifyInfo_valid ha, Mem.modifyInfo_valid hb, rbSwapProperties_eq]

theorem Mem.rbNodes_rbt (h : rbt ≠ NULL) : m.rbNodes rbt rbt .left = some m.rbtRoot := by
  simp [Mem.rbNodes, h]

theorem Mem.rbRedP_null : m.rbRedP rbt NULL = some false := by simp [Mem.rbRedP]

end Access

section Frame

variable {rbt p q x : Ptr} {m : Mem} {d : Dir} {info : BitVec 64}

theorem Mem.putNodes_node_ne (h : q ≠ p) : (m.putNodes rbt p d x).node q = m.node q := by
  unfold Mem.putNodes
  split
  · rfl
  · simp [h]

theorem Mem.putNodes_rbNodes_self (h : p ≠ rbt)
    : ((m.putNodes rbt p d x).node p).rbNodes = Function.update (m.node p).rbNodes d x := by
  simp [Mem.putNodes, h]

theorem Mem.putNodes_rbInfo : ((m.putNodes rbt p d x).node q).rbInfo = (m.node q).rbInfo := by
  by_cases h : q = p
  · subst h
    unfold Mem.putNodes
    split
    · rfl
    · simp
  · rw [Mem.putNodes_node_ne h]

theorem Mem.putNodes_root_self : (m.putNodes rbt rbt d x).rbtRoot = x := by
  simp [Mem.putNodes]

theorem Mem.putNodes_root_ne (h : p ≠ rbt) : (m.putNodes rbt p d x).rbtRoot = m.rbtRoot := by
  simp [Mem.putNodes, h]

@[simp] theorem Mem.putNodes_minmax : (m.putNodes rbt p d x).rbtMinmax = m.rbtMinmax := by
  unfold Mem.putNodes
  split <;> rfl

theorem Mem.putInfo_node_ne (h : q ≠ p) : (m.putInfo p info).node q = m.node q := by
  simp [Mem.putInfo, h]

theorem Mem.putInfo_rbInfo_self : ((m.putInfo p info).node p).rbInfo = info := by
  simp [Mem.putInfo]

theorem Mem.putInfo_rbNodes : ((m.putInfo p info).node q).rbNodes = (m.node q).rbNodes := by
  by_cases h : q = p
  · subst h; simp [Mem.putInfo]
  · rw [Mem.putInfo_node_ne h]

/-- Writing a link only depends on the node written and the root pointer. -/
theorem Mem.putNodes_congr {m' : Mem} (h : m'.node q = m.node q)
    : (m'.putNodes rbt p d x).node q = (m.putNodes rbt p d x).node q := by
  by_cases same : q = p
  · subst same
    unfold Mem.putNodes
    split <;> simp [h]
  · rw [Mem.putNodes_node_ne same, Mem.putNodes_node_ne same, h]

theorem Mem.putNodes_root_congr {m' : Mem} (h : m'.rbtRoot = m.rbtRoot)
    : (m'.putNodes rbt p d x).rbtRoot = (m.putNodes rbt p d x).rbtRoot := by
  unfold Mem.putNodes
  split <;> simp [h]

@[simp] theorem Mem.putInfo_root : (m.putInfo p info).rbtRoot = m.rbtRoot := rfl

@[simp] theorem Mem.putInfo_minmax : (m.putInfo p info).rbtMinmax = m.rbtMinmax := rfl

@[simp] theorem Mem.putInfo_putInfo (w : BitVec 64)
    : (m.putInfo p info).putInfo p w = m.putInfo p w := by
  simp [Mem.putInfo]

theorem Mem.putMinmax_putInfo (y : Ptr)
    : (m.putInfo p info).putMinmax d y = (m.putMinmax d y).putInfo p info := rfl

@[simp] theorem Mem.putMinmax_node : (m.putMinmax d x).node = m.node := rfl

@[simp] theorem Mem.putMinmax_root : (m.putMinmax d x).rbtRoot = m.rbtRoot := rfl

end Frame

end BSDLibC.RbTree
