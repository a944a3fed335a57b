import BSDLibC.LinkedTree.Layout
import BSDLibC.Rpst.Tree

/-! What the writes of `rpst.c` leave alone, and how a subtree is exchanged at a pointer. -/

namespace BSDLibC.Rpst
open BSDLibC.ColorTree BSDLibC.LinkedTree

def State.links (s : State) : Links Addr := ⟨s.tRoot, fun a => (s.node a).nChildren⟩

def State.parent (s : State) (a : Addr) : Option Addr := (s.node a).nParent

/-- A tree is in the memory, below the node `above`. -/
def State.Lies (s : State) (above : Option Addr) (T : CTree Addr) : Prop :=
  LinkedTree.Lies s.links.child s.parent above T

variable {s s₁ s' : State} {w : Cursor Addr} {value above : Option Addr} {a b c n cur t : Addr} {d : Dir}
  {T T' sibling : CTree Addr} {touched touched₁ : Addr → Prop}

theorem lies_tree_node {red : Bool} {kids : Dir → CTree Addr}
    : s.Lies above (.node red a kids)
      ↔ (s.node a).nParent = above
        ∧ ∀ d, (s.node a).nChildren d = link (kids d) ∧ s.Lies (some a) (kids d) :=
  lies_node

/-- An assertion that holds. -/
theorem guard_of {p : Prop} [Decidable p] (holds : p) : (guard p : Option Unit) = some () := if_pos holds

/-- The nodes of a tree are the same in another memory. -/
theorem State.Lies.same (h : s.Lies above T) (agree : ∀ a, T.Has a → s'.node a = s.node a)
    : s'.Lies above T := by
  refine h.congr (fun a inside => ?_) (fun a inside => ?_)
  · exact congrArg Node.nChildren (agree a inside)
  · exact congrArg Node.nParent (agree a inside)

-----------------------------------------------------------------------------------------
-- Single writes
-----------------------------------------------------------------------------------------

/-- The coordinates of all nodes are the same. -/
def SamePoints (s s' : State) : Prop := ∀ b, (s'.node b).nX = (s.node b).nX ∧ (s'.node b).nY = (s.node b).nY

theorem SamePoints.trans (h₁ : SamePoints s s₁) (h₂ : SamePoints s₁ s') : SamePoints s s' :=
  fun b => ⟨(h₂ b).1.trans (h₁ b).1, (h₂ b).2.trans (h₁ b).2⟩

theorem put_points (s : State) (value : Option Addr) (w : Cursor Addr) : SamePoints s (s.put value w) := by
  intro b
  cases w with
  | top => exact ⟨rfl, rfl⟩
  | child a d => by_cases here : b = a <;> simp [State.put, here]

@[simp] theorem put_tHeight (s : State) (value : Option Addr) (w : Cursor Addr)
    : (s.put value w).tHeight = s.tHeight := by
  cases w <;> rfl

@[simp] theorem put_nParent (s : State) (value : Option Addr) (w : Cursor Addr) (b : Addr)
    : ((s.put value w).node b).nParent = (s.node b).nParent := by
  cases w with
  | top => rfl
  | child a d => by_cases here : b = a <;> simp [State.put, here]

theorem put_child_ne (ne : b ≠ a) (s : State) (value : Option Addr) (d : Dir)
    : (s.put value (.child a d)).node b = s.node b :=
  Function.update_of_ne ne _ _

@[simp] theorem put_child_self (s : State) (value : Option Addr) (a : Addr) (d : Dir)
    : ((s.put value (.child a d)).node a).nChildren d = value := by
  simp [State.put]

@[simp] theorem put_child_other (s : State) (value : Option Addr) (a : Addr) (d : Dir)
    : ((s.put value (.child a d)).node a).nChildren d.other = (s.node a).nChildren d.other := by
  simp [State.put]

@[simp] theorem get_put (s : State) (value : Option Addr) (w : Cursor Addr)
    : (s.put value w).get w = value := by
  cases w with
  | top => rfl
  | child a d => exact put_child_self s value a d

/-- Writing what is there changes nothing. -/
theorem put_get (holds : s.get w = value) : s.put value w = s := by
  subst holds
  cases w with
  | top => rfl
  | child a d => simp [State.put, State.get]

theorem put_links (s : State) (value : Option Addr) (w : Cursor Addr)
    : (s.put value w).links = s.links.put value w := by
  cases w with
  | top => rfl
  | child a d =>
      simp only [State.put, State.links, Links.put, Links.mk.injEq, true_and]
      funext b
      by_cases here : b = a
      · subst here
        simp
      · simp [here]

/-- The pointer is not inside of a set of nodes. -/
def Outside (touched : Addr → Prop) : Cursor Addr → Prop
  | .top => True
  | .child a _ => ¬ touched a

theorem Outside.put_node (outside : Outside touched w) (s : State) (value : Option Addr) (inside : touched b)
    : (s.put value w).node b = s.node b := by
  cases w with
  | top => rfl
  | child a d =>
      refine put_child_ne ?_ s value d
      rintro rfl
      exact outside inside

-----------------------------------------------------------------------------------------
-- `rpst_update_parents`
-----------------------------------------------------------------------------------------

theorem setParent_points (s : State) (a : Addr) (p : Option Addr) : SamePoints s (s.setParent a p) := by
  intro b
  by_cases here : b = a <;> simp [State.setParent, here]

@[simp] theorem setParent_nChildren (s : State) (a : Addr) (p : Option Addr) (b : Addr)
    : ((s.setParent a p).node b).nChildren = (s.node b).nChildren := by
  by_cases here : b = a <;> simp [State.setParent, here]

theorem setParent_nParent (s : State) (a : Addr) (p : Option Addr) (b : Addr)
    : ((s.setParent a p).node b).nParent = if b = a then p else (s.node b).nParent := by
  by_cases here : b = a <;> simp [State.setParent, here]

theorem setChildren_points (s : State) (a : Addr) (children : Dir → Option Addr)
    : SamePoints s (s.setChildren a children) := by
  intro b
  by_cases here : b = a <;> simp [State.setChildren, here]

theorem setChildren_nChildren (s : State) (a : Addr) (children : Dir → Option Addr) (b : Addr)
    : ((s.setChildren a children).node b).nChildren
      = if b = a then children else (s.node b).nChildren := by
  by_cases here : b = a <;> simp [State.setChildren, here]

@[simp] theorem setChildren_nParent (s : State) (a : Addr) (children : Dir → Option Addr) (b : Addr)
    : ((s.setChildren a children).node b).nParent = (s.node b).nParent := by
  by_cases here : b = a <;> simp [State.setChildren, here]

@[simp] theorem child_nChildren (s : State) (n : Addr) (i : Dir) (b : Addr)
    : ((rpstUpdateParents.child n s i).node b).nChildren = (s.node b).nChildren := by
  rw [rpstUpdateParents.child]
  split
  · rfl
  · exact setParent_nChildren s _ _ b

theorem child_nParent (s : State) (n : Addr) (i : Dir) (b : Addr)
    : ((rpstUpdateParents.child n s i).node b).nParent
      = if (s.node n).nChildren i = some b then some n else (s.node b).nParent := by
  rw [rpstUpdateParents.child]
  split
  next missing => simp [missing]
  next c present =>
    rw [setParent_nParent, present]
    exact if_congr (by rw [Option.some.injEq, eq_comm]) rfl rfl

theorem child_rest (s : State) (n : Addr) (i : Dir)
    : SamePoints s (rpstUpdateParents.child n s i)
      ∧ (rpstUpdateParents.child n s i).tRoot = s.tRoot
      ∧ (rpstUpdateParents.child n s i).tHeight = s.tHeight := by
  rw [rpstUpdateParents.child]
  split
  · exact ⟨fun b => ⟨rfl, rfl⟩, rfl, rfl⟩
  · exact ⟨setParent_points _ _ _, rfl, rfl⟩

@[simp] theorem updateParents_nChildren (s : State) (n b : Addr)
    : ((rpstUpdateParents s n).node b).nChildren = (s.node b).nChildren := by
  simp [rpstUpdateParents]

theorem updateParents_nParent (s : State) (n b : Addr)
    : ((rpstUpdateParents s n).node b).nParent
      = if (s.node n).nChildren .left = some b ∨ (s.node n).nChildren .right = some b then some n
        else (s.node b).nParent := by
  simp only [rpstUpdateParents, List.foldl_cons, List.foldl_nil, child_nParent, child_nChildren]
  by_cases right : (s.node n).nChildren .right = some b <;> simp [right]

theorem updateParents_rest (s : State) (n : Addr)
    : SamePoints s (rpstUpdateParents s n)
      ∧ (rpstUpdateParents s n).tRoot = s.tRoot
      ∧ (rpstUpdateParents s n).tHeight = s.tHeight := by
  obtain ⟨points₁, root₁, height₁⟩ := child_rest s n .left
  obtain ⟨points₂, root₂, height₂⟩ := child_rest (rpstUpdateParents.child n s .left) n .right
  exact ⟨points₁.trans points₂, root₂.trans root₁, height₂.trans height₁⟩

-----------------------------------------------------------------------------------------
-- Exchange of a subtree
-----------------------------------------------------------------------------------------

/-- Apart from some nodes, only the pointer has changed. -/
structure Kept (s s' : State) (w : Cursor Addr) (value : Option Addr) (touched : Addr → Prop) : Prop where
  frame : ∀ b, ¬ touched b → s'.node b = (s.put value w).node b
  root : s'.tRoot = (s.put value w).tRoot
  height : s'.tHeight = s.tHeight
  points : SamePoints s s'

/-- A tree has come to the pointer. -/
structure Fills (s s' : State) (w : Cursor Addr) (above : Option Addr) (T : CTree Addr)
    (touched : Addr → Prop)
    : Prop where
  lies : s'.Lies above T
  kept : Kept s s' w (link T) touched

/-- A node has come to the pointer, with a place for a child that is not there yet. -/
structure Rooted (s s₁ : State) (w : Cursor Addr) (above : Option Addr) (t : Addr) (d : Dir)
    (sibling : CTree Addr) (touched : Addr → Prop)
    : Prop where
  parent : (s₁.node t).nParent = above
  other : (s₁.node t).nChildren d.other = link sibling
  lies : s₁.Lies (some t) sibling
  kept : Kept s s₁ w (some t) touched

theorem Kept.get (kept : Kept s s' w value touched) (outside : Outside touched w) : s'.get w = value := by
  cases w with
  | top => exact kept.root
  | child a d =>
      rw [State.get, kept.frame a outside]
      exact put_child_self s value a d

theorem Kept.trans {d : Dir} (kept : Kept s s₁ w (some t) touched)
    (below : Kept s₁ s' (.child t d) value touched₁) (inside : ∀ b, touched₁ b → touched b)
    (top : touched t)
    : Kept s s' w (some t) touched := by
  refine ⟨fun b far => ?_, below.root.trans kept.root, below.height.trans kept.height,
    kept.points.trans below.points⟩
  rw [below.frame b (fun near => far (inside b near)), put_child_ne ?_, kept.frame b far]
  rintro rfl
  exact far top

/-- The child comes to its place. -/
theorem Rooted.fill (rooted : Rooted s s₁ w above t d sibling touched)
    (below : Fills s₁ s' (.child t d) (some t) T touched₁) (red : Bool)
    (inside : ∀ b, touched₁ b → touched b) (top : touched t) (apart : ¬ touched₁ t)
    (notTop : ¬ sibling.Has t) (notSibling : ∀ b, sibling.Has b → ¬ touched₁ b)
    : Fills s s' w above (.node red t (pair d T sibling)) touched := by
  refine ⟨lies_tree_node.mpr ⟨?_, (Dir.forall_iff d).mpr ⟨?_, ?_⟩⟩, rooted.kept.trans below.kept inside top⟩
  · rw [below.kept.frame t apart, put_nParent]
    exact rooted.parent
  · rw [pair_self, below.kept.frame t apart, put_child_self]
    exact ⟨rfl, below.lies⟩
  · rw [pair_other, below.kept.frame t apart, put_child_other]
    refine ⟨rooted.other, rooted.lies.same fun b member => ?_⟩
    rw [below.kept.frame b (notSibling b member)]
    refine put_child_ne ?_ _ _ _
    rintro rfl
    exact notTop member

end BSDLibC.Rpst
