import BSDLibC.ColorTree.Distinct
import Mathlib.Algebra.Order.Ring.Nat
import Mathlib.Logic.Function.Basic

/-! Binary trees that lie in a memory of links. A tree is given as a coloured tree of which the
colours do not matter, seen from a hole in it, and a link is written through a cursor.
-/

namespace BSDLibC.LinkedTree
open BSDLibC.ColorTree

variable {α : Type}

/-- A place where a link is stored: the one to the root, or a child of a node. -/
inductive Cursor (α : Type)
  | top
  | child (a : α) (d : Dir)

structure Links (α : Type) where
  top : Option α
  child : α → Dir → Option α

def Links.get (s : Links α) : Cursor α → Option α
  | .top => s.top
  | .child a d => s.child a d

def Links.put [DecidableEq α] (s : Links α) (value : Option α) : Cursor α → Links α
  | .top => { s with top := value }
  | .child a d => { s with child := Function.update s.child a (Function.update (s.child a) d value) }

/-- The link that leads to a tree. -/
def link : CTree α → Option α
  | .nil => none
  | .node _ a _ => some a

/-- The cursor at a hole. -/
def cursor : Context α → Cursor α
  | [] => .top
  | f :: _ => .child f.root f.dir

def TreeAt (child : α → Dir → Option α) : CTree α → Prop
  | .nil => True
  | .node _ a kids => ∀ d, child a d = link (kids d) ∧ TreeAt child (kids d)

/-- The nodes around a hole, where the link holds `hole`. -/
def CtxAt (s : Links α) : Context α → Option α → Prop
  | [], hole => s.top = hole
  | f :: up, hole =>
      s.child f.root f.dir = hole
      ∧ s.child f.root f.dir.other = link f.sibling
      ∧ TreeAt s.child f.sibling
      ∧ CtxAt s up (some f.root)

/-- A tree lies in the memory, seen from a hole. -/
structure At (s : Links α) (ctx : Context α) (T : CTree α) : Prop where
  context : CtxAt s ctx (link T)
  tree : TreeAt s.child T
  distinct : (plug ctx T).Distinct

variable {s s' : Links α} {ctx up : Context α} {T : CTree α} {f : Frame α} {hole : Option α}

@[simp] theorem link_nil : link (.nil : CTree α) = none := rfl

@[simp] theorem link_node (red : Bool) (a : α) (kids : Dir → CTree α)
    : link (.node red a kids) = some a :=
  rfl

theorem link_eq_none : link T = none ↔ T = .nil := by
  cases T <;> simp

@[simp] theorem cursor_nil : cursor ([] : Context α) = .top := rfl

@[simp] theorem cursor_cons (f : Frame α) (up : Context α) : cursor (f :: up) = .child f.root f.dir := rfl

-----------------------------------------------------------------------------------------
-- Moving the hole
-----------------------------------------------------------------------------------------

theorem CtxAt.get (h : CtxAt s ctx hole) : s.get (cursor ctx) = hole := by
  cases ctx with
  | nil => exact h
  | cons f up => exact h.1

theorem At.get (h : At s ctx T) : s.get (cursor ctx) = link T := h.context.get

theorem At.down {red : Bool} {a : α} {kids : Dir → CTree α} (h : At s ctx (.node red a kids)) (d : Dir)
    : At s (⟨d, red, a, kids d.other⟩ :: ctx) (kids d) := by
  refine ⟨⟨(h.tree d).1, (h.tree d.other).1, (h.tree d.other).2, h.context⟩, (h.tree d).2, ?_⟩
  rw [plug_child]
  exact h.distinct

theorem At.rise (h : At s (f :: up) T) : At s up (f.fill T) := by
  obtain ⟨⟨here, there, sibling, above⟩, tree, distinct⟩ := h
  refine ⟨above, fun d => ?_, distinct⟩
  rcases f.dir.eq_or_other d with rfl | rfl
  · rw [pair_self]
    exact ⟨here, tree⟩
  · rw [pair_other]
    exact ⟨there, sibling⟩

/-- From a hole up to the root. -/
theorem At.whole (h : At s ctx T) : At s [] (plug ctx T) := by
  induction ctx generalizing T with
  | nil => exact h
  | cons f up ih => exact ih h.rise

theorem At.rise_append {inner : Context α} (h : At s (inner ++ ctx) T) : At s ctx (plug inner T) := by
  induction inner generalizing T with
  | nil => exact h
  | cons f inner ih => exact ih h.rise

/-- From the root down to a hole. -/
theorem At.focus (h : At s up (plug ctx T)) : At s (ctx ++ up) T := by
  induction ctx generalizing T with
  | nil => exact h
  | cons f rest ih =>
      have filled := (ih h).down f.dir
      rw [pair_self, pair_other] at filled
      exact filled

theorem At.enter (h : At s [] (plug ctx T)) : At s ctx T := by
  have focus := h.focus
  rwa [List.append_nil] at focus

-----------------------------------------------------------------------------------------
-- Changes elsewhere
-----------------------------------------------------------------------------------------

theorem TreeAt.congr {child child' : α → Dir → Option α} (h : TreeAt child T)
    (agree : ∀ a, T.Has a → child' a = child a)
    : TreeAt child' T := by
  induction T with
  | nil => trivial
  | node red a kids ih =>
      intro d
      rw [agree a CTree.has_root]
      exact ⟨(h d).1, ih d (h d).2 fun b inside => agree b (CTree.has_child inside)⟩

theorem CtxAt.congr (h : CtxAt s ctx hole) (top : s'.top = s.top)
    (agree : ∀ a, Has ctx a → s'.child a = s.child a)
    : CtxAt s' ctx hole := by
  induction ctx generalizing hole with
  | nil => exact top.trans h
  | cons f up ih =>
      obtain ⟨here, there, sibling, above⟩ := h
      rw [CtxAt, agree f.root (has_cons.mpr (Or.inl rfl))]
      refine ⟨here, there, sibling.congr fun a inside => ?_, ih above fun a inside => ?_⟩
      · exact agree a (has_cons.mpr (Or.inr (Or.inl inside)))
      · exact agree a (has_cons.mpr (Or.inr (Or.inr inside)))

theorem At.congr (h : At s ctx T) (top : s'.top = s.top)
    (agree : ∀ a, (plug ctx T).Has a → s'.child a = s.child a)
    : At s' ctx T :=
  ⟨h.context.congr top fun a inside => agree a (has_plug.mpr (Or.inr inside)),
    h.tree.congr fun a inside => agree a (has_plug.mpr (Or.inl inside)), h.distinct⟩

/-- The frames around a hole do not depend on the colours or on what is in the hole. -/
theorem At.ctxDistinct (h : At s ctx T) : Distinct ctx := ((distinct_plug ctx T).mp h.distinct).2.1

-----------------------------------------------------------------------------------------
-- Writing a link
-----------------------------------------------------------------------------------------

section
variable [DecidableEq α]

@[simp] theorem Links.put_top (s : Links α) (value : Option α) : (s.put value .top).top = value := rfl

@[simp] theorem Links.put_top_child (s : Links α) (value : Option α)
    : (s.put value .top).child = s.child :=
  rfl

@[simp] theorem Links.put_child_top (s : Links α) (value : Option α) (a : α) (d : Dir)
    : (s.put value (.child a d)).top = s.top :=
  rfl

theorem Links.put_child_ne {a b : α} (ne : b ≠ a) (s : Links α) (value : Option α) (d : Dir)
    : (s.put value (.child a d)).child b = s.child b :=
  Function.update_of_ne ne _ _

@[simp] theorem Links.put_child_self (s : Links α) (value : Option α) (a : α) (d : Dir)
    : (s.put value (.child a d)).child a d = value := by
  simp [Links.put]

@[simp] theorem Links.put_child_other (s : Links α) (value : Option α) (a : α) (d : Dir)
    : (s.put value (.child a d)).child a d.other = s.child a d.other := by
  simp [Links.put]

/-- Nodes outside of the frames keep their links when the hole is written. -/
theorem Links.put_cursor_child {a : α} (outside : ¬ Has ctx a) (s : Links α) (value : Option α)
    : (s.put value (cursor ctx)).child a = s.child a := by
  cases ctx with
  | nil => rfl
  | cons f up =>
      refine Links.put_child_ne ?_ s value f.dir
      rintro rfl
      exact outside (has_cons.mpr (Or.inl rfl))

theorem CtxAt.put (h : CtxAt s ctx hole) (distinct : Distinct ctx) (value : Option α)
    : CtxAt (s.put value (cursor ctx)) ctx value := by
  cases ctx with
  | nil => rfl
  | cons f up =>
      obtain ⟨here, there, sibling, above⟩ := h
      obtain ⟨-, notSibling, notAbove, -, -⟩ := distinct
      refine ⟨by simp, by simpa using there, sibling.congr fun a inside => ?_,
        above.congr rfl fun a inside => ?_⟩
      · refine Links.put_child_ne ?_ s value f.dir
        rintro rfl
        exact notSibling inside
      · refine Links.put_child_ne ?_ s value f.dir
        rintro rfl
        exact notAbove inside

/-- A tree that lies elsewhere is linked into the hole. -/
theorem CtxAt.put_tree (h : CtxAt s ctx hole) (tree : TreeAt s.child T)
    (distinct : (plug ctx T).Distinct)
    : At (s.put (link T) (cursor ctx)) ctx T := by
  obtain ⟨-, around, apart⟩ := (distinct_plug ctx T).mp distinct
  refine ⟨h.put around (link T), tree.congr fun a inside => ?_, distinct⟩
  exact Links.put_cursor_child (apart a inside) s (link T)

end

-----------------------------------------------------------------------------------------
-- Trees whose nodes also know their parents
-----------------------------------------------------------------------------------------

/-- The node above a hole. -/
def owner : Context α → Option α
  | [] => none
  | f :: _ => some f.root

def ParentsAt (parent : α → Option α) : Option α → CTree α → Prop
  | _, .nil => True
  | above, .node _ a kids => parent a = above ∧ ∀ d, ParentsAt parent (some a) (kids d)

/-- The parents of the nodes around a hole. -/
def ParentsCtx (parent : α → Option α) : Context α → Prop
  | [] => True
  | f :: up =>
      parent f.root = owner up
      ∧ ParentsAt parent (some f.root) f.sibling
      ∧ ParentsCtx parent up

/-- A tree lies in the memory below `above`. -/
structure Lies (child : α → Dir → Option α) (parent : α → Option α) (above : Option α) (T : CTree α)
    : Prop where
  tree : TreeAt child T
  parents : ParentsAt parent above T

variable {child child' : α → Dir → Option α} {parent parent' : α → Option α} {above above' : Option α}
  {T : CTree α} {ctx : Context α}

theorem lies_nil : Lies child parent above .nil := ⟨trivial, trivial⟩

theorem lies_node {red : Bool} {a : α} {kids : Dir → CTree α}
    : Lies child parent above (.node red a kids)
      ↔ parent a = above ∧ ∀ d, child a d = link (kids d) ∧ Lies child parent (some a) (kids d) := by
  constructor
  · rintro ⟨tree, here, below⟩
    exact ⟨here, fun d => ⟨(tree d).1, (tree d).2, below d⟩⟩
  · rintro ⟨here, below⟩
    exact ⟨fun d => ⟨(below d).1, (below d).2.tree⟩, here, fun d => (below d).2.parents⟩

theorem parentsAt_plug
    : ParentsAt parent none (plug ctx T) ↔ ParentsAt parent (owner ctx) T ∧ ParentsCtx parent ctx := by
  induction ctx generalizing T with
  | nil => simp [owner, ParentsCtx]
  | cons f up ih =>
      rw [plug_cons, ih, Frame.fill, ParentsAt, Dir.forall_iff f.dir, pair_self, pair_other, ParentsCtx]
      simp only [owner]
      tauto

theorem ParentsAt.congr (h : ParentsAt parent above T) (agree : ∀ a, T.Has a → parent' a = parent a)
    : ParentsAt parent' above T := by
  induction T generalizing above with
  | nil => trivial
  | node red a kids ih =>
      refine ⟨(agree a CTree.has_root).trans h.1, fun d => ih d (h.2 d) fun b inside => ?_⟩
      exact agree b (CTree.has_child inside)

theorem ParentsCtx.congr (h : ParentsCtx parent ctx) (agree : ∀ a, Has ctx a → parent' a = parent a)
    : ParentsCtx parent' ctx := by
  induction ctx with
  | nil => trivial
  | cons f up ih =>
      obtain ⟨here, sibling, above⟩ := h
      refine ⟨(agree f.root (has_cons.mpr (Or.inl rfl))).trans here, sibling.congr fun a inside => ?_,
        ih above fun a inside => ?_⟩
      · exact agree a (has_cons.mpr (Or.inr (Or.inl inside)))
      · exact agree a (has_cons.mpr (Or.inr (Or.inr inside)))

theorem Lies.congr (h : Lies child parent above T) (children : ∀ a, T.Has a → child' a = child a)
    (parents : ∀ a, T.Has a → parent' a = parent a)
    : Lies child' parent' above T :=
  ⟨h.tree.congr children, h.parents.congr parents⟩

/-- The root of a tree gets another parent. -/
theorem Lies.adopt (h : Lies child parent above T) (distinct : T.Distinct)
    (children : ∀ a, T.Has a → child' a = child a) (root : ∀ a, link T = some a → parent' a = above')
    (parents : ∀ a, T.Has a → link T ≠ some a → parent' a = parent a)
    : Lies child' parent' above' T := by
  refine ⟨h.tree.congr children, ?_⟩
  cases T with
  | nil => trivial
  | node red a kids =>
      refine ⟨root a rfl, fun d => (h.parents.2 d).congr fun b inside => ?_⟩
      refine parents b (CTree.has_child inside) fun same => ?_
      cases Option.some.inj same
      obtain ⟨-, -, notHere, -, -⟩ := (CTree.distinct_node d).mp distinct
      exact notHere inside

end BSDLibC.LinkedTree
