import BSDLibC.ColorTree.Distinct
import BSDLibC.RbTree.Layout

/-! The lookups of `rb.c` against the traversal of the tree they walk down. -/

namespace BSDLibC.RbTree
open BSDLibC.ColorTree

/-- How many nodes a tree has. -/
def size (T : CTree Ptr) : Nat := (T.traverse .right).length

theorem size_node (red : Bool) (p : Ptr) (kids : Dir → CTree Ptr) (d : Dir)
    : size (.node red p kids) = size (kids d) + size (kids d.other) + 1 := by
  cases d <;> simp [size, Dir.other] <;> omega

/-- The comparison result as seen when walking in direction `d`. -/
def facing (d : Dir) (diff : Int) : Int :=
  match d with
  | .right => diff
  | .left => -diff

theorem childIndex_of_neg {d : Dir} {diff : Int} (h : facing d diff < 0)
    : childIndex (decide (diff < 0)) = d := by
  cases d <;> simp only [facing, childIndex] at h ⊢ <;> simp <;> omega

theorem childIndex_of_pos {d : Dir} {diff : Int} (h : 0 < facing d diff)
    : childIndex (decide (diff < 0)) = d.other := by
  cases d <;> simp only [facing, childIndex, Dir.other] at h ⊢ <;> simp <;> omega

@[simp] theorem facing_other (d : Dir) (diff : Int) : facing d.other diff = -facing d diff := by
  cases d <;> simp [facing, Dir.other]

theorem facing_eq_zero {d : Dir} {diff : Int} : facing d diff = 0 ↔ diff = 0 := by
  cases d <;> simp [facing]

/-- A probe that grows along the traversal grows, as faced, along both traversals. -/
theorem Probes.facing {probe : Ptr → Int} {T : CTree Ptr}
    (h : Probes probe (T.traverse .right)) (d : Dir)
    : Probes (fun x => RbTree.facing d (probe x)) (T.traverse d) := by
  cases d with
  | right => exact h
  | left =>
      have flip : T.traverse .left = (T.traverse .right).reverse := T.traverse_other .right
      rw [flip]
      exact ColorTree.Probes.reverse h

variable {rbt : Ptr} {m : Mem} {T : CTree Ptr} {father : Ptr} {position : Dir}
variable {Key : Type} {compareKey : Ptr → Key → Int} {key : Key} {fuel : Nat}

/-- Remembering every node passed on the way back from `d` ends at the first node, walking
in direction `d`, that has reached the key.
-/
theorem rbTreeFind_loop_nearest {keep : Int → Bool} (d : Dir)
    (keeps : ∀ diff, keep diff = true ↔ 0 < facing d diff)
    (h : TreeAt rbt m T father position)
    (probes : Probes (fun x => facing d (compareKey x key)) (T.traverse d))
    (last : Ptr) (enough : size T < fuel)
    : rbTreeFind.loop rbt keep compareKey m key fuel (rootPtr T) last
      = some (((T.traverse d).find? (fun x => 0 ≤ facing d (compareKey x key))).getD last) := by
  induction T generalizing fuel father position last with
  | nil =>
      obtain ⟨fuel, rfl⟩ := Nat.exists_eq_add_of_lt enough
      simp [rbTreeFind.loop]
  | node red p kids ih =>
      cases fuel with
      | zero => omega
      | succ fuel =>
          have smaller := size_node red p kids d
          rw [CTree.traverse_node] at probes ⊢
          rw [rootPtr_node]
          simp only [rbTreeFind.loop, h.1.valid.ne_null, if_false,
            Mem.rbNodes_valid h.1.valid, h.1.links, Option.bind_eq_bind, Option.bind_some]
          rcases Int.lt_trichotomy (facing d (compareKey p key)) 0 with neg | zero | pos
          · have skip : keep (compareKey p key) = false := by
              rw [← Bool.not_eq_true, keeps]
              omega
            rw [if_neg (by rw [← facing_eq_zero (d := d)]; omega), childIndex_of_neg neg, skip,
              find?_nonneg_of_neg probes neg]
            exact ih d (h.2 d) probes.right last (by omega)
          · rw [if_pos (facing_eq_zero.mp zero), find?_nonneg_of_zero probes zero, Option.getD_some]
          · rw [if_neg (by rw [← facing_eq_zero (d := d)]; omega), childIndex_of_pos pos, (keeps _).mpr pos,
              find?_nonneg_of_pos (fun x => facing d (compareKey x key)) _ _ pos,
              Option.getD_some]
            exact ih d.other (h.2 d.other) probes.left p (by omega)

/-- Remembering nothing finds the node that compares equal. -/
theorem rbTreeFind_loop_equal (h : TreeAt rbt m T father position)
    (probes : Probes (compareKey · key) (T.traverse .right)) (last : Ptr)
    (enough : size T < fuel)
    : rbTreeFind.loop rbt (fun _ => false) compareKey m key fuel (rootPtr T) last
      = some (((T.traverse .right).find? (fun x => compareKey x key = 0)).getD last) := by
  induction T generalizing fuel father position with
  | nil =>
      obtain ⟨fuel, rfl⟩ := Nat.exists_eq_add_of_lt enough
      simp [rbTreeFind.loop]
  | node red p kids ih =>
      cases fuel with
      | zero => omega
      | succ fuel =>
          have smaller := size_node red p kids .right
          rw [CTree.traverse_node] at probes ⊢
          rw [rootPtr_node]
          simp only [rbTreeFind.loop, h.1.valid.ne_null, if_false,
            Mem.rbNodes_valid h.1.valid, h.1.links, Option.bind_eq_bind, Option.bind_some,
            Bool.false_eq_true]
          rcases Int.lt_trichotomy (compareKey p key) 0 with neg | zero | pos
          · rw [if_neg (by omega), childIndex_of_neg (d := .right) neg,
              find?_zero_of_neg probes neg]
            exact ih .right (h.2 .right) probes.right (by omega)
          · rw [if_pos zero, find?_zero_of_zero probes zero, Option.getD_some]
          · rw [if_neg (by omega), childIndex_of_pos (d := .right) pos,
              find?_zero_of_pos probes pos]
            exact ih _ (h.2 _) probes.left (by omega)

theorem length_le_size_plug (ctx : Context Ptr) (T : CTree Ptr)
    : ctx.length + size T ≤ size (plug ctx T) := by
  induction ctx generalizing T with
  | nil => simp
  | cons f up ih =>
      have inner := ih (f.fill T)
      have node := size_node f.red f.root (pair f.dir T f.sibling) f.dir
      simp only [Frame.fill, pair_self, pair_other, plug_cons, List.length_cons] at inner node ⊢
      omega

/-- The search of `rb_tree_insert_node` ends at an equal node, or at the empty place
between the smaller and the larger nodes.
-/
theorem rbTreeInsertNode_search_spec {compareNodes : Ptr → Ptr → Int} {object : Ptr}
    {ctx : Context Ptr} (h : At rbt m ctx T)
    (probes : Probes (compareNodes · object) (T.traverse .right))
    (sides : ∀ d, ∀ x ∈ beyond d ctx, 0 < facing d (compareNodes x object))
    (enough : size T < fuel)
    : (∃ x, T.Has x
        ∧ compareNodes x object = 0
        ∧ rbTreeInsertNode.search rbt compareNodes m object fuel (ctxFather rbt ctx)
            (ctxPosition ctx) (rootPtr T) = some (.exists x))
      ∨ ∃ ctx', At rbt m ctx' .nil
        ∧ plug ctx' .nil = plug ctx T
        ∧ (∀ d, ∀ x ∈ beyond d ctx', 0 < facing d (compareNodes x object))
        ∧ rbTreeInsertNode.search rbt compareNodes m object fuel (ctxFather rbt ctx)
            (ctxPosition ctx) (rootPtr T)
          = some (.vacant (ctxFather rbt ctx') (ctxPosition ctx')) := by
  induction T generalizing fuel ctx with
  | nil =>
      obtain ⟨fuel, rfl⟩ := Nat.exists_eq_add_of_lt enough
      exact Or.inr ⟨ctx, h, rfl, sides, by simp [rbTreeInsertNode.search]⟩
  | node red p kids ih =>
      cases fuel with
      | zero => omega
      | succ fuel =>
          have valid := h.tree.1.valid
          rw [rootPtr_node]
          simp only [rbTreeInsertNode.search, valid.ne_null, if_false,
            Mem.rbNodes_valid valid, h.tree.1.links, Option.bind_eq_bind, Option.bind_some]
          by_cases zero : compareNodes p object = 0
          · exact Or.inl ⟨p, CTree.has_root, zero, by rw [if_pos zero]⟩
          rw [if_neg zero]
          -- The turn taken faces the object from the current node.
          obtain ⟨d, neg⟩ : ∃ d, facing d (compareNodes p object) < 0 := by
            rcases Int.lt_or_gt_of_ne zero with neg | pos
            · exact ⟨.right, neg⟩
            · exact ⟨.left, by simpa [facing] using pos⟩
          rw [childIndex_of_neg neg]
          have faced := Probes.facing probes d
          rw [CTree.traverse_node] at faced
          have smaller := size_node red p kids d
          have sides' : ∀ e, ∀ x ∈ beyond e (⟨d, red, p, kids d.other⟩ :: ctx),
              0 < facing e (compareNodes x object) := by
            rw [Dir.forall_iff d]
            refine ⟨by rw [beyond_cons_same]; exact sides d, ?_⟩
            rw [beyond_cons_other]
            intro x hx
            rcases List.mem_cons.mp hx with rfl | hx
            · rw [facing_other]
              omega
            rcases List.mem_append.mp hx with hx | hx
            · have below := faced.neg_left (by omega) x (CTree.mem_traverse_other.mp hx)
              rw [facing_other]
              omega
            · exact sides d.other x hx
          have probes' : Probes (compareNodes · object) ((kids d).traverse .right) :=
            probes.sublist (CTree.traverse_child_sublist red p kids d .right)
          rcases ih d (h.down d) probes' sides' (by omega : size (kids d) < fuel) with
            ⟨x, member, equal, run⟩ | ⟨ctx', focus, same, sides', run⟩
          · exact Or.inl ⟨x, CTree.has_child member, equal, run⟩
          · exact Or.inr ⟨ctx', focus, same.trans (plug_child ctx red p kids d), sides', run⟩

end BSDLibC.RbTree
