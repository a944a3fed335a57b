import BSDLibC.RbTree.Search

/-! `rb_tree_iterate` steps to the next node of the traversal in the asked direction. -/

namespace BSDLibC.RbTree
open BSDLibC.ColorTree

variable {rbt : Ptr} {m : Mem} {ctx : Context Ptr} {T : CTree Ptr} {fuel : Nat}

/-- Climbing ends at the first node beyond the focus. -/
theorem rbTreeIterate_climb_spec (h : At rbt m ctx T) (ne : rootPtr T ≠ NULL) (d : Dir)
    (enough : ctx.length < fuel)
    : rbTreeIterate.climb rbt m d.other fuel (rootPtr T)
      = some ((beyond d ctx).head?.getD NULL) := by
  induction ctx generalizing T fuel with
  | nil =>
      obtain ⟨fuel, rfl⟩ := Nat.exists_eq_add_of_lt enough
      have root := (h.root_iff ne).mpr rfl
      simp [rbTreeIterate.climb, root]
  | cons f up ih =>
      cases fuel with
      | zero => omega
      | succ fuel =>
          obtain ⟨red, p, kids, rfl⟩ : ∃ red p kids, T = .node red p kids := by
            cases T with
            | nil => simp at ne
            | node red p kids => exact ⟨red, p, kids, rfl⟩
          have inner : m.rbtRoot ≠ p := by
            have root := h.root_iff ne
            rw [rootPtr_node] at root
            rw [Ne, root]
            simp
          have father := h.tree.1.father
          have position := h.tree.1.position
          obtain ⟨e, redF, q, S⟩ := f
          rw [rootPtr_node]
          simp only [rbTreeIterate.climb, if_neg inner, Mem.rbFather_valid h.tree.1.valid, Mem.rbPosition_valid h.tree.1.valid, father,
            position, ctxFather_cons, ctxPosition_cons, Option.bind_eq_bind, Option.bind_some]
          rcases d.eq_or_other e with rfl | rfl
          · rw [if_neg (Dir.other_ne _), beyond_cons_same]
            exact ih h.up h.frame.1.ne_null (by simp at enough; omega)
          · rw [if_pos rfl, beyond_other_cons]
            rfl

/-- Descending ends at the first node of the subtree. -/
theorem rbTreeIterate_descend_spec {father : Ptr} {position : Dir}
    (h : TreeAt rbt m T father position) (ne : rootPtr T ≠ NULL) (d : Dir)
    (enough : size T ≤ fuel)
    : rbTreeIterate.descend rbt m d.other fuel (rootPtr T)
      = some ((T.traverse d).head?.getD NULL) := by
  induction T generalizing fuel father position with
  | nil => simp at ne
  | node red p kids ih =>
      have smaller := size_node red p kids d
      cases fuel with
      | zero => omega
      | succ fuel =>
          simp only [rbTreeIterate.descend, rootPtr_node, Mem.rbNodes_valid h.1.valid, h.1.links,
            Option.bind_eq_bind, Option.bind_some]
          by_cases last : rootPtr (kids d.other) = NULL
          · have empty := (h.2 d.other).rootPtr_eq_null.mp last
            rw [if_pos last, CTree.traverse_node, empty]
            rfl
          · rw [if_neg last, ih d.other (h.2 d.other) last (by omega), CTree.traverse_node]
            cases hk : kids d.other with
            | nil => simp [hk] at last
            | node red' q kids' =>
                rw [List.head?_append_of_ne_nil _ (by simp)]

/-- One step of iteration at the focus. -/
theorem rbTreeIterate_focus {red : Bool} {p : Ptr} {kids : Dir → CTree Ptr}
    (h : At rbt m ctx (.node red p kids)) (d : Dir)
    (enough : ctx.length + size (.node red p kids) ≤ fuel)
    : rbTreeIterate rbt fuel m p d
      = some (((kids d).traverse d ++ beyond d ctx).head?.getD NULL) := by
  have valid := h.tree.1.valid
  have smaller := size_node red p kids d
  simp only [rbTreeIterate, if_neg valid.ne_null, Mem.rbNodes_valid valid, h.tree.1.links,
    Option.bind_eq_bind, Option.bind_some]
  by_cases last : rootPtr (kids d) = NULL
  · have empty := (h.tree.2 d).rootPtr_eq_null.mp last
    rw [if_pos last, empty]
    exact rbTreeIterate_climb_spec h valid.ne_null d (by omega)
  · rw [if_neg last, rbTreeIterate_descend_spec (h.tree.2 d) last d (by omega)]
    cases hk : kids d with
    | nil => simp [hk] at last
    | node red' q kids' =>
        rw [List.head?_append_of_ne_nil _ (by simp)]

/-- One step of iteration in the whole traversal. -/
theorem rbTreeIterate_spec (h : At rbt m [] T) {p : Ptr} {d : Dir} {before after : List Ptr}
    (split : T.traverse d = before ++ p :: after) (enough : size T ≤ fuel)
    : rbTreeIterate rbt fuel m p d = some (after.head?.getD NULL) := by
  have member : T.Has p := by
    rw [← CTree.mem_traverse (d := d), split]
    simp
  obtain ⟨ctx, red, kids, rfl⟩ := exists_focus member
  have focus : At rbt m ctx (.node red p kids) := by simpa using h.unplug
  have bound := length_le_size_plug ctx (.node red p kids)
  rw [rbTreeIterate_focus focus d (by omega)]
  -- A node splits a duplicate-free traversal in one way only.
  have nodup : ((plug ctx (.node red p kids)).traverse d).Nodup :=
    CTree.nodup_traverse.mpr h.distinct
  have whole : (plug ctx (.node red p kids)).traverse d
      = ((beyond d.other ctx).reverse ++ (kids d.other).traverse d)
        ++ p :: ((kids d).traverse d ++ beyond d ctx) := by
    simp [traverse_plug]
  rw [split] at whole nodup
  obtain ⟨-, inRest, apart⟩ := List.nodup_append.mp nodup
  have unique := List.append_cons_inj_of_notMem
    (fun early => apart p early p (by simp) rfl) (List.nodup_cons.mp inRest).1 |>.mp whole
  rw [unique.2.2]

end BSDLibC.RbTree
