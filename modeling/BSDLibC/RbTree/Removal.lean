import BSDLibC.RbTree.Iterate
import BSDLibC.RbTree.Pruning
import BSDLibC.RbTree.Standin

/-! `rb_tree_remove_node` removes exactly one node and keeps everything stored. -/

namespace BSDLibC.RbTree
open BSDLibC.ColorTree

variable {rbt : Ptr} {m : Mem} {ctx : Context Ptr}
variable {compareNodes : Ptr → Ptr → Int} {fuel : Nat}

/-- Leaving out a node of a traversal, seen in either direction, erases it. -/
theorem traverse_eq_erase {T T' : CTree Ptr} {p : Ptr} {d : Dir} {before after : List Ptr}
    (distinct : T.Distinct) (old : T.traverse d = before ++ p :: after)
    (new : T'.traverse d = before ++ after)
    : T'.traverse .right = (T.traverse .right).erase p := by
  have erase {xs ys : List Ptr} (nodup : (xs ++ p :: ys).Nodup)
      : (xs ++ p :: ys).erase p = xs ++ ys := by
    have absent : p ∉ xs := fun early => (List.nodup_append.mp nodup).2.2 p early p (by simp) rfl
    rw [List.erase_append_right _ absent, List.erase_cons_head]
  cases d with
  | right => rw [old, new, erase (old ▸ distinct)]
  | left =>
      have flip (U : CTree Ptr) : U.traverse .right = (U.traverse .left).reverse :=
        U.traverse_other .left
      have nodup := (List.nodup_reverse).mpr (old ▸ CTree.nodup_traverse (d := .left).mpr distinct)
      rw [List.reverse_append, List.reverse_cons, List.append_assoc, List.singleton_append] at nodup
      rw [flip, flip, old, new, List.reverse_append, List.reverse_append, List.reverse_cons,
        List.append_assoc, List.singleton_append, erase nodup]

/-- An inner node of the traversal is no cached extreme. -/
theorem Extremes.ne_inner {minmax : Dir → Ptr} {T : CTree Ptr} {p : Ptr} {d : Dir}
    {before after : List Ptr} (h : Extremes minmax T) (distinct : T.Distinct)
    (split : T.traverse d = before ++ p :: after) (someBefore : before ≠ [])
    (someAfter : after ≠ []) (e : Dir)
    : minmax e ≠ p := by
  have one {d : Dir} {xs ys : List Ptr} (split : T.traverse d = xs ++ p :: ys)
      (nonempty : ys ≠ [])
      : minmax d ≠ p := by
    have extreme := h d _ (by
      rw [split, List.getLast?_append_of_ne_nil _ (by simp),
        List.getLast?_cons_of_ne_nil nonempty, List.getLast?_eq_some_getLast nonempty])
    have nodup := split ▸ CTree.nodup_traverse (d := d).mpr distinct
    rw [extreme]
    intro same
    refine (List.nodup_cons.mp (List.nodup_append.mp nodup).2.1).1 ?_
    rw [← same]
    exact List.getLast_mem nonempty
  rcases d.eq_or_other e with rfl | rfl
  · exact one split someAfter
  · have flipped : T.traverse d.other = after.reverse ++ p :: before.reverse := by
      rw [CTree.traverse_other, split]
      simp
    exact one flipped (by simpa using someBefore)

/-- Leaving out an inner node keeps the extremes. -/
theorem Extremes.drop_inner {minmax : Dir → Ptr} {T T' : CTree Ptr} {p : Ptr} {d : Dir}
    {before after : List Ptr} (h : Extremes minmax T)
    (old : T.traverse d = before ++ p :: after) (new : T'.traverse d = before ++ after)
    (someBefore : before ≠ []) (someAfter : after ≠ [])
    : Extremes minmax T' := by
  rw [Extremes, Dir.forall_iff d] at h ⊢
  simp only [CTree.traverse_other, old, new] at h ⊢
  constructor
  · intro x last
    refine h.1 x ?_
    rw [List.getLast?_append_of_ne_nil _ someAfter] at last
    rw [List.getLast?_append_of_ne_nil _ (by simp), List.getLast?_cons_of_ne_nil someAfter, last]
  · intro x last
    refine h.2 x ?_
    rw [List.getLast?_reverse, List.head?_append_of_ne_nil _ someBefore] at last ⊢
    exact last

/-- Removing a node with two children, whose neighbour in direction `w` is `s`. -/
theorem Stored.swap {red redS : Bool} {p s : Ptr} {w : Dir} {inner : Context Ptr}
    {son O : CTree Ptr}
    (h : Stored rbt compareNodes m
      (plug ctx (.node red p (pair w (plug inner (.node redS s (pair w son .nil))) O))))
    (dirs : ∀ f ∈ inner, f.dir = w.other) (nonempty : O ≠ .nil)
    (enough : ctx.length + inner.length < fuel)
    : ∃ m' T', rbTreeSwapPruneAndRebalance rbt fuel m p s = some m'
        ∧ Stored rbt compareNodes m' T'
        ∧ T'.traverse .right
          = ((plug ctx (.node red p (pair w (plug inner
              (.node redS s (pair w son .nil))) O))).traverse .right).erase p := by
  have focus : At rbt m ctx
      (.node red p (pair w (plug inner (.node redS s (pair w son .nil))) O)) := by
    simpa using h.layout.unplug
  have whole : plug ctx (.node red p (pair w (plug inner (.node redS s (pair w son .nil))) O))
      = plug (inner ++ ⟨w, red, p, O⟩ :: ctx) (.node redS s (pair w son .nil)) := by
    rw [plug_append]
    rfl
  obtain ⟨okS, above, n, flat, heights⟩ := (redBlack_plug _ _).mp (whole ▸ h.redBlack)
  obtain ⟨k, rfl, below⟩ := flat
  obtain rfl : k = 0 := by simpa using below w.other
  have okSon := okS w
  have flatSon := below w
  simp only [pair_self] at okSon flatSon
  have leaf := flatSon.zero_cases okSon.2
  -- The removed node is an inner one: the brother subtree before it, its neighbour after it.
  have noneBefore := beyond_eq_nil dirs
  have old : (plug ctx (.node red p (pair w (plug inner (.node redS s (pair w son .nil))) O))).traverse w
      = ((beyond w.other ctx).reverse ++ O.traverse w)
        ++ p :: (s :: (son.traverse w ++ (beyond w inner ++ beyond w ctx))) := by
    simp [traverse_plug, noneBefore]
  have new : (plug (inner ++ ⟨w, red, s, O⟩ :: ctx) (blacken son)).traverse w
      = ((beyond w.other ctx).reverse ++ O.traverse w)
        ++ (s :: (son.traverse w ++ (beyond w inner ++ beyond w ctx))) := by
    rw [plug_append]
    simp [traverse_plug, noneBefore, Frame.fill, blacken_traverse]
  have someBefore : (beyond w.other ctx).reverse ++ O.traverse w ≠ [] := by
    cases O with
    | nil => exact absurd rfl nonempty
    | node redO o kids => simp
  have uncached := h.extremes.ne_inner h.layout.distinct old someBefore (by simp) (ctxPosition ctx)
  obtain ⟨m₁, run, layout, minmax⟩ :=
    rbTreeSwapPruneAndRebalance_swap focus dirs leaf nonempty uncached fuel
  have elements := traverse_eq_erase h.layout.distinct old new
  have extremes : Extremes m₁.rbtMinmax (plug (inner ++ ⟨w, red, s, O⟩ :: ctx) (blacken son)) := by
    rw [minmax]
    exact h.extremes.drop_inner old new someBefore (by simp)
  have sorted := h.sorted.sublist (List.erase_sublist (a := p))
  replace above := above.reroot s
  replace heights := heights.reroot s
  have depth : (inner ++ ⟨w, red, s, O⟩ :: ctx).length = ctx.length + inner.length + 1 := by
    simp only [List.length_append, List.length_cons]
    omega
  obtain ⟨f, up, frames⟩ : ∃ f up, inner ++ ⟨w, red, s, O⟩ :: ctx = f :: up := by
    cases inner with
    | nil => exact ⟨_, _, rfl⟩
    | cons f rest => exact ⟨_, _, rfl⟩
  rw [frames] at above heights layout run extremes elements depth
  rcases leaf with rfl | ⟨t, rfl⟩
  · cases redS with
    | true =>
        refine ⟨m₁, _, by simpa using run, ⟨layout.top, ?_, elements ▸ sorted, extremes⟩, elements⟩
        exact (redBlack_plug _ _).mpr ⟨trivial, above.black, 0, rfl, heights⟩
    | false =>
        -- A black neighbour without a son leaves a hole that is one black node short.
        obtain ⟨redF, okF, above⟩ := above
        obtain ⟨balF, heights⟩ := heights
        obtain ⟨m', repair, repaired⟩ := rbTreeRemovalRebalance_spec layout
          ⟨rfl, trivial, rfl⟩ ⟨fun red => (redF red).2, okF, balF⟩ above heights
          (show up.length < fuel by simp only [List.length_cons] at depth; omega)
        obtain ⟨T', stored, same⟩ := repaired.stored rfl (elements ▸ sorted) extremes
        exact ⟨m', T', run.trans repair, stored, same.trans elements⟩
  · obtain rfl : redS = false := by
      cases redS with
      | false => rfl
      | true => simpa using okSon.1 rfl
    refine ⟨m₁, _, by simpa using run, ⟨layout.top, ?_, elements ▸ sorted, extremes⟩, elements⟩
    refine (redBlack_plug _ _).mpr ⟨fun d => ⟨by simp, trivial⟩, above, 0 + 1, ?_, heights⟩
    exact CTree.balanced_black.mpr (fun _ => rfl)

/-- `rb_tree_remove_node` of a node of the tree removes exactly it. -/
theorem Stored.remove {T : CTree Ptr} {p : Ptr} (h : Stored rbt compareNodes m T)
    (member : T.Has p) (enough : size T ≤ fuel)
    : ∃ m' T', rbTreeRemoveNode rbt fuel m p = some m'
        ∧ Stored rbt compareNodes m' T'
        ∧ T'.traverse .right = (T.traverse .right).erase p := by
  obtain ⟨ctx, red, kids, rfl⟩ := exists_focus member
  have focus : At rbt m ctx (.node red p kids) := by simpa using h.layout.unplug
  have bound := length_le_size_plug ctx (.node red p kids)
  have valid := focus.tree.1.valid
  have null (d : Dir) : rootPtr (kids d) = NULL ↔ kids d = .nil :=
    (focus.tree.2 d).rootPtr_eq_null
  have split (d : Dir) : (plug ctx (.node red p kids)).traverse d
      = ((beyond d.other ctx).reverse ++ (kids d.other).traverse d)
        ++ p :: ((kids d).traverse d ++ beyond d ctx) := by
    simp [traverse_plug]
  simp only [rbTreeRemoveNode, Mem.rbNodes_valid valid, focus.tree.1.links,
    Mem.rbRedP_valid valid, focus.tree.1.red, Mem.rbPosition_valid valid,
    focus.tree.1.position, Option.bind_eq_bind, Option.bind_some]
  by_cases leaf : rootPtr (kids .left) = NULL ∧ rootPtr (kids .right) = NULL
  · rw [if_pos leaf]
    obtain rfl : kids = fun _ => .nil := by
      funext d
      cases d
      · exact (null _).mp leaf.1
      · exact (null _).mp leaf.2
    have small := size_node red p (fun _ => .nil) .left
    obtain ⟨m', T', run, stored, same⟩ := h.prune (show ctx.length < fuel by omega)
    refine ⟨m', T', run, stored, same.trans ?_⟩
    exact traverse_eq_erase h.layout.distinct (split .right) (by simp [traverse_plug])
  · rw [if_neg leaf]
    by_cases branch : rootPtr (kids .left) = NULL ∨ rootPtr (kids .right) = NULL
    · rw [if_pos branch]
      obtain ⟨w, which, some, none⟩ : ∃ w, (if rootPtr (kids .left) = NULL then Dir.right
          else Dir.left) = w ∧ kids w ≠ .nil ∧ kids w.other = .nil := by
        by_cases left : rootPtr (kids .left) = NULL
        · refine ⟨.right, if_pos left, fun right => leaf ⟨left, (null _).mpr right⟩, ?_⟩
          exact (null _).mp left
        · refine ⟨.left, if_neg left, fun empty => left ((null _).mpr empty), ?_⟩
          exact (null _).mp (branch.resolve_left left)
      rw [which]
      -- With one side empty, the other can only be a red leaf.
      obtain ⟨okT, -, n, flat, -⟩ := (redBlack_plug _ _).mp h.redBlack
      obtain ⟨k, rfl, below⟩ := flat
      obtain rfl : k = 0 := by simpa [none] using below w.other
      obtain ⟨t, son⟩ := ((below w).zero_cases (okT w).2).resolve_left some
      obtain rfl : kids = pair w (.node true t (fun _ => .nil)) .nil := by
        rw [← pair_eta w kids, son, none]
      obtain ⟨m', T', run, stored, same⟩ := h.splice
      refine ⟨m', T', run, stored, same.trans ?_⟩
      exact traverse_eq_erase h.layout.distinct (split w.other) (by simp [traverse_plug])
    · rw [if_neg branch]
      rw [not_or] at branch
      have both : ∀ d, kids d ≠ .nil := by
        intro d empty
        cases d
        · exact branch.1 ((null _).mpr empty)
        · exact branch.2 ((null _).mpr empty)
      generalize (ctxPosition ctx).other = w
      obtain ⟨inner, redS, s, son, same, dirs⟩ := CTree.exists_first (both w) w
      have first : ((kids w).traverse w).head? = some s := by
        rw [same, traverse_plug, beyond_eq_nil dirs]
        simp
      have next : rbTreeIterate rbt fuel m p w = some s := by
        rw [rbTreeIterate_focus focus w (by omega), List.head?_append, first]
        rfl
      rw [next, Option.bind_some]
      have deep := length_le_size_plug inner (.node redS s (pair w son .nil))
      have small := size_node red p kids w
      rw [← same] at deep
      obtain ⟨O, other⟩ : ∃ O, O = kids w.other := ⟨_, rfl⟩
      obtain rfl : kids = pair w (plug inner (.node redS s (pair w son .nil))) O := by
        rw [← same, other, pair_eta]
      exact h.swap dirs (by simpa using both w.other) (by omega)

end BSDLibC.RbTree
