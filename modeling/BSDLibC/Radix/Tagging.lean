import BSDLibC.Radix.Map

/-! Setting and clearing tags. The loops look at a whole mask at once and stop at the first entry
with one of its tags, so with several tags in the mask they may stop too soon.
-/

namespace BSDLibC.Radix

variable {P : Type} {t : Tree P} {idx : UInt64} {e x : Entry P} {h : Nat} {m : Tags} {f : Frame P}
  {up ctx : List (Frame P)}

-----------------------------------------------------------------------------------------
-- What a step needs
-----------------------------------------------------------------------------------------

/-- The tags of the entries on the way to a slot, from the root down. -/
def wayTags : Entry P → Slot → List Tags
  | .node tags n, i :: vpp => tags :: wayTags (n i) vpp
  | e, _ => [e.tagmask]

/-- For each node on the way to a slot, the tags in its other slots, from the root down. -/
def besideTags : Entry P → Slot → List Tags
  | .node _ n, i :: vpp => sumTags (Function.update n i (.null 0)) :: besideTags (n i) vpp
  | _, _ => []

/-- The first that has a tag of the mask. -/
def firstWith (m : Tags) : List Tags → Option Tags
  | [] => none
  | tags :: rest => if tags &&& m = 0 then firstWith m rest else some tags

/-- The lowest entry on the way that has a tag of the mask has all of them. -/
def SetMeets (t : Tree P) (idx : UInt64) (m : Tags) : Prop :=
  ∀ tags ∈ firstWith m (wayTags t.tRoot (path t.tHeight idx)).reverse, tags &&& m = m

/-- The lowest node on the way that has a tag of the mask in another slot has there all tags of
the mask that the leaf has.
-/
def ClearMeets (t : Tree P) (idx : UInt64) (m : Tags) : Prop :=
  ∀ leaf ∈ contents t idx,
    ∀ tags ∈ firstWith m (besideTags t.tRoot (path t.tHeight idx)).reverse,
      leaf.2 &&& m &&& ~~~tags = 0

/-- The tags in the other slots. -/
def Frame.beside (f : Frame P) : Tags := sumTags (f.put (.null 0))

theorem wayTags_nil (e : Entry P) : wayTags e [] = [e.tagmask] := by
  cases e <;> rfl

theorem besideTags_nil (e : Entry P) : besideTags e [] = [] := by
  cases e <;> rfl

theorem wayTags_plug (ctx : List (Frame P)) (e : Entry P) (vpp : Slot)
    : wayTags (plug ctx e) (route ctx ++ vpp) = (ctx.map Frame.tags).reverse ++ wayTags e vpp := by
  induction ctx generalizing e vpp with
  | nil => rfl
  | cons f up ih =>
      rw [plug_cons, route_cons, List.append_assoc, ih, List.singleton_append, Frame.fill, wayTags,
        Frame.put_self]
      simp

theorem besideTags_plug (ctx : List (Frame P)) (e : Entry P) (vpp : Slot)
    : besideTags (plug ctx e) (route ctx ++ vpp)
      = (ctx.map Frame.beside).reverse ++ besideTags e vpp := by
  induction ctx generalizing e vpp with
  | nil => rfl
  | cons f up ih =>
      have others : Function.update (f.put e) f.i (.null 0) = f.put (.null 0) := by
        rw [Frame.put, Frame.put, Function.update_idem]
      rw [plug_cons, route_cons, List.append_assoc, ih, List.singleton_append, Frame.fill, besideTags,
        Frame.put_self, others]
      simp [Frame.beside]

-----------------------------------------------------------------------------------------
-- Masks
-----------------------------------------------------------------------------------------

theorem or_of_and_eq : ∀ {tags m : Tags}, tags &&& m = m → tags ||| m = tags := by decide

theorem or_clear_and_ne : ∀ {beside own m : Tags}, beside &&& m ≠ 0
    → (beside ||| (own &&& ~~~m)) &&& m ≠ 0 := by
  decide

theorem or_clear_and_eq : ∀ {beside own m : Tags}, beside &&& m = 0
    → (beside ||| (own &&& ~~~m)) &&& m = 0 := by
  decide

theorem or_clear_covered : ∀ {beside own m : Tags}, own &&& m &&& ~~~beside = 0
    → beside ||| (own &&& ~~~m) = beside ||| own := by
  decide

theorem or_clear_apart : ∀ {beside own m : Tags}, beside &&& m = 0
    → beside ||| (own &&& ~~~m) = (beside ||| own) &&& ~~~m := by
  decide

theorem and_not_of_and_eq : ∀ {tags m : Tags}, tags &&& m = 0 → tags &&& ~~~m = tags := by decide

theorem or_and_ne : ∀ {beside own m : Tags}, own &&& m ≠ 0 → (beside ||| own) &&& m ≠ 0 := by decide

theorem or_and_apart : ∀ {beside own m : Tags}, beside &&& m = 0
    → (beside ||| own) &&& m = own &&& m := by
  decide

-----------------------------------------------------------------------------------------
-- Sums with one entry changed
-----------------------------------------------------------------------------------------

theorem sumTags_put (f : Frame P) (e : Entry P) : sumTags (f.put e) = f.beside ||| e.tagmask := by
  refine tags_ext fun b => ?_
  rw [getLsbD_sumTags, BitVec.getLsbD_or, Bool.or_eq_true, Frame.beside, getLsbD_sumTags]
  constructor
  · rintro ⟨j, tagged⟩
    by_cases here : j = f.i
    · rw [here, Frame.put_self] at tagged
      exact Or.inr tagged
    · rw [Frame.put_ne here] at tagged
      exact Or.inl ⟨j, by rwa [Frame.put_ne here]⟩
  · rintro (⟨j, tagged⟩ | tagged)
    · by_cases here : j = f.i
      · rw [here, Frame.put_self] at tagged
        simp [Entry.Tagged, Entry.tagmask] at tagged
      · rw [Frame.put_ne here] at tagged
        exact ⟨j, by rwa [Frame.put_ne here]⟩
    · exact ⟨f.i, by rwa [Frame.put_self]⟩

@[simp] theorem Entry.tagmask_compose (e : Entry P) (tags : Tags) : (e.compose tags).tagmask = tags := by
  cases e <;> rfl

theorem Entry.compose_tagmask (e : Entry P) : e.compose e.tagmask = e := by
  cases e <;> rfl

theorem Entry.compose_ne_null {tags : Tags} (nonzero : e.isNull = false) : e.compose tags ≠ .null 0 := by
  cases e with
  | null tags => cases nonzero
  | leaf tags p => simp [Entry.compose]
  | node tags n => simp [Entry.compose]

theorem settle_put (f : Frame P) (nonzero : e ≠ .null 0)
    : settle (f.put e) = .node (f.beside ||| e.tagmask) (f.put e) := by
  rw [settle, if_pos (sumNonzero_iff.mpr ⟨f.i, by simpa using nonzero⟩), sumTags_put]

theorem Wf.frame_tags (wf : Wf (h + (f :: up).length) (plug (f :: up) e))
    : f.tags = f.beside ||| e.tagmask := by
  rw [wf.frame.2, sumTags_put]

-----------------------------------------------------------------------------------------
-- `radix_tree_set_tag`
-----------------------------------------------------------------------------------------

/-- The loop up to the root. The entry `x` has got its new tags below, and its own are still the
old ones.
-/
theorem setTags_plug (wf : Wf (h + ctx.length) (plug ctx e)) (old : x.tagmask = e.tagmask)
    (nonzero : x.isNull = false)
    (meets : ∀ tags ∈ firstWith m (e.tagmask :: ctx.map Frame.tags), tags &&& m = m) (more : Slot)
    : setTags m (route ctx ++ more) (ctx.length + 1) (plug ctx x)
      = some (rebuild ctx (x.compose (x.tagmask ||| m))) := by
  have ends (common : ¬ x.tagmask &&& m = 0) : x.compose (x.tagmask ||| m) = x := by
    have all := meets e.tagmask (by rw [firstWith, if_neg (by rwa [← old])]; rfl)
    rw [or_of_and_eq (by rw [old]; exact all), x.compose_tagmask]
  induction ctx generalizing h e x more with
  | nil =>
      rw [setTags, List.length_nil, List.take_zero]
      simp only [plug_nil, getSlot_nil, Option.bind_eq_bind, Option.bind_some, setSlot_nil, setTags,
        rebuild, bne_iff_ne]
      by_cases common : x.tagmask &&& m = 0
      · rw [if_neg (not_not.mpr common)]
      · rw [if_pos common, ends common]
        rfl
  | cons f up ih =>
      have take : (route (f :: up) ++ more).take (f :: up).length = route (f :: up) := take_way _ _
      rw [setTags, take, getSlot_route]
      simp only [Option.bind_eq_bind, Option.bind_some, bne_iff_ne]
      by_cases common : x.tagmask &&& m = 0
      · have way : route (f :: up) ++ more = route up ++ (f.i :: more) := by simp
        have meets' : ∀ tags ∈ firstWith m (f.tags :: up.map Frame.tags), tags &&& m = m := by
          rw [firstWith, if_pos (by rwa [← old])] at meets
          exact meets
        have sums : f.beside ||| (x.tagmask ||| m) = f.tags ||| m := by
          rw [wf.frame_tags, old, BitVec.or_assoc]
        have endsAbove (stop : ¬ f.tags &&& m = 0)
            : (f.fill (x.compose (x.tagmask ||| m))).compose (f.tags ||| m)
              = f.fill (x.compose (x.tagmask ||| m)) := by
          have all := meets' f.tags (by rw [firstWith, if_neg stop]; rfl)
          rw [or_of_and_eq all]
          rfl
        have later := ih wf.above (x := f.fill (x.compose (x.tagmask ||| m))) rfl rfl meets'
          (f.i :: more) endsAbove
        rw [if_neg (not_not.mpr common), setSlot_route, plug_cons, way, List.length_cons, later, rebuild,
          settle_put f (Entry.compose_ne_null nonzero), Entry.tagmask_compose, sums]
        rfl
      · have kept : x ≠ .null 0 := by
          rintro rfl
          cases nonzero
        rw [if_pos common, ends common, rebuild_eq_plug wf kept old]
        rfl

theorem radixTreeSetTag_spec (wf : t.Wf) {leaf : P × Tags} (there : contents t idx = some leaf)
    (nonzero : m ≠ 0) (meets : SetMeets t idx m)
    : ∃ t', radixTreeSetTag t idx m = some t' ∧ t'.Wf
      ∧ contents t' = Function.update (contents t) idx (some (leaf.1, leaf.2 ||| m)) := by
  obtain ⟨ctx, whole, way, length, present⟩ := presentSlot_eq wf there
  have root := wf.root
  rw [whole, ← length, ← Nat.zero_add ctx.length] at root
  have entries : ∀ tags ∈ firstWith m (leaf.2 :: ctx.map Frame.tags), tags &&& m = m := by
    have tags := wayTags_plug ctx (.leaf leaf.2 leaf.1) []
    rw [List.append_nil] at tags
    rw [SetMeets, whole, ← way, tags, wayTags_nil] at meets
    rwa [List.reverse_append, List.reverse_reverse] at meets
  have loop := setTags_plug root (x := .leaf leaf.2 leaf.1) rfl rfl entries []
  rw [List.append_nil, length, ← whole] at loop
  obtain ⟨wf', changed⟩ := wf.rebuild there whole way
    (show Wf 0 (.leaf (leaf.2 ||| m) leaf.1) from trivial) (by simp)
  refine ⟨⟨rebuild ctx (.leaf (leaf.2 ||| m) leaf.1), t.tHeight⟩, ?_, wf', changed⟩
  rw [radixTreeSetTag, present]
  simp only [Option.bind_eq_bind, Option.bind_some]
  rw [if_neg (by
    rw [Bool.or_eq_true, decide_eq_true_eq, decide_eq_true_eq, length_route]
    exact not_or.mpr ⟨nonzero, not_not.mpr length⟩), loop]
  rfl

-----------------------------------------------------------------------------------------
-- `radix_tree_clear_tag`
-----------------------------------------------------------------------------------------

theorem clearTags_plug (wf : Wf (h + ctx.length) (plug ctx e)) (old : x.tagmask = e.tagmask)
    (nonzero : x.isNull = false) (tagged : e.tagmask &&& m ≠ 0)
    (meets : ∀ tags ∈ firstWith m (ctx.map Frame.beside),
      e.tagmask &&& m &&& ~~~tags = 0) (more : Slot)
    : clearTags m (route ctx ++ more) (ctx.length + 1) (plug ctx x)
      = some (rebuild ctx (x.compose (x.tagmask &&& ~~~m))) := by
  induction ctx generalizing h e x more with
  | nil =>
      rw [clearTags, List.length_nil, List.take_zero]
      simp only [plug_nil, getSlot_nil, Option.bind_eq_bind, Option.bind_some, setSlot_nil, beq_iff_eq,
        rebuild]
      rw [if_neg (by rwa [old]), if_neg (by omega)]
      rfl
  | cons f up ih =>
      have take : (route (f :: up) ++ more).take (f :: up).length = route (f :: up) := take_way _ _
      have way : route (f :: up) ++ more = route up ++ (f.i :: more) := by simp
      have takeAbove : (route (f :: up) ++ more).take ((f :: up).length - 1) = route up := by
        rw [way, List.length_cons, Nat.add_sub_cancel]
        exact take_way _ _
      have filled : x.compose (x.tagmask &&& ~~~m) ≠ .null 0 := Entry.compose_ne_null nonzero
      have sum : sumTags (f.put (x.compose (x.tagmask &&& ~~~m))) = f.beside ||| (e.tagmask &&& ~~~m) := by
        rw [sumTags_put, Entry.tagmask_compose, old]
      have tags := wf.frame_tags
      rw [clearTags, take, getSlot_route]
      simp only [Option.bind_eq_bind, Option.bind_some]
      rw [if_neg (by rw [beq_iff_eq, old]; exact tagged), if_pos (by simp), setSlot_route, takeAbove, plug_cons,
        getSlot_route]
      simp only [Option.bind_some, Frame.fill, Entry.nPtrs?, sum]
      by_cases common : f.beside &&& m = 0
      · have taggedAbove : (f.fill e).tagmask &&& m ≠ 0 := by
          rw [show (f.fill e).tagmask = f.tags from rfl, tags]
          exact or_and_ne tagged
        have meets' : ∀ tags ∈ firstWith m (up.map Frame.beside),
            (f.fill e).tagmask &&& m &&& ~~~tags = 0 := by
          rw [List.map_cons, firstWith, if_pos common] at meets
          rwa [show (f.fill e).tagmask = f.tags from rfl, tags, or_and_apart common]
        have later := ih wf.above (x := f.fill (x.compose (x.tagmask &&& ~~~m))) rfl rfl taggedAbove meets'
          (f.i :: more)
        rw [if_neg (by simp only [bne_iff_ne, not_not]; exact or_clear_and_eq common), way,
          List.length_cons]
        refine later.trans ?_
        rw [rebuild, settle_put f filled, Entry.tagmask_compose, old, or_clear_apart common, ← tags]
        rfl
      · have all := meets f.beside (by rw [List.map_cons, firstWith, if_neg common]; rfl)
        have same : f.beside ||| (e.tagmask &&& ~~~m) = f.tags := by
          rw [tags, or_clear_covered all]
        have kept := rebuild_eq_plug_cons wf
          (sumNonzero_iff.mpr ⟨f.i, by rw [Frame.put_self]; exact filled⟩) (sum.trans same)
        rw [if_pos (bne_iff_ne.mpr (or_clear_and_ne common)), kept, plug_cons, Frame.fill]
        rfl

theorem radixTreeClearTag_spec (wf : t.Wf) {leaf : P × Tags} (there : contents t idx = some leaf)
    (nonzero : m ≠ 0) (meets : ClearMeets t idx m)
    : ∃ t', radixTreeClearTag t idx m = some t' ∧ t'.Wf
      ∧ contents t' = Function.update (contents t) idx (some (leaf.1, leaf.2 &&& ~~~m)) := by
  obtain ⟨ctx, whole, way, length, present⟩ := presentSlot_eq wf there
  have root := wf.root
  rw [whole, ← length, ← Nat.zero_add ctx.length] at root
  rw [radixTreeClearTag, present]
  simp only [Option.bind_eq_bind, Option.bind_some, Entry.tagmask, beq_iff_eq]
  rw [if_neg (by
    rw [Bool.or_eq_true, decide_eq_true_eq, decide_eq_true_eq, length_route]
    exact not_or.mpr ⟨nonzero, not_not.mpr length⟩)]
  by_cases clear : leaf.2 &&& m = 0
  · refine ⟨t, by rw [if_pos clear]; rfl, wf, ?_⟩
    have same : leaf.2 &&& ~~~m = leaf.2 := and_not_of_and_eq clear
    rw [same, ← there, Function.update_eq_self]
  · have entries : ∀ tags ∈ firstWith m (ctx.map Frame.beside), leaf.2 &&& m &&& ~~~tags = 0 := by
      have tags := besideTags_plug ctx (.leaf leaf.2 leaf.1) []
      rw [List.append_nil, besideTags_nil, List.append_nil] at tags
      have below := meets leaf there
      rwa [whole, ← way, tags, List.reverse_reverse] at below
    have loop := clearTags_plug root (x := .leaf leaf.2 leaf.1) rfl rfl clear entries []
    rw [List.append_nil, length, ← whole] at loop
    obtain ⟨wf', changed⟩ := wf.rebuild there whole way
      (show Wf 0 (.leaf (leaf.2 &&& ~~~m) leaf.1) from trivial) (by simp)
    refine ⟨⟨rebuild ctx (.leaf (leaf.2 &&& ~~~m) leaf.1), t.tHeight⟩, ?_, wf', changed⟩
    rw [if_neg clear, loop]
    rfl

end BSDLibC.Radix
