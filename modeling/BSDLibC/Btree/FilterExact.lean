import BSDLibC.Btree.FilterFields

/-! What the page filters do to a well-formed page. -/

namespace BSDLibC.Btree

open Bytes

variable {big : Bool} {page start : List UInt8}

-----------------------------------------------------------------------------------------
-- Swaps inside of a page
-----------------------------------------------------------------------------------------

/-- The state after swaps. -/
def swapped (start : List UInt8) (places : List Place) : Swapping := ⟨reverseAll places start, places⟩

theorem swapped_nil (start : List UInt8) : swapped start [] = ⟨start, []⟩ := rfl

theorem page_swapped (start : List UInt8) (places : List Place)
    : (swapped start places).page = reverseAll places start := rfl

/-- Places that are inside of a page. -/
def AllInside (places : List Place) (start : List UInt8) : Prop := ∀ p ∈ places, p.Inside start

theorem swap_swapped {places : List Place} {p : Place} (all : AllInside (places ++ [p]) start)
    : (swapped start places).swap p = some (swapped start (places ++ [p])) := by
  have before : ∀ q ∈ places, q.Inside start := fun q among => all q (List.mem_append_left _ among)
  have here : p.Inside start := all p (by simp)
  have inside : p.off + p.width ≤ (swapped start places).page.length := here.reverseAll before
  rw [Swapping.swap, if_pos inside, swapped, swapped, reverseAll_concat]

theorem foldlM_swap {places more : List Place} (all : AllInside (places ++ more) start)
    : more.foldlM (fun s p => Swapping.swap p s) (swapped start places)
      = some (swapped start (places ++ more)) := by
  induction more generalizing places with
  | nil => rw [List.append_nil]; rfl
  | cons p more ih =>
      rw [List.append_cons] at all ⊢
      rw [List.foldlM_cons, swap_swapped (fun q among => all q (List.mem_append_left _ among)),
        Option.bind_eq_bind, Option.bind_some, ih all]

theorem swapPair_swapped {places : List Place} {p : Nat}
    (all : AllInside (places ++ [⟨p, 4⟩, ⟨p + 4, 4⟩]) start)
    : swapPair p (swapped start places) = some (swapped start (places ++ [⟨p, 4⟩, ⟨p + 4, 4⟩])) := by
  rw [List.append_cons] at all ⊢
  rw [swapPair, swap32, swap_swapped (fun q among => all q (List.mem_append_left _ among)),
    Option.bind_eq_bind, Option.bind_some, swap32, swap_swapped all]

/-- After the swaps, a place shows the number that the page has there. -/
def Shows (big : Bool) (page start : List UInt8) (places : List Place) (q : Place) : Prop :=
  get big q (reverseAll places start) = some (field big page q)

/-- Nothing has been swapped at the place. -/
theorem shows_of_apart {places : List Place} {q : Place} (inside : q.Inside page)
    (all : AllInside places page) (apart : ∀ p ∈ places, p.Apart q)
    : Shows big page page places q := by
  have inside' : q.off + q.width ≤ (reverseAll places page).length := inside.reverseAll all
  rw [Shows, get, if_pos inside', slice_reverseAll apart all, field]

/-- What has been swapped at the place has been swapped back. -/
theorem shows_of_back {places more : List Place} {q : Place} (inside : q.Inside page)
    (all : AllInside (places ++ more) page) (apart : (places ++ more).Pairwise Place.Apart)
    (clean : ∀ p ∈ more, p.Apart q)
    : Shows big page (reverseAll (places ++ more) page) places q := by
  rw [Shows, reverseAll_cancel apart all]
  exact shows_of_apart inside (fun p among => all p (List.mem_append_right _ among)) clean

-----------------------------------------------------------------------------------------
-- The items
-----------------------------------------------------------------------------------------

theorem and_flags_eq_zero (flags : Nat)
    : flags &&& (P_BIGKEY ||| P_BIGDATA) = 0 ↔ flags &&& P_BIGKEY = 0 ∧ flags &&& P_BIGDATA = 0 := by
  rw [Nat.and_or_distrib_left, Nat.or_eq_zero_iff]

/-- The references of an item that has not both of them. -/
theorem swapRefs_swapped {places : List Place} {flags ksize p : Nat}
    (one : flags &&& P_BIGKEY = 0 ∨ flags &&& P_BIGDATA = 0)
    (all : AllInside (places ++ ((if flags &&& P_BIGKEY ≠ 0 then [⟨p, 4⟩, ⟨p + 4, 4⟩] else [])
      ++ (if flags &&& P_BIGDATA ≠ 0 then [⟨p + ksize, 4⟩, ⟨p + ksize + 4, 4⟩] else []))) start)
    : swapRefs flags ksize p (swapped start places)
      = some (swapped start (places
          ++ ((if flags &&& P_BIGKEY ≠ 0 then [⟨p, 4⟩, ⟨p + 4, 4⟩] else [])
            ++ (if flags &&& P_BIGDATA ≠ 0 then [⟨p + ksize, 4⟩, ⟨p + ksize + 4, 4⟩] else [])))) := by
  rw [swapRefs, swapBigkey]
  by_cases key : flags &&& P_BIGKEY = 0
  · by_cases data : flags &&& P_BIGDATA = 0
    · rw [if_neg (not_not.mpr ((and_flags_eq_zero flags).mpr ⟨key, data⟩))]
      simp [key, data]
    · rw [if_pos (fun zero => data ((and_flags_eq_zero flags).mp zero).2)]
      simp only [key, data, ne_eq, not_true_eq_false, not_false_eq_true, if_false, if_true,
        List.nil_append] at all ⊢
      exact swapPair_swapped all
  · have data : flags &&& P_BIGDATA = 0 := one.resolve_left key
    rw [if_pos (fun zero => key ((and_flags_eq_zero flags).mp zero).1)]
    simp only [key, data, ne_eq, not_true_eq_false, not_false_eq_true, if_false, if_true,
      List.append_nil] at all ⊢
    rw [swapPair_swapped all]
    rfl

/-- The fields of an internal item. -/
theorem swapInternal_swapped {places : List Place} {i : Nat} (internal : ¬ isLeaf big page)
    (all : AllInside (places ++ itemPlaces big page i) start)
    (flags : Shows big page start
      (places ++ [⟨itemOff big page i, 4⟩, ⟨itemOff big page i + 4, 4⟩]) (itemFlagsPlace big page i))
    : swapInternal big (itemOff big page i) (swapped start places)
      = some (swapped start (places ++ itemPlaces big page i)) := by
  have noData : ¬ hasBigdata big page i := fun data => internal data.1
  simp only [itemPlaces, if_neg noData, List.append_nil] at all ⊢
  rw [← List.append_assoc] at all ⊢
  rw [swapInternal, swapPair_swapped (fun q among => all q (List.mem_append_left _ among)),
    Option.bind_eq_bind, Option.bind_some]
  have shown : get big ⟨itemOff big page i + 8, 1⟩ (swapped start
      (places ++ [⟨itemOff big page i, 4⟩, ⟨itemOff big page i + 4, 4⟩])).page
      = some (itemFlags big page i) := flags
  rw [shown, Option.bind_eq_bind, Option.bind_some]
  by_cases key : hasBigkey big page i
  · rw [if_pos key] at all ⊢
    rw [if_pos (show itemFlags big page i &&& P_BIGKEY ≠ 0 from key)]
    exact swapPair_swapped all
  · rw [if_neg key, List.append_nil,
      if_neg (show ¬ itemFlags big page i &&& P_BIGKEY ≠ 0 from key)]

/-- Not both of the references. -/
def OneRef (big : Bool) (page : List UInt8) (i : Nat) : Prop :=
  ¬ (hasBigkey big page i ∧ hasBigdata big page i)

/-- The references of a leaf item, after its sizes. -/
theorem swapRefs_leaf {places : List Place} {i : Nat} (leaf : isLeaf big page)
    (one : OneRef big page i) (all : AllInside (places ++ itemPlaces big page i) start)
    : swapRefs (itemFlags big page i) (itemKsize big page i) (itemOff big page i + 9)
        (swapped start (places ++ [⟨itemOff big page i, 4⟩, ⟨itemOff big page i + 4, 4⟩]))
      = some (swapped start (places ++ itemPlaces big page i)) := by
  have key : hasBigkey big page i ↔ itemFlags big page i &&& P_BIGKEY ≠ 0 := Iff.rfl
  have data : hasBigdata big page i ↔ itemFlags big page i &&& P_BIGDATA ≠ 0 :=
    ⟨fun both => both.2, fun flag => ⟨leaf, flag⟩⟩
  have single : itemFlags big page i &&& P_BIGKEY = 0 ∨ itemFlags big page i &&& P_BIGDATA = 0 := by
    rw [OneRef, key, data, not_and_or, not_not, not_not] at one
    exact one
  simp only [itemPlaces, key, data] at all ⊢
  rw [List.append_assoc, ← List.append_assoc] at all ⊢
  exact swapRefs_swapped single all

/-- The fields of an entry in the order of the output. -/
def outPlaces (big : Bool) (page : List UInt8) (i : Nat) : List Place :=
  itemPlaces big page i ++ [linpPlace i]

/-- The filter of an item, by the type of the page. -/
def itemOut (big : Bool) (page : List UInt8) : Swapping → Nat → Option Swapping :=
  if isLeaf big page then leafOut big else internalOut big

def itemIn (big : Bool) (page : List UInt8) : Swapping → Nat → Option Swapping :=
  if isLeaf big page then leafIn big else internalIn big

theorem swapItems_eq (wf : WellFormedPage big page)
    (internal leaf : Swapping → Nat → Option Swapping) (top : Nat) (s : Swapping)
    : swapItems internal leaf (field big page flagsPlace) top s
      = (List.range top).foldlM (if isLeaf big page then leaf else internal) s := by
  have other : ¬ P_BLEAF = P_BINTERNAL := by decide
  have other' : ¬ P_BINTERNAL = P_BLEAF := by decide
  rcases wf.type with type | type <;> simp [swapItems, isLeaf, type, other, other']

theorem itemOut_swapped {places : List Place} {i : Nat} (one : OneRef big page i)
    (all : AllInside (places ++ outPlaces big page i) start)
    (linp : Shows big page start places (linpPlace i))
    (ksize : Shows big page start places ⟨itemOff big page i, 4⟩)
    (flags : Shows big page start
      (places ++ [⟨itemOff big page i, 4⟩, ⟨itemOff big page i + 4, 4⟩]) (itemFlagsPlace big page i))
    : itemOut big page (swapped start places) i
      = some (swapped start (places ++ outPlaces big page i)) := by
  rw [outPlaces, ← List.append_assoc] at all ⊢
  have item : AllInside (places ++ itemPlaces big page i) start := fun q among =>
    all q (List.mem_append_left _ among)
  have linp' : get big (linpPlace i) (swapped start places).page = some (itemOff big page i) := linp
  have ksize' : get big ⟨itemOff big page i, 4⟩ (swapped start places).page
      = some (itemKsize big page i) := ksize
  rw [itemOut]
  by_cases leaf : isLeaf big page
  · have pair : AllInside (places ++ [⟨itemOff big page i, 4⟩, ⟨itemOff big page i + 4, 4⟩]) start := by
      intro q among
      refine item q ?_
      rcases List.mem_append.mp among with before | here
      · exact List.mem_append_left _ before
      · exact List.mem_append_right _ (List.mem_append_left _ (List.mem_append_left _ here))
    have shown : get big ⟨itemOff big page i + 8, 1⟩ (swapped start
        (places ++ [⟨itemOff big page i, 4⟩, ⟨itemOff big page i + 4, 4⟩])).page
        = some (itemFlags big page i) := flags
    simp only [if_pos leaf, leafOut, Option.bind_eq_bind]
    rw [linp', Option.bind_some, ksize', Option.bind_some,
      swapPair_swapped pair, Option.bind_some, shown, Option.bind_some, swapRefs_leaf leaf one item,
      Option.bind_some, swap_swapped all]
  · simp only [if_neg leaf, internalOut, Option.bind_eq_bind]
    rw [linp', Option.bind_some,
      swapInternal_swapped leaf item flags, Option.bind_some, swap_swapped all]

theorem itemIn_swapped {places : List Place} {i : Nat} (one : OneRef big page i)
    (all : AllInside (places ++ entryPlaces big page i) start)
    (linp : Shows big page start (places ++ [linpPlace i]) (linpPlace i))
    (ksize : Shows big page start (places ++ [linpPlace i] ++ [⟨itemOff big page i, 4⟩])
      ⟨itemOff big page i, 4⟩)
    (flags : Shows big page start (places ++ [linpPlace i]
      ++ [⟨itemOff big page i, 4⟩, ⟨itemOff big page i + 4, 4⟩]) (itemFlagsPlace big page i))
    : itemIn big page (swapped start places) i
      = some (swapped start (places ++ entryPlaces big page i)) := by
  rw [entryPlaces, List.append_cons] at all ⊢
  have entry : AllInside (places ++ [linpPlace i]) start := fun q among =>
    all q (List.mem_append_left _ among)
  have linp' : get big (linpPlace i) (swapped start (places ++ [linpPlace i])).page
      = some (itemOff big page i) := linp
  have ksize' : get big ⟨itemOff big page i, 4⟩
      (swapped start (places ++ [linpPlace i] ++ [⟨itemOff big page i, 4⟩])).page
      = some (itemKsize big page i) := ksize
  rw [itemIn]
  by_cases leaf : isLeaf big page
  · have pair : AllInside (places ++ [linpPlace i]
        ++ [⟨itemOff big page i, 4⟩, ⟨itemOff big page i + 4, 4⟩]) start := by
      intro q among
      refine all q ?_
      rcases List.mem_append.mp among with before | here
      · exact List.mem_append_left _ before
      · exact List.mem_append_right _ (List.mem_append_left _ (List.mem_append_left _ here))
    have pair' := pair
    rw [List.append_cons] at pair'
    have shown : get big ⟨itemOff big page i + 8, 1⟩ (swapped start (places ++ [linpPlace i]
        ++ [⟨itemOff big page i, 4⟩, ⟨itemOff big page i + 4, 4⟩])).page
        = some (itemFlags big page i) := flags
    simp only [if_pos leaf, leafIn, Option.bind_eq_bind]
    rw [swap_swapped entry, Option.bind_some, linp',
      Option.bind_some, swap32, swap_swapped (fun q among => pair' q (List.mem_append_left _ among)),
      Option.bind_some, ksize', Option.bind_some, swap32, swap_swapped pair', Option.bind_some,
      ← List.append_cons, shown, Option.bind_some, swapRefs_leaf leaf one all]
  · simp only [if_neg leaf, internalIn, Option.bind_eq_bind]
    rw [swap_swapped entry, Option.bind_some, linp',
      Option.bind_some, swapInternal_swapped leaf all flags]

-----------------------------------------------------------------------------------------
-- Runs over the items
-----------------------------------------------------------------------------------------

/-- The sizes of an item come before its references. -/
theorem itemPlaces_cons (big : Bool) (page : List UInt8) (i : Nat)
    : ∃ refs, itemPlaces big page i
      = ⟨itemOff big page i, 4⟩ :: ⟨itemOff big page i + 4, 4⟩ :: refs :=
  ⟨_, rfl⟩

theorem WellFormedPage.allInside (wf : WellFormedPage big page) {places : List Place}
    (among : places ⊆ fields big page)
    : AllInside places page :=
  fun _ member => wf.fields_inside (among member)

/-- The output of items that have not both references swaps their fields. -/
theorem foldlM_itemOut (wf : WellFormedPage big page) {indices : List Nat} {places : List Place}
    (lt : ∀ i ∈ indices, i < itemCount big page) (one : ∀ i ∈ indices, OneRef big page i)
    (apart : (places ++ indices.flatMap (outPlaces big page)).Pairwise Place.Apart)
    (among : places ++ indices.flatMap (outPlaces big page) ⊆ fields big page)
    : indices.foldlM (itemOut big page) (swapped page places)
      = some (swapped page (places ++ indices.flatMap (outPlaces big page))) := by
  induction indices generalizing places with
  | nil => rw [List.flatMap_nil, List.append_nil]; rfl
  | cons i indices ih =>
      have lt' := lt i List.mem_cons_self
      rw [List.flatMap_cons] at apart among ⊢
      have before := (List.pairwise_append.mp apart).2.2
      rw [← List.append_assoc] at apart among ⊢
      have here : places ++ outPlaces big page i ⊆ fields big page := fun q member =>
        among (List.mem_append_left _ member)
      obtain ⟨refs, sizes⟩ := itemPlaces_cons big page i
      have linpHere : linpPlace i ∈ outPlaces big page i := by simp [outPlaces]
      have sizeHere : ⟨itemOff big page i, 4⟩ ∈ outPlaces big page i := by simp [outPlaces, sizes]
      have pair : places ++ [⟨itemOff big page i, 4⟩, ⟨itemOff big page i + 4, 4⟩]
          ⊆ fields big page := by
        intro q member
        refine here ?_
        rcases List.mem_append.mp member with first | later
        · exact List.mem_append_left _ first
        · refine List.mem_append_right _ ?_
          rw [outPlaces, sizes]
          exact List.mem_append_left _ (List.mem_append_left refs later)
      have shows {q : Place} (member : q ∈ outPlaces big page i)
          : Shows big page page places q :=
        shows_of_apart (wf.fields_inside (here (List.mem_append_right _ member)))
          (wf.allInside fun p first => here (List.mem_append_left _ first))
          fun p first => before p first q (List.mem_append_left _ member)
      have flags := @shows_of_apart big page _ (itemFlagsPlace big page i) (wf.flags_inside lt')
        (wf.allInside pair) fun p member => wf.flags_apart lt' (pair member)
      rw [List.foldlM_cons, itemOut_swapped (one i List.mem_cons_self) (wf.allInside here)
        (shows linpHere) (shows sizeHere) flags]
      exact ih (fun j member => lt j (List.mem_cons_of_mem _ member))
        (fun j member => one j (List.mem_cons_of_mem _ member)) apart among

/-- The input of items that have not both references swaps their fields back. -/
theorem foldlM_itemIn (wf : WellFormedPage big page) {indices : List Nat} {places : List Place}
    (lt : ∀ i ∈ indices, i < itemCount big page) (one : ∀ i ∈ indices, OneRef big page i)
    (whole : fields big page = places ++ indices.flatMap (entryPlaces big page))
    : indices.foldlM (itemIn big page) (swapped (reverseAll (fields big page) page) places)
      = some (swapped (reverseAll (fields big page) page) (fields big page)) := by
  induction indices generalizing places with
  | nil => rw [whole, List.flatMap_nil, List.append_nil]; rfl
  | cons i indices ih =>
      have lt' := lt i List.mem_cons_self
      rw [List.flatMap_cons, ← List.append_assoc] at whole
      have all : AllInside (fields big page) page := fun p member => wf.fields_inside member
      have inside : AllInside (places ++ entryPlaces big page i)
          (reverseAll (fields big page) page) := fun p member =>
        (wf.fields_inside (by rw [whole]; exact List.mem_append_left _ member)).reverseAll all
      -- A place is shown as it was, when its own swap is done and those to come are elsewhere.
      have shows {done more : List Place} {q : Place} (split : fields big page = done ++ more)
          (inside : q.Inside page) (clean : ∀ p ∈ more, p.Apart q)
          : Shows big page (reverseAll (fields big page) page) done q := by
        rw [split] at all ⊢
        exact shows_of_back inside all (split ▸ wf.fields_apart) clean
      have shows' {done more : List Place} {q : Place} (split : fields big page = done ++ more)
          (member : q ∈ done)
          : Shows big page (reverseAll (fields big page) page) done q := by
        have apart := wf.fields_apart
        rw [split] at apart
        refine shows split (wf.fields_inside (by rw [split]; exact List.mem_append_left _ member))
          fun p later => ?_
        exact ((List.pairwise_append.mp apart).2.2 q member p later).symm
      obtain ⟨refs, sizes⟩ := itemPlaces_cons big page i
      rw [entryPlaces, sizes] at whole
      have linp := @shows' (places ++ [linpPlace i]) _ (linpPlace i) (by
        rw [whole, List.append_cons, List.append_assoc]) (by simp)
      have ksize := @shows' (places ++ [linpPlace i] ++ [⟨itemOff big page i, 4⟩]) _
        ⟨itemOff big page i, 4⟩ (by
          rw [whole, List.append_cons, List.append_cons (places ++ _), List.append_assoc]) (by simp)
      have flags := @shows (places ++ [linpPlace i] ++ [⟨itemOff big page i, 4⟩,
        ⟨itemOff big page i + 4, 4⟩]) (refs ++ indices.flatMap (entryPlaces big page))
        (itemFlagsPlace big page i) (by rw [whole]; simp) (wf.flags_inside lt') (fun p later =>
          wf.flags_apart lt' (by
            rw [whole]
            simp only [List.mem_append, List.mem_cons] at later ⊢
            tauto))
      rw [List.foldlM_cons, itemIn_swapped (one i List.mem_cons_self) inside linp ksize flags]
      rw [← sizes] at whole
      exact ih (fun j member => lt j (List.mem_cons_of_mem _ member))
        (fun j member => one j (List.mem_cons_of_mem _ member)) whole

-----------------------------------------------------------------------------------------
-- Pages
-----------------------------------------------------------------------------------------

theorem WellFormedPage.nextIndex_eq (wf : WellFormedPage big page)
    : nextIndex (field big page lowerPlace) = itemCount big page := by
  have lower := wf.lower
  have small := wf.small
  have header := wf.header
  rw [nextIndex]
  omega

theorem WellFormedPage.get_eq (wf : WellFormedPage big page) {p : Place} (member : p ∈ headerPlaces)
    : get big p page = some (field big page p) := by
  have inside : p.off + p.width ≤ page.length :=
    wf.fields_inside (by rw [fields_eq]; exact List.mem_append_left _ member)
  rw [get, if_pos inside, field]

theorem lowerPlace_mem : lowerPlace ∈ headerPlaces := by simp [headerPlaces]

theorem flagsPlace_mem : flagsPlace ∈ headerPlaces := by simp [headerPlaces]

/-- The fields in the order of the output. -/
def outFields (big : Bool) (page : List UInt8) : List Place :=
  (List.range (itemCount big page)).flatMap (outPlaces big page) ++ headerPlaces

theorem outFields_perm (big : Bool) (page : List UInt8)
    : (outFields big page).Perm (fields big page) := by
  rw [outFields, fields_eq]
  refine List.perm_append_comm.trans (List.Perm.append_left _ ?_)
  refine List.Perm.flatMap_left _ fun i _ => ?_
  rw [outPlaces, entryPlaces]
  exact List.perm_append_comm

/-- The first steps of the output, up to the items. -/
theorem btPgout_eq (wf : WellFormedPage big page) {pg : Nat} (other : pg ≠ P_META)
    : btPgout big true pg page
      = ((List.range (itemCount big page)).foldlM (itemOut big page) (swapped page [])).bind
          swapHeader := by
  rw [btPgout, if_neg (by decide), if_neg other, wf.get_eq lowerPlace_mem, Option.bind_eq_bind,
    Option.bind_some, wf.get_eq flagsPlace_mem, Option.bind_some, wf.nextIndex_eq,
    swapItems_eq wf]
  rfl

theorem btPgout_swapped (wf : WellFormedPage big page) {pg : Nat} (other : pg ≠ P_META)
    (one : ∀ i < itemCount big page, OneRef big page i)
    : btPgout big true pg page = some (swapped page (outFields big page)) := by
  have perm := outFields_perm big page
  have among : outFields big page ⊆ fields big page := perm.subset
  have apart : (outFields big page).Pairwise Place.Apart :=
    perm.symm.pairwise wf.fields_apart Place.Apart.symm
  have items : (List.range (itemCount big page)).flatMap (outPlaces big page) ⊆ fields big page :=
    fun p member => among (List.mem_append_left _ member)
  rw [btPgout_eq wf other, foldlM_itemOut wf (fun i member => List.mem_range.mp member)
    (fun i member => one i (List.mem_range.mp member)) (List.pairwise_append.mp apart).1 items,
    Option.bind_some, swapHeader, List.nil_append, foldlM_swap (wf.allInside among)]
  rfl

theorem btPgin_swapped (wf : WellFormedPage big page) {pg : Nat} (other : pg ≠ P_META)
    (one : ∀ i < itemCount big page, OneRef big page i)
    : btPgin big true pg (reverseAll (fields big page) page)
      = some (swapped (reverseAll (fields big page) page) (fields big page)) := by
  have all : AllInside (fields big page) page := fun p member => wf.fields_inside member
  have whole := fields_eq big page
  have header : AllInside ([] ++ headerPlaces) (reverseAll (fields big page) page) := by
    intro p member
    exact (wf.fields_inside (by rw [whole]; exact List.mem_append_left _ member)).reverseAll all
  have shows {q : Place} (member : q ∈ headerPlaces)
      : get big q (swapped (reverseAll (fields big page) page) ([] ++ headerPlaces)).page
        = some (field big page q) := by
    rw [whole] at all ⊢
    refine shows_of_back (all q (List.mem_append_left _ member)) all (whole ▸ wf.fields_apart)
      fun p later => ?_
    obtain ⟨i, inRange, inside⟩ := List.mem_flatMap.mp later
    exact (wf.header_apart_entry (List.mem_range.mp inRange) member inside).symm
  have items := @foldlM_itemIn big page wf (List.range (itemCount big page)) headerPlaces
    (fun i member => List.mem_range.mp member) (fun i member => one i (List.mem_range.mp member)) whole
  rw [btPgin, if_neg (by decide), if_neg other, swapHeader, ← swapped_nil, foldlM_swap header]
  simp only [Option.bind_eq_bind]
  rw [Option.bind_some, shows lowerPlace_mem, Option.bind_some, shows flagsPlace_mem,
    Option.bind_some, wf.nextIndex_eq, swapItems_eq wf]
  exact items

theorem filtersExact_of_oneRef (wf : WellFormedPage big page) {pg : Nat} (other : pg ≠ P_META)
    (one : ∀ i < itemCount big page, OneRef big page i)
    : FiltersExact big pg page := by
  have perm := outFields_perm big page
  have apart : (outFields big page).Pairwise Place.Apart :=
    perm.symm.pairwise wf.fields_apart Place.Apart.symm
  have all : AllInside (fields big page) page := fun p member => wf.fields_inside member
  have same : reverseAll (outFields big page) page = reverseAll (fields big page) page :=
    reverseAll_perm perm apart (wf.allInside perm.subset)
  have back := @reverseAll_cancel _ page (fields big page) [] (by
    rw [List.append_nil]
    exact wf.fields_apart) (by
    rw [List.append_nil]
    exact all)
  rw [List.append_nil] at back
  refine ⟨_, btPgout_swapped wf other one, perm, same,
    swapped (reverseAll (fields big page) page) (fields big page), ?_, ?_⟩
  · rw [page_swapped, same]
    exact btPgin_swapped wf other one
  · rw [page_swapped]
    exact back

-----------------------------------------------------------------------------------------
-- Items with both references
-----------------------------------------------------------------------------------------

/-- A step keeps the swaps before it. -/
def Keeps (f : Swapping → Option Swapping) : Prop := ∀ s s', f s = some s' → s.swaps ⊆ s'.swaps

theorem keeps_swap (p : Place) : Keeps (Swapping.swap p) := by
  intro s s' result
  rw [Swapping.swap] at result
  split at result
  · cases result
    exact List.subset_append_left _ _
  · cases result

theorem Keeps.bind {f g : Swapping → Option Swapping} (first : Keeps f) (second : Keeps g)
    : Keeps fun s => (f s).bind g := by
  intro s s' result
  obtain ⟨mid, before, after⟩ := Option.bind_eq_some_iff.mp result
  exact List.Subset.trans (first s mid before) (second mid s' after)

theorem keeps_swapPair (p : Nat) : Keeps (swapPair p) :=
  (keeps_swap ⟨p, 4⟩).bind (keeps_swap ⟨p + 4, 4⟩)

/-- A number that is read first. -/
theorem Keeps.read {p : Place} {f : Nat → Swapping → Option Swapping} (each : ∀ n, Keeps (f n))
    : Keeps fun s => (get big p s.page).bind fun n => f n s := by
  intro s s' result
  obtain ⟨n, -, after⟩ := Option.bind_eq_some_iff.mp result
  exact each n s s' after

theorem keeps_id : Keeps some := by
  intro s s' result
  cases result
  exact List.Subset.refl _

theorem keeps_ite {c : Prop} [Decidable c] {f g : Swapping → Option Swapping} (first : Keeps f)
    (second : Keeps g)
    : Keeps fun s => if c then f s else g s := by
  by_cases here : c
  · simpa only [if_pos here] using first
  · simpa only [if_neg here] using second

theorem keeps_swapInternal (p : Nat) : Keeps (swapInternal big p) :=
  (keeps_swapPair p).bind
    (Keeps.read fun _ => keeps_ite (keeps_swapPair (p + 9)) keeps_id)

theorem keeps_swapRefs (flags ksize p : Nat) : Keeps (swapRefs flags ksize p) := by
  intro s s' result
  rw [swapRefs] at result
  split at result
  · rw [Option.bind_eq_bind, Option.bind_eq_some_iff] at result
    obtain ⟨⟨q, mid⟩, key, data⟩ := result
    have before : s.swaps ⊆ mid.swaps := by
      rw [swapBigkey] at key
      split at key
      · obtain ⟨t, pair, same⟩ := Option.map_eq_some_iff.mp key
        cases same
        exact keeps_swapPair _ _ _ pair
      · cases key
        exact List.Subset.refl _
    refine List.Subset.trans before ?_
    simp only at data
    split at data
    · exact keeps_swapPair _ _ _ data
    · cases data
      exact List.Subset.refl _
  · cases result
    exact List.Subset.refl _

theorem keeps_itemOut (i : Nat) : Keeps fun s => itemOut big page s i := by
  rw [itemOut]
  by_cases leaf : isLeaf big page
  · simp only [if_pos leaf]
    exact Keeps.read fun p => Keeps.read fun ksize => (keeps_swapPair p).bind
      (Keeps.read fun flags => (keeps_swapRefs flags ksize (p + 9)).bind (keeps_swap _))
  · simp only [if_neg leaf]
    exact Keeps.read fun p => (keeps_swapInternal p).bind (keeps_swap _)

theorem keeps_foldlM {ι : Type} {f : Swapping → ι → Option Swapping} (each : ∀ i, Keeps fun s => f s i)
    (indices : List ι)
    : Keeps fun s => indices.foldlM f s := by
  induction indices with
  | nil => exact keeps_id
  | cons i indices ih => exact (each i).bind ih

theorem keeps_swapHeader : Keeps swapHeader := keeps_foldlM keeps_swap headerPlaces

/-- With both references the last swap is four bytes too far. -/
theorem swapRefs_both {flags ksize p : Nat} {s s' : Swapping} (key : flags &&& P_BIGKEY ≠ 0)
    (data : flags &&& P_BIGDATA ≠ 0) (result : swapRefs flags ksize p s = some s')
    : ⟨p + 4 + ksize + 4, 4⟩ ∈ s'.swaps := by
  rw [swapRefs, if_pos (fun zero => key ((and_flags_eq_zero flags).mp zero).1), swapBigkey, if_pos key,
    Option.bind_eq_bind, Option.bind_eq_some_iff] at result
  obtain ⟨⟨q, mid⟩, first, second⟩ := result
  obtain ⟨t, -, same⟩ := Option.map_eq_some_iff.mp first
  cases same
  simp only [if_pos data, swapPair, swap32, Option.bind_eq_bind, Option.bind_eq_some_iff] at second
  obtain ⟨u, -, last⟩ := second
  rw [Swapping.swap] at last
  split at last
  · cases last
    simp
  · cases last

theorem range_split {i n : Nat} (lt : i < n)
    : List.range n = List.range i ++ i :: List.range' (i + 1) (n - (i + 1)) := by
  have whole : List.range' 0 i ++ List.range' (0 + i) (n - (i + 1) + 1)
      = List.range' 0 (i + (n - (i + 1) + 1)) := List.range'_append_1
  rw [show i + (n - (i + 1) + 1) = n by omega, Nat.zero_add, List.range'_succ] at whole
  rw [List.range_eq_range', List.range_eq_range', whole]

/-- The output of the first item with both references, after items that have not both. -/
theorem itemOut_both (wf : WellFormedPage big page) {i : Nat} (lt : i < itemCount big page)
    (key : hasBigkey big page i) (data : hasBigdata big page i)
    (before : ∀ j < i, OneRef big page j) {s s' : Swapping}
    (run : (List.range i).foldlM (itemOut big page) (swapped page []) = some s)
    (item : itemOut big page s i = some s')
    : ⟨itemOff big page i + 25, 4⟩ ∈ s'.swaps := by
  have perm := outFields_perm big page
  have apart : (outFields big page).Pairwise Place.Apart :=
    perm.symm.pairwise wf.fields_apart Place.Apart.symm
  -- The places of the first items and of this one are among the fields.
  have split : outFields big page = (List.range i).flatMap (outPlaces big page)
      ++ (outPlaces big page i
        ++ ((List.range' (i + 1) (itemCount big page - (i + 1))).flatMap (outPlaces big page)
          ++ headerPlaces)) := by
    rw [outFields, range_split lt, List.flatMap_append, List.flatMap_cons, List.append_assoc,
      List.append_assoc]
  rw [split] at apart
  obtain ⟨first, -, elsewhere⟩ := List.pairwise_append.mp apart
  have among : (List.range i).flatMap (outPlaces big page) ⊆ fields big page := fun p member =>
    perm.subset (by rw [split]; exact List.mem_append_left _ member)
  have here : outPlaces big page i ⊆ fields big page := fun p member =>
    perm.subset (by rw [split]; exact List.mem_append_right _ (List.mem_append_left _ member))
  have state := @foldlM_itemOut big page wf (List.range i) []
    (fun j member => (List.mem_range.mp member).trans lt)
    (fun j member => before j (List.mem_range.mp member)) first among
  rw [run, List.nil_append] at state
  cases state
  obtain ⟨refs, sizes⟩ := itemPlaces_cons big page i
  have pair : (List.range i).flatMap (outPlaces big page)
      ++ [⟨itemOff big page i, 4⟩, ⟨itemOff big page i + 4, 4⟩] ⊆ fields big page := by
    intro q member
    rcases List.mem_append.mp member with first | later
    · exact among first
    · refine here ?_
      rw [outPlaces, sizes]
      exact List.mem_append_left _ (List.mem_append_left refs later)
  have shows {q : Place} (member : q ∈ outPlaces big page i)
      : get big q (swapped page ((List.range i).flatMap (outPlaces big page))).page
        = some (field big page q) :=
    shows_of_apart (wf.fields_inside (here member)) (wf.allInside among)
      fun p first => elsewhere p first q (List.mem_append_left _ member)
  have flags : get big ⟨itemOff big page i + 8, 1⟩ (swapped page ((List.range i).flatMap
      (outPlaces big page) ++ [⟨itemOff big page i, 4⟩, ⟨itemOff big page i + 4, 4⟩])).page
      = some (itemFlags big page i) :=
    shows_of_apart (wf.flags_inside lt) (wf.allInside pair)
      fun p member => wf.flags_apart lt (pair member)
  have linp : get big (linpPlace i) (swapped page ((List.range i).flatMap (outPlaces big page))).page
      = some (itemOff big page i) := shows (by simp [outPlaces])
  have ksize : get big ⟨itemOff big page i, 4⟩
      (swapped page ((List.range i).flatMap (outPlaces big page))).page
      = some (itemKsize big page i) := shows (by simp [outPlaces, sizes])
  rw [itemOut, if_pos data.1] at item
  simp only [leafOut, Option.bind_eq_bind] at item
  rw [linp, Option.bind_some, ksize, Option.bind_some, swapPair_swapped (wf.allInside pair),
    Option.bind_some, flags, Option.bind_some] at item
  obtain ⟨mid, swaps, last⟩ := Option.bind_eq_some_iff.mp item
  have place := swapRefs_both key data.2 swaps
  rw [wf.bigkey i lt key] at place
  exact keeps_swap _ _ _ last place

/-- The filters are exact for a page exactly when no leaf item has an overflow key and overflow data. -/
theorem filtersExact_iff {pg : Nat} (wf : WellFormedPage big page) (other : pg ≠ P_META)
    : FiltersExact big pg page
      ↔ ∀ i < itemCount big page, ¬ (hasBigkey big page i ∧ hasBigdata big page i) := by
  refine ⟨?_, filtersExact_of_oneRef wf other⟩
  rintro ⟨out, result, perm, -, -⟩
  intro i
  induction i using Nat.strong_induction_on with
  | _ i ih =>
  rintro lt ⟨key, data⟩
  have before (j : Nat) (below : j < i) : OneRef big page j := ih j below (below.trans lt)
  rw [btPgout_eq wf other, range_split lt, List.foldlM_append] at result
  simp only [List.foldlM_cons, Option.bind_eq_bind] at result
  obtain ⟨all, items, header⟩ := Option.bind_eq_some_iff.mp result
  obtain ⟨s, run, more⟩ := Option.bind_eq_some_iff.mp items
  obtain ⟨s', item, rest⟩ := Option.bind_eq_some_iff.mp more
  have wrong := itemOut_both wf lt key data before run item
  have later := keeps_foldlM keeps_itemOut _ _ _ rest wrong
  exact wf.not_field lt key data (perm.subset (keeps_swapHeader _ _ header later))

/-- A leaf page of 512 bytes with one item at its end, which has the given flags, and eight bytes for
its key and for its data. The numbers are in the order of a big-endian host.
-/
def pageOfItem (flags : UInt8) : List UInt8 :=
  [0, 0, 0, 5, 0, 0, 0, 0, 0, 0, 0, 0, 0, 0, 0, 2, 0, 22, 1, 0xe4, 1, 0xe4]
    ++ List.replicate 462 0
    ++ [0, 0, 0, 8, 0, 0, 0, 8, flags, 0, 0, 0, 7, 0, 0, 1, 0, 0, 0, 0, 9, 0, 0, 2, 0, 0, 0, 0]

theorem wellFormed_pageOfItem {flags : UInt8} (refs : flags = 2 ∨ flags = 3)
    : WellFormedPage true (pageOfItem flags) := by
  have count : itemCount true (pageOfItem flags) = 1 := by
    rcases refs with rfl | rfl <;> decide +kernel
  have only {i : Nat} (lt : i < itemCount true (pageOfItem flags)) : i = 0 := by omega
  refine ⟨?_, ?_, ?_, ?_, ?_, ?_, ?_, ?_⟩
  · rcases refs with rfl | rfl <;> decide +kernel
  · rcases refs with rfl | rfl <;> decide +kernel
  · rcases refs with rfl | rfl <;> decide +kernel
  · rcases refs with rfl | rfl <;> decide +kernel
  · intro i lt
    rw [only lt, Place.Inside]
    rcases refs with rfl | rfl <;> decide +kernel
  · intro i lt j lt' other
    exact absurd ((only lt).trans (only lt').symm) other
  · intro i lt _
    rw [only lt]
    rcases refs with rfl | rfl <;> decide +kernel
  · intro i lt _
    rw [only lt]
    rcases refs with rfl | rfl <;> decide +kernel

/-- Witness: an item with an overflow key and its data on the page. -/
theorem filtersExact_iff_bigkey
    : FiltersExact true 5 (pageOfItem 2) ↔ ∀ i < itemCount true (pageOfItem 2),
        ¬ (hasBigkey true (pageOfItem 2) i ∧ hasBigdata true (pageOfItem 2) i) :=
  filtersExact_iff (wellFormed_pageOfItem (Or.inl rfl)) (by decide)

/-- An item with both references at the end of its page: the second reference is left alone, and a byte
behind the page is swapped.
-/
theorem btPgout_both
    : WellFormedPage true (pageOfItem 3) ∧ btPgout true true 5 (pageOfItem 3) = none
      ∧ ¬ FiltersExact true 5 (pageOfItem 3) := by
  have outside : btPgout true true 5 (pageOfItem 3) = none := by decide +kernel
  refine ⟨wellFormed_pageOfItem (Or.inr rfl), outside, ?_⟩
  rintro ⟨s, result, -⟩
  rw [outside] at result
  cases result

end BSDLibC.Btree
