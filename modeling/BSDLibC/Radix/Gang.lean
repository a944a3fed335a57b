import Mathlib
import BSDLibC.Radix.TagRuns

/-! Gang lookups: a scan that goes from slot to slot in the tree finds what repeated lookups find. -/

namespace BSDLibC.Radix

variable {P : Type}

/-- `entry_match_p` -/
def entryMatchP (p : Entry P) (tagmask : Tags) : Option Bool :=
  if p.isNull && p.tagmask != 0 then none
  else if p.isZero then some false
  else if tagmask = 0 then some true
  else some (p.tagmask &&& tagmask != 0)

/-- A `radix_tree_path`, where `RADIX_TREE_INVALID_HEIGHT` is none. -/
structure Path where
  pRefs : Nat → Slot
  pLastidx : Option Nat

def pathPptr (t : Tree P) (path : Path) (height : Nat) : Option Slot :=
  if height ≤ t.tHeight then some (path.pRefs height) else none

def pathNode (t : Tree P) (path : Path) (height : Nat) : Option (Fin 16 → Entry P) := do
  (← getSlot t.tRoot (← pathPptr t path height)).nPtrs?

/-- The assertion about `p_lastidx`. -/
def checkLastidx (t : Tree P) (path : Path) (tagmask : Tags) : Option Unit :=
  match path.pLastidx with
  | none => some ()
  | some lastidx =>
      if lastidx = t.tHeight then
        some ()
      else do
        let entry ← getSlot t.tRoot (← pathPptr t path lastidx)
        if ← entryMatchP entry tagmask then none else return ()

/-- What `radix_tree_lookup_ptr` leaves in the path. The slots behind `p_lastidx` are not used. -/
def Found.refs (found : Found) : Path :=
  ⟨fun height => (found.path.getD []).take height, found.path.map List.length⟩

def gangLookupInit (t : Tree P) (idx : UInt64) (tagmask : Tags) : Option Path := do
  let found ← lookupPath t idx tagmask
  let path := found.refs
  if (← pathPptr t path 0) ≠ [] then
    none
  else
    checkLastidx t path tagmask
    return path

/-- The indexes into a node, from `first` to `last`. -/
def order (reverse : Bool) : List (Fin 16) :=
  if reverse then (List.finRange 16).reverse else List.finRange 16

def first (reverse : Bool) : Fin 16 := if reverse then 15 else 0

/-- The indexes that are left for the loop behind `i`. -/
def behind (reverse : Bool) (i : Fin 16) : List (Fin 16) := ((order reverse).dropWhile (· ≠ i)).tail

/-- How the loop over the siblings ends. -/
inductive Sibling
  | matching (i : Fin 16)
  | hole
  | guard

def gangLookupScan.sibling (tagmask : Tags) (dense : Bool) (n : Fin 16 → Entry P)
    : List (Fin 16) → Option Sibling
  | [] => some .guard
  | i :: rest => do
      if ← entryMatchP (n i) tagmask then return .matching i
      else if dense then return .hole
      else gangLookupScan.sibling tagmask dense n rest

/-- The variables of the scan, with the results up to `nfound`. -/
structure Scan (P : Type) where
  path : Path
  vpp : Slot
  lastidx : Nat
  results : List P

/-- From the label `descend` on, with the levels that are left. -/
def gangLookupScan.descend (t : Tree P) (tagmask : Tags) (reverse : Bool) : Nat → Scan P → Option (Scan P)
  | 0, s => do
      let _ ← entryMatchP (← getSlot t.tRoot s.vpp) tagmask
      return s
  | levels + 1, s => do
      let entry ← getSlot t.tRoot s.vpp
      if ← entryMatchP entry tagmask then
        let _ ← entry.nPtrs?
        gangLookupScan.descend t tagmask reverse levels
          { s with
            path := { s.path with pRefs := Function.update s.path.pRefs s.lastidx s.vpp }
            vpp := s.vpp ++ [first reverse]
            lastidx := s.lastidx + 1 }
      else
        return s

inductive Turn (P : Type)
  | goesOn (s : Scan P)
  | done (results : List P)

/-- `vpp - n->n_ptrs`, with the slot that holds the node. -/
def slotIndex (node vpp : Slot) : Option (Fin 16) := if vpp.dropLast = node then vpp.getLast? else none

/-- From the label `scan_siblings` on, by `lastidx`. -/
def gangLookupScan.scanSiblings (t : Tree P) (tagmask : Tags) (reverse dense : Bool)
    : Nat → Path → Slot → List P → Option (Turn P)
  | 0, _, vpp, results => if vpp = [] then some (.done results) else none
  | lastidx + 1, path, vpp, results => do
      let n ← pathNode t path lastidx
      let i ← slotIndex (path.pRefs lastidx) vpp
      match ← gangLookupScan.sibling tagmask dense n (behind reverse i) with
      | .matching j =>
          let vpp := path.pRefs lastidx ++ [j]
          let s ← gangLookupScan.descend t tagmask reverse (t.tHeight - (lastidx + 1))
            ⟨path, vpp, lastidx + 1, results⟩
          return .goesOn s
      | .hole => return .done results
      | .guard =>
          gangLookupScan.scanSiblings t tagmask reverse dense lastidx path (← pathPptr t path lastidx) results

/-- A round of the loop. -/
def gangLookupScan.round (t : Tree P) (maxresults : Nat) (tagmask : Tags) (reverse dense : Bool) (s : Scan P)
    : Option (Turn P) := do
  let entry ← getSlot t.tRoot s.vpp
  if ← entryMatchP entry tagmask then
    if s.lastidx ≠ t.tHeight then
      none
    else
      let results := s.results ++ [← ← entry.user?]
      if results.length = maxresults then
        return .done results
      else
        gangLookupScan.scanSiblings t tagmask reverse dense s.lastidx s.path s.vpp results
  else if dense then
    return .done s.results
  else
    gangLookupScan.scanSiblings t tagmask reverse dense s.lastidx s.path s.vpp s.results

def gangLookupScan.loop (t : Tree P) (maxresults : Nat) (tagmask : Tags) (reverse dense : Bool)
    : Nat → Scan P → Option (List P)
  | 0, _ => none
  | fuel + 1, s => do
      match ← gangLookupScan.round t maxresults tagmask reverse dense s with
      | .done results => return results
      | .goesOn s => gangLookupScan.loop t maxresults tagmask reverse dense fuel s

def gangLookupScan (fuel : Nat) (t : Tree P) (path : Path) (maxresults : Nat) (tagmask : Tags)
    (reverse dense : Bool)
    : Option (List P) := do
  if maxresults = 0 || (← pathPptr t path 0) ≠ [] then
    none
  else
    checkLastidx t path tagmask
    match path.pLastidx with
    | none =>
        if reverse && !dense then
          let s ← gangLookupScan.descend t tagmask reverse t.tHeight ⟨path, path.pRefs 0, 0, []⟩
          gangLookupScan.loop t maxresults tagmask reverse dense fuel s
        else
          return []
    | some lastidx =>
        gangLookupScan.loop t maxresults tagmask reverse dense fuel
          ⟨path, ← pathPptr t path lastidx, lastidx, []⟩

/-- `gang_lookup_scan` after `gang_lookup_init`. -/
def gangLookup (fuel : Nat) (t : Tree P) (idx : UInt64) (maxresults : Nat) (tagmask : Tags)
    (reverse dense : Bool)
    : Option (List P) := do
  gangLookupScan fuel t (← gangLookupInit t idx tagmask) maxresults tagmask reverse dense

def radixTreeGangLookupNode (fuel : Nat) (t : Tree P) (idx : UInt64) (maxresults : Nat) (dense : Bool)
    : Option (List P) :=
  gangLookup fuel t idx maxresults 0 false dense

def radixTreeGangLookupNodeReverse (fuel : Nat) (t : Tree P) (idx : UInt64) (maxresults : Nat) (dense : Bool)
    : Option (List P) :=
  gangLookup fuel t idx maxresults 0 true dense

def radixTreeGangLookupTaggedNode (fuel : Nat) (t : Tree P) (idx : UInt64) (maxresults : Nat) (dense : Bool)
    (tagmask : Tags)
    : Option (List P) :=
  if tagmask = 0 then none else gangLookup fuel t idx maxresults tagmask false dense

def radixTreeGangLookupTaggedNodeReverse (fuel : Nat) (t : Tree P) (idx : UInt64) (maxresults : Nat)
    (dense : Bool) (tagmask : Tags)
    : Option (List P) :=
  if tagmask = 0 then none else gangLookup fuel t idx maxresults tagmask true dense

-----------------------------------------------------------------------------------------
-- Repeated lookups
-----------------------------------------------------------------------------------------

/-- The node at an index, if it is there and has one of the tags. -/
def selected (t : Tree P) (tagmask : Tags) (idx : UInt64) : Option P :=
  match radixTreeLookupNode t idx with
  | some (some p) => if tagmask = 0 ∨ radixTreeGetTag t idx tagmask ≠ some 0 then some p else none
  | _ => none

/-- The indexes from `idx` upwards, or downwards. -/
def visited (reverse : Bool) (idx : UInt64) : List UInt64 :=
  (if reverse then (List.range (idx.toNat + 1)).reverse
    else List.range' idx.toNat (2 ^ 64 - idx.toNat)).map UInt64.ofNat

/-- What is kept of the indexes that are visited. With `dense` the first that is missing ends it. -/
def collect (dense : Bool) : List (Option P) → List P
  | [] => []
  | some p :: rest => p :: collect dense rest
  | none :: rest => if dense then [] else collect dense rest

def repeatedLookup (t : Tree P) (idx : UInt64) (maxresults : Nat) (tagmask : Tags) (reverse dense : Bool)
    : List P :=
  (collect dense ((visited reverse idx).map (selected t tagmask))).take maxresults

-----------------------------------------------------------------------------------------
-- The order of the slots
-----------------------------------------------------------------------------------------

variable {t : Tree P} {tagmask : Tags} {reverse dense : Bool} {e x : Entry P} {h : Nat} {f : Frame P}
  {up ctx : List (Frame P)} {i j : Fin 16} {L M : List (Option P)}

theorem nodup_order (reverse : Bool) : (order reverse).Nodup := by
  cases reverse
  · exact List.nodup_finRange 16
  · exact List.nodup_reverse.mpr (List.nodup_finRange 16)

theorem mem_order (reverse : Bool) (i : Fin 16) : i ∈ order reverse := by
  cases reverse <;> simp [order]

theorem order_first (reverse : Bool) : order reverse = first reverse :: behind reverse (first reverse) := by
  cases reverse <;> decide

theorem behind_of_order {before after : List (Fin 16)} (split : order reverse = before ++ i :: after)
    : behind reverse i = after := by
  have nodup := nodup_order reverse
  rw [split, List.nodup_append] at nodup
  have skipped : ∀ j ∈ before, (j ≠ i : Bool) = true := fun j inside =>
    decide_eq_true (nodup.2.2 j inside i List.mem_cons_self)
  rw [behind, split, List.dropWhile_append_of_pos skipped]
  simp

theorem order_split (reverse : Bool) (i : Fin 16)
    : ∃ before, order reverse = before ++ i :: behind reverse i := by
  obtain ⟨before, after, split⟩ := List.append_of_mem (mem_order reverse i)
  exact ⟨before, by rw [behind_of_order split, split]⟩

theorem behind_split {before after : List (Fin 16)} (split : behind reverse i = before ++ j :: after)
    : behind reverse j = after := by
  obtain ⟨start, whole⟩ := order_split reverse i
  rw [split, ← List.cons_append, ← List.append_assoc] at whole
  exact behind_of_order whole

theorem not_mem_behind (reverse : Bool) (i : Fin 16) : i ∉ behind reverse i := by
  obtain ⟨before, whole⟩ := order_split reverse i
  have nodup := nodup_order reverse
  rw [whole, List.nodup_append, List.nodup_cons] at nodup
  exact nodup.2.1.1

-----------------------------------------------------------------------------------------
-- What is collected
-----------------------------------------------------------------------------------------

/-- Nothing is found at these places. -/
def Blank (L : List (Option P)) : Prop := ∀ c ∈ L, c = none

theorem Blank.append (left : Blank L) (right : Blank M) : Blank (L ++ M) := fun c inside =>
  (List.mem_append.mp inside).elim (left c) (right c)

theorem collect_blank (blank : Blank L) : collect dense L = [] := by
  induction L with
  | nil => rfl
  | cons c L ih =>
      obtain rfl := blank c List.mem_cons_self
      rw [collect, ih fun c inside => blank c (List.mem_cons_of_mem _ inside), ite_self]

theorem collect_sparse (blank : Blank L) (M : List (Option P)) : collect false (L ++ M) = collect false M := by
  induction L with
  | nil => rfl
  | cons c L ih =>
      obtain rfl := blank c List.mem_cons_self
      exact ih fun c inside => blank c (List.mem_cons_of_mem _ inside)

theorem collect_dense (blank : Blank L) (here : L ≠ []) (M : List (Option P))
    : collect true (L ++ M) = [] := by
  cases L with
  | nil => exact absurd rfl here
  | cons c L =>
      obtain rfl := blank c List.mem_cons_self
      rfl

theorem collect_append_blank (L : List (Option P)) (blank : Blank M)
    : collect dense (L ++ M) = collect dense L := by
  induction L with
  | nil => exact collect_blank blank
  | cons c L ih => cases c <;> simp [collect, ih]

/-- Only that there is a hole counts, not how large it is. -/
theorem collect_hole {L' : List (Option P)} (blank : Blank L) (blank' : Blank L') (here : L ≠ [])
    (there : L' ≠ []) (M : List (Option P))
    : collect dense (L ++ M) = collect dense (L' ++ M) := by
  cases dense
  · rw [collect_sparse blank, collect_sparse blank']
  · rw [collect_dense blank here, collect_dense blank' there]

-----------------------------------------------------------------------------------------
-- The places below an entry
-----------------------------------------------------------------------------------------

/-- The entry in a slot of the node, or nothing if there is no node. -/
def Entry.child : Entry P → Fin 16 → Entry P
  | .node _ n, i => n i
  | _, _ => .null 0

/-- What the scan finds in a slot at the bottom. -/
def Entry.pick (tagmask : Tags) (e : Entry P) : Option P :=
  if e.stops tagmask then none else e.leaf?.map (·.1)

/-- What is at the places below an entry, in the direction of the scan. -/
def cells (reverse : Bool) (tagmask : Tags) : Nat → Entry P → List (Option P)
  | 0, e => [e.pick tagmask]
  | h + 1, e => (order reverse).flatMap fun i => cells reverse tagmask h (e.child i)

/-- What comes behind a slot. -/
def later (reverse : Bool) (tagmask : Tags) : Nat → List (Frame P) → List (Option P)
  | _, [] => []
  | h, f :: up =>
      ((behind reverse f.i).flatMap fun j => cells reverse tagmask h (f.n j))
        ++ later reverse tagmask (h + 1) up

theorem cells_ne_nil (h : Nat) (e : Entry P) : cells reverse tagmask h e ≠ [] := by
  induction h generalizing e with
  | zero => exact List.cons_ne_nil _ _
  | succ h ih =>
      rw [cells, order_first, List.flatMap_cons]
      exact List.append_ne_nil_of_left_ne_nil (ih _) _

theorem entryMatchP_eq (wf : Wf h e) : entryMatchP e tagmask = some (!e.stops tagmask) := by
  have masks (tags : Tags)
      : (if tagmask = 0 then some true else some (tags &&& tagmask != 0))
        = some (!(tagmask != 0 && tags &&& tagmask == 0)) := by
    by_cases zero : tagmask = 0
    · simp [zero]
    · rw [if_neg zero, bne_iff_ne.mpr zero]
      rfl
  cases e with
  | null tags =>
      obtain rfl : tags = 0 := by cases h <;> exact wf
      rfl
  | leaf tags p => exact masks tags
  | node tags n => exact masks tags

theorem wf_child (wf : Wf (h + 1) e) (i : Fin 16) : Wf h (e.child i) := by
  cases e with
  | null tags => exact wf_null h
  | leaf tags p => exact wf.elim
  | node tags n => exact wf.1 i

/-- There is nothing to find below an entry that does not match. -/
theorem stops_child (wf : Wf (h + 1) e) (stops : e.stops tagmask = true) (i : Fin 16)
    : (e.child i).stops tagmask = true := by
  cases e with
  | null tags => rfl
  | leaf tags p => exact wf.elim
  | node tags n =>
      obtain ⟨-, -, sums⟩ := wf
      simp only [Entry.stops, Entry.isNull, Bool.false_or, Bool.and_eq_true, bne_iff_ne, beq_iff_eq,
        Entry.tagmask] at stops
      obtain ⟨tagged, apart⟩ := stops
      have none_common : (n i).tagmask &&& tagmask = 0 := by
        rw [and_eq_zero_iff] at apart ⊢
        intro b inTag
        refine apart b ?_
        rw [sums, getLsbD_sumTags]
        exact ⟨i, inTag⟩
      have masked : ¬ tagmask = 0#2 := tagged
      simp [Entry.child, Entry.stops, masked, none_common]

theorem blank_cells (wf : Wf h e) (stops : e.stops tagmask = true) : Blank (cells reverse tagmask h e) := by
  induction h generalizing e with
  | zero =>
      intro c inside
      rw [cells, List.mem_singleton, Entry.pick, if_pos stops] at inside
      exact inside
  | succ h ih =>
      intro c inside
      obtain ⟨i, -, below⟩ := List.mem_flatMap.mp inside
      exact ih (wf_child wf i) (stops_child wf stops i) c below

theorem cells_node (tags : Tags) (n : Fin 16 → Entry P)
    : cells reverse tagmask (h + 1) (.node tags n) ++ later reverse tagmask (h + 1) ctx
      = cells reverse tagmask h (n (first reverse))
        ++ later reverse tagmask h (⟨tags, n, first reverse⟩ :: ctx) := by
  rw [cells, order_first, List.flatMap_cons, List.append_assoc]
  rfl

-----------------------------------------------------------------------------------------
-- The scan
-----------------------------------------------------------------------------------------

/-- The scan is at a slot, and knows the slots above it. -/
structure Stands (t : Tree P) (s : Scan P) (h : Nat) (ctx : List (Frame P)) (e : Entry P) : Prop where
  root : t.tRoot = plug ctx e
  height : h + ctx.length = t.tHeight
  vpp : s.vpp = route ctx
  lastidx : s.lastidx = ctx.length
  refs : ∀ i < ctx.length, s.path.pRefs i = (route ctx).take i

variable {s : Scan P} {way : Path}

theorem fill_own (tags : Tags) (n : Fin 16 → Entry P) (i : Fin 16)
    : Frame.fill ⟨tags, n, i⟩ (n i) = .node tags n := by
  rw [Frame.fill, Frame.put, Function.update_eq_self]

theorem Stands.below (stand : Stands t s h ctx e) (wf : t.Wf) : Around h ctx ∧ Wf h e := by
  have whole := wf.root
  rw [stand.root, ← stand.height] at whole
  exact whole.parts

theorem Stands.get (stand : Stands t s h ctx e) : getSlot t.tRoot s.vpp = some e := by
  rw [stand.root, stand.vpp, getSlot_route]

/-- The slots above are known one level deeper. -/
theorem refs_down (refs : ∀ i < ctx.length, way.pRefs i = (route ctx).take i) (f : Frame P)
    : ∀ i < (f :: ctx).length,
        Function.update way.pRefs ctx.length (route ctx) i = (route (f :: ctx)).take i := by
  intro i less
  rw [List.length_cons] at less
  have inside : i ≤ (route ctx).length := by
    rw [length_route]
    exact Nat.le_of_lt_succ less
  rw [route_cons, List.take_append_of_le_length inside]
  obtain shorter | rfl := Nat.lt_succ_iff_lt_or_eq.mp less
  · rw [Function.update_of_ne (Nat.ne_of_lt shorter), refs i shorter]
  · rw [Function.update_self, ← length_route, List.take_length]

/-- The scan goes down to the first place that is at the bottom or does not match. -/
theorem Stands.descend (tagmask : Tags) (reverse : Bool) (stand : Stands t s h ctx e) (wf : t.Wf)
    : ∃ s' h' ctx' e', gangLookupScan.descend t tagmask reverse h s = some s' ∧ Stands t s' h' ctx' e'
        ∧ (h' = 0 ∨ e'.stops tagmask = true) ∧ s'.results = s.results
        ∧ cells reverse tagmask h e ++ later reverse tagmask h ctx
          = cells reverse tagmask h' e' ++ later reverse tagmask h' ctx' := by
  induction h generalizing s ctx e with
  | zero =>
      refine ⟨s, 0, ctx, e, ?_, stand, Or.inl rfl, rfl, rfl⟩
      simp [gangLookupScan.descend, stand.get, entryMatchP_eq (stand.below wf).2]
  | succ h ih =>
      by_cases stops : e.stops tagmask = true
      · refine ⟨s, h + 1, ctx, e, ?_, stand, Or.inr stops, rfl, rfl⟩
        simp [gangLookupScan.descend, stand.get, entryMatchP_eq (stand.below wf).2, stops]
      · cases e with
        | null tags => exact absurd rfl stops
        | leaf tags p => exact (stand.below wf).2.elim
        | node tags n =>
            let s₁ : Scan P :=
              { s with
                path := { s.path with pRefs := Function.update s.path.pRefs s.lastidx s.vpp }
                vpp := s.vpp ++ [first reverse]
                lastidx := s.lastidx + 1 }
            have below : Stands t s₁ h (⟨tags, n, first reverse⟩ :: ctx) (n (first reverse)) := by
              refine ⟨?_, ?_, ?_, congrArg (· + 1) stand.lastidx, ?_⟩
              · rw [stand.root, plug_cons, fill_own]
              · rw [← stand.height, List.length_cons, Nat.add_assoc, Nat.add_comm 1]
              · rw [route_cons, ← stand.vpp]
              · have down := refs_down stand.refs ⟨tags, n, first reverse⟩
                rwa [← stand.lastidx, ← stand.vpp] at down
            obtain ⟨s', h', ctx', e', run, stands, ends, results, same⟩ := ih below
            refine ⟨s', h', ctx', e', ?_, stands, ends, results, (cells_node tags n).trans same⟩
            rw [gangLookupScan.descend, stand.get]
            simp only [Option.bind_eq_bind, Option.bind_some, entryMatchP_eq (stand.below wf).2, stops,
              Bool.not_false, if_true, Entry.nPtrs?]
            exact run

/-- The loop over the siblings stops at the first that matches, and with `dense` at any. -/
theorem sibling_spec {n : Fin 16 → Entry P} (js : List (Fin 16)) (kids : ∀ i ∈ js, Wf h (n i))
    : (∃ pre j post, js = pre ++ j :: post ∧ (∀ i ∈ pre, (n i).stops tagmask = true)
          ∧ (dense = true → pre = [])
          ∧ gangLookupScan.sibling tagmask dense n js = some (.matching j))
        ∨ (dense = true ∧ (∃ j post, js = j :: post ∧ (n j).stops tagmask = true)
          ∧ gangLookupScan.sibling tagmask dense n js = some .hole)
        ∨ ((∀ i ∈ js, (n i).stops tagmask = true) ∧ (dense = true → js = [])
          ∧ gangLookupScan.sibling tagmask dense n js = some .guard) := by
  induction js with
  | nil => exact Or.inr (Or.inr ⟨nofun, fun _ => rfl, rfl⟩)
  | cons i rest ih =>
      rw [gangLookupScan.sibling, entryMatchP_eq (kids i List.mem_cons_self)]
      cases stops : (n i).stops tagmask with
      | false => exact Or.inl ⟨[], i, rest, rfl, nofun, fun _ => rfl, rfl⟩
      | true =>
          cases dense with
          | true => exact Or.inr (Or.inl ⟨rfl, ⟨i, rest, rfl, stops⟩, rfl⟩)
          | false =>
              rcases ih fun i inside => kids i (List.mem_cons_of_mem _ inside) with
                ⟨pre, j, post, split, skipped, -, found⟩ | ⟨absurd', -⟩ | ⟨skipped, -, found⟩
              · have all : ∀ k ∈ i :: pre, (n k).stops tagmask = true :=
                  List.forall_mem_cons.mpr ⟨stops, skipped⟩
                refine Or.inl ⟨i :: pre, j, post, ?_, all, nofun, found⟩
                rw [split]
                rfl
              · cases absurd'
              · exact Or.inr (Or.inr ⟨List.forall_mem_cons.mpr ⟨stops, skipped⟩, nofun, found⟩)

theorem collect_skip (blank : Blank L) (at_once : dense = true → L = []) (M : List (Option P))
    : collect dense (L ++ M) = collect dense M := by
  cases dense with
  | false => exact collect_sparse blank M
  | true => rw [at_once rfl, List.nil_append]

theorem blank_siblings {n : Fin 16 → Entry P} {js : List (Fin 16)} (kids : ∀ i, Wf h (n i))
    (stops : ∀ i ∈ js, (n i).stops tagmask = true)
    : Blank (js.flatMap fun i => cells reverse tagmask h (n i)) := by
  intro c inside
  obtain ⟨i, member, below⟩ := List.mem_flatMap.mp inside
  exact blank_cells (kids i) (stops i member) c below

theorem put_behind (f : Frame P) (e : Entry P)
    : ((behind reverse f.i).flatMap fun j => cells reverse tagmask h (f.put e j))
      = (behind reverse f.i).flatMap fun j => cells reverse tagmask h (f.n j) := by
  refine List.flatMap_congr fun j inside => ?_
  rw [Frame.put_ne]
  rintro rfl
  exact not_mem_behind reverse f.i inside

/-- Where the scan goes when it is through with a slot. -/
def Moves (t : Tree P) (tagmask : Tags) (reverse dense : Bool) (L : List (Option P)) (results : List P)
    (turn : Turn P)
    : Prop :=
  (turn = .done results ∧ collect dense L = [])
    ∨ ∃ s h ctx e, turn = .goesOn s ∧ Stands t s h ctx e ∧ (h = 0 ∨ e.stops tagmask = true)
      ∧ s.results = results
      ∧ collect dense L = collect dense (cells reverse tagmask h e ++ later reverse tagmask h ctx)
      ∧ (cells reverse tagmask h e ++ later reverse tagmask h ctx).length ≤ L.length

/-- Slots that do not match are skipped. -/
theorem Moves.skip {results : List P} {turn : Turn P} (moves : Moves t tagmask reverse dense M results turn)
    (blank : Blank L) (at_once : dense = true → L = [])
    : Moves t tagmask reverse dense (L ++ M) results turn := by
  rw [Moves, collect_skip blank at_once]
  refine moves.imp id ?_
  rintro ⟨s, h, ctx, e, rfl, stands, settled, same, collected, shorter⟩
  refine ⟨s, h, ctx, e, rfl, stands, settled, same, collected, shorter.trans ?_⟩
  rw [List.length_append]
  exact Nat.le_add_left _ _

theorem scanSiblings_spec (tagmask : Tags) (reverse dense : Bool) (wf : t.Wf) (results : List P)
    (stand : Stands t s h ctx e)
    : ∃ turn, gangLookupScan.scanSiblings t tagmask reverse dense ctx.length s.path s.vpp results = some turn
      ∧ Moves t tagmask reverse dense (later reverse tagmask h ctx) results turn := by
  induction ctx generalizing s h e with
  | nil =>
      refine ⟨.done results, ?_, Or.inl ⟨rfl, rfl⟩⟩
      rw [List.length_nil, gangLookupScan.scanSiblings, stand.vpp]
      rfl
  | cons f up ih =>
      obtain ⟨around, low⟩ := stand.below wf
      have kids : ∀ j, Wf h (f.put e j) := around.put low
      have lower : up.length < (f :: up).length := Nat.lt_succ_self _
      have above : s.path.pRefs up.length = route up := by
        rw [stand.refs _ lower, route_cons, ← length_route, List.take_left]
      have levels : h + up.length + 1 = t.tHeight := stand.height
      have ptr : pathPptr t s.path up.length = some (route up) := by
        rw [pathPptr, if_pos (by omega), above]
      have node : pathNode t s.path up.length = some (f.put e) := by
        rw [pathNode, ptr]
        simp [stand.root, Frame.fill, Entry.nPtrs?]
      have slot : slotIndex (s.path.pRefs up.length) s.vpp = some f.i := by
        rw [slotIndex, stand.vpp, above, route_cons, List.dropLast_concat, if_pos rfl, List.getLast?_concat]
      rw [List.length_cons, gangLookupScan.scanSiblings, node, slot, above]
      simp only [Option.bind_eq_bind, Option.bind_some]
      have here : later reverse tagmask h (f :: up)
          = ((behind reverse f.i).flatMap fun j => cells reverse tagmask h (f.put e j))
            ++ later reverse tagmask (h + 1) up := by
        rw [put_behind]
        rfl
      rw [here]
      rcases @sibling_spec _ tagmask dense h _ (behind reverse f.i) fun j _ => kids j with
        ⟨pre, j, post, split, skipped, at_once, found⟩ | ⟨rfl, ⟨j, post, split, stops⟩, found⟩
        | ⟨skipped, at_once, found⟩
      · let s₁ : Scan P := ⟨s.path, route up ++ [j], up.length + 1, results⟩
        have next : Stands t s₁ h (⟨f.tags, f.put e, j⟩ :: up) (f.put e j) := by
          refine ⟨?_, stand.height, (route_cons ⟨f.tags, f.put e, j⟩ up).symm, rfl, fun i less => ?_⟩
          · rw [plug_cons, fill_own]
            exact stand.root
          have inside : i ≤ (route up).length := by
            rw [length_route]
            exact Nat.le_of_lt_succ less
          rw [route_cons, List.take_append_of_le_length inside, stand.refs i less, route_cons,
            List.take_append_of_le_length inside]
        obtain ⟨s', h', ctx', e', run, stands, settled, same, whole⟩ := next.descend tagmask reverse wf
        have left : t.tHeight - (up.length + 1) = h := by omega
        refine ⟨.goesOn s', by rw [found]; simp only [Option.bind_some]; rw [left, run]; rfl, ?_⟩
        rw [split, List.flatMap_append, List.append_assoc]
        refine Moves.skip ?_ (blank_siblings kids skipped) fun now => by rw [at_once now]; rfl
        have rest
            : (j :: post).flatMap (fun j => cells reverse tagmask h (f.put e j))
                ++ later reverse tagmask (h + 1) up
              = cells reverse tagmask h' e' ++ later reverse tagmask h' ctx' := by
          rw [← whole, later, behind_split split, List.flatMap_cons, List.append_assoc]
        rw [rest]
        exact Or.inr ⟨s', h', ctx', e', rfl, stands, settled, same, rfl, le_rfl⟩
      · refine ⟨.done results, by rw [found]; rfl, Or.inl ⟨rfl, ?_⟩⟩
        rw [split, List.flatMap_cons, List.append_assoc]
        exact collect_dense (blank_cells (kids j) stops) (cells_ne_nil h _) _
      · have parent : Stands t { s with vpp := route up, lastidx := up.length } (h + 1) up (f.fill e) := by
          refine ⟨stand.root, by rw [← levels]; omega, rfl, rfl, fun i less => ?_⟩
          have inside : i ≤ (route up).length := by
            rw [length_route]
            exact less.le
          rw [stand.refs i (less.trans lower), route_cons, List.take_append_of_le_length inside]
        rw [found, ptr]
        obtain ⟨turn, run, moves⟩ := ih parent
        exact ⟨turn, run, moves.skip (blank_siblings kids skipped) fun now => by rw [at_once now]; rfl⟩

-----------------------------------------------------------------------------------------
-- The loop
-----------------------------------------------------------------------------------------

variable {maxresults : Nat}

/-- A round ends with enough results or goes on to what is left. -/
theorem round_spec (reverse dense : Bool) (wf : t.Wf) (stand : Stands t s h ctx e)
    (settled : h = 0 ∨ e.stops tagmask = true)
    (room : s.results.length < maxresults)
    : ∃ turn M new, gangLookupScan.round t maxresults tagmask reverse dense s = some turn
      ∧ collect dense (cells reverse tagmask h e ++ later reverse tagmask h ctx) = new ++ collect dense M
      ∧ M.length < (cells reverse tagmask h e ++ later reverse tagmask h ctx).length
      ∧ ((turn = .done (s.results ++ new) ∧ (s.results ++ new).length = maxresults)
        ∨ ((s.results ++ new).length < maxresults
          ∧ Moves t tagmask reverse dense M (s.results ++ new) turn)) := by
  have shorter
      : (later reverse tagmask h ctx).length
        < (cells reverse tagmask h e ++ later reverse tagmask h ctx).length := by
    rw [List.length_append]
    exact Nat.lt_add_of_pos_left (List.length_pos_of_ne_nil (cells_ne_nil h e))
  obtain ⟨around, low⟩ := stand.below wf
  rw [gangLookupScan.round, stand.get]
  simp only [Option.bind_eq_bind, Option.bind_some, entryMatchP_eq low]
  cases stops : e.stops tagmask with
  | true =>
      have blank : Blank (cells reverse tagmask h e) := blank_cells low stops
      cases dense with
      | true =>
          refine ⟨_, [], [], rfl, collect_dense blank (cells_ne_nil h e) _, Nat.zero_lt_of_lt shorter,
            Or.inr ?_⟩
          rw [List.append_nil]
          exact ⟨room, Or.inl ⟨rfl, rfl⟩⟩
      | false =>
          obtain ⟨turn, went, moves⟩ := scanSiblings_spec tagmask reverse false wf s.results stand
          refine ⟨turn, _, [], ?_, collect_sparse blank _, shorter, Or.inr ?_⟩
          · rw [stand.lastidx]
            exact went
          · rw [List.append_nil]
            exact ⟨room, moves⟩
  | false =>
      obtain rfl : h = 0 := settled.resolve_right (by rw [stops]; exact Bool.false_ne_true)
      cases e with
      | null tags => cases stops
      | node tags n => exact low.elim
      | leaf tags p =>
          have bottom : s.lastidx = t.tHeight := by
            rw [stand.lastidx, ← stand.height, Nat.zero_add]
          have one : cells reverse tagmask 0 (.leaf tags p) = [some p] := by
            rw [cells, Entry.pick, stops]
            rfl
          rw [one] at shorter ⊢
          simp only [Bool.not_false, if_true, bottom, ne_eq, not_true_eq_false, if_false, Entry.user?,
            Option.bind_some]
          by_cases full : (s.results ++ [p]).length = maxresults
          · exact ⟨_, _, [p], if_pos full, rfl, shorter, Or.inl ⟨rfl, full⟩⟩
          · obtain ⟨turn, went, moves⟩ :=
              scanSiblings_spec tagmask reverse dense wf (s.results ++ [p]) stand
            rw [← stand.lastidx, bottom] at went
            refine ⟨turn, _, [p], (if_neg full).trans went, rfl, shorter, Or.inr ⟨?_, moves⟩⟩
            rw [List.length_append, List.length_singleton] at full ⊢
            exact Nat.lt_of_le_of_ne room full

/-- The loop collects what is left, as long as there is room. -/
theorem loop_spec (dense : Bool) (wf : t.Wf) (left : Nat) (stand : Stands t s h ctx e)
    (settled : h = 0 ∨ e.stops tagmask = true)
    (room : s.results.length < maxresults)
    (enough : (cells reverse tagmask h e ++ later reverse tagmask h ctx).length ≤ left)
    : gangLookupScan.loop t maxresults tagmask reverse dense left s
      = some (s.results ++ (collect dense (cells reverse tagmask h e ++ later reverse tagmask h ctx)).take
          (maxresults - s.results.length)) := by
  induction left generalizing s h ctx e with
  | zero =>
      have none_left := List.eq_nil_of_length_eq_zero (Nat.le_zero.mp enough)
      exact absurd (List.append_eq_nil_iff.mp none_left).1 (cells_ne_nil h e)
  | succ left ih =>
      obtain ⟨turn, M, new, run, collected, shorter, ends⟩ := round_spec reverse dense wf stand settled room
      rw [gangLookupScan.loop, run, collected]
      rw [List.length_append] at ends
      have still : maxresults - s.results.length - new.length = maxresults - (s.results ++ new).length := by
        rw [List.length_append, Nat.sub_sub]
      rcases ends with
        ⟨rfl, full⟩ | ⟨more, ⟨rfl, nothing⟩ | ⟨s', h', ctx', e', rfl, stands, ends, results, rest, less⟩⟩
      · have all : maxresults - s.results.length = new.length := by omega
        rw [all, List.take_left]
        rfl
      · rw [nothing, List.append_nil, List.take_of_length_le (by omega)]
        rfl
      · have fewer := ih stands ends (by rw [results, List.length_append]; exact more) (by omega)
        rw [rest, List.take_append, List.take_of_length_le (by omega), ← List.append_assoc, still,
          ← results]
        exact fewer

end BSDLibC.Radix
