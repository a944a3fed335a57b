import BSDLibC.Radix.Gang

/-! A gang lookup returns what lookups of one index after the other return. -/

namespace BSDLibC.Radix

variable {P : Type} {t : Tree P} {tagmask : Tags} {reverse dense : Bool} {e : Entry P} {h : Nat}
  {ctx : List (Frame P)} {way : Path} {maxresults : Nat}

-----------------------------------------------------------------------------------------
-- The start
-----------------------------------------------------------------------------------------

/-- What is at the places from a slot on. -/
def cellsFrom (reverse : Bool) (tagmask : Tags) : Slot → Entry P → List (Option P)
  | [], e => [e.pick tagmask]
  | i :: rest, e =>
      cellsFrom reverse tagmask rest (e.child i)
        ++ (behind reverse i).flatMap fun j => cells reverse tagmask rest.length (e.child j)

theorem cellsFrom_ne_nil (rest : Slot) (e : Entry P) : cellsFrom reverse tagmask rest e ≠ [] := by
  induction rest generalizing e with
  | nil => exact List.cons_ne_nil _ _
  | cons i rest ih => exact List.append_ne_nil_of_left_ne_nil (ih _) _

theorem blank_cellsFrom {rest : Slot} (wf : Wf rest.length e) (stops : e.stops tagmask = true)
    : Blank (cellsFrom reverse tagmask rest e) := by
  induction rest generalizing e with
  | nil => exact @blank_cells _ _ reverse _ 0 wf stops
  | cons i rest ih =>
      have inside (j : Fin 16) : (e.child j).stops tagmask = true := stops_child wf stops j
      exact (ih (wf_child wf i) (inside i)).append
        (blank_siblings (fun j => wf_child wf j) fun j _ => inside j)

/-- A lookup ends at the slot, or where nothing is left to be found below. -/
theorem descend_start (tagmask : Tags) (reverse : Bool) {rest : Slot} (wf : Wf rest.length e)
    (whole : t.tRoot = plug ctx e)
    : ∃ ctx' x more, (descend tagmask e rest (route ctx)).path = some (route ctx') ∧ t.tRoot = plug ctx' x
      ∧ Wf more.length x ∧ more.length + ctx'.length = rest.length + ctx.length
      ∧ (more = [] ∨ x.stops tagmask = true)
      ∧ cellsFrom reverse tagmask rest e ++ later reverse tagmask rest.length ctx
        = cellsFrom reverse tagmask more x ++ later reverse tagmask more.length ctx' := by
  induction rest generalizing e ctx with
  | nil =>
      refine ⟨ctx, e, [], ?_, whole, wf, rfl, Or.inl rfl, rfl⟩
      cases e <;> rfl
  | cons i rest ih =>
      by_cases stops : e.stops tagmask = true
      · refine ⟨ctx, e, i :: rest, ?_, whole, wf, rfl, Or.inr stops, rfl⟩
        cases e with
        | null tags => rfl
        | leaf tags p => rfl
        | node tags n =>
            rw [descend, if_pos stops]
            rfl
      · cases e with
        | null tags => exact absurd rfl stops
        | leaf tags p => exact wf.elim
        | node tags n =>
            have below : t.tRoot = plug (⟨tags, n, i⟩ :: ctx) (n i) := by rw [plug_cons, fill_own, whole]
            obtain ⟨ctx', x, more, ends, there, low, levels, settled, same⟩ := ih (wf.1 i) below
            refine ⟨ctx', x, more, ?_, there, low, ?_, settled, same ▸ ?_⟩
            · rw [descend, if_neg stops, ← ends, route_cons]
            · rw [levels, List.length_cons, List.length_cons]
              omega
            · rw [cellsFrom, List.append_assoc]
              rfl

/-- Only whether there is something between the slot and the next one counts. -/
theorem collect_start {more : Slot} (wf : Wf more.length e) (settled : more = [] ∨ e.stops tagmask = true)
    (M : List (Option P))
    : collect dense (cells reverse tagmask more.length e ++ M)
      = collect dense (cellsFrom reverse tagmask more e ++ M) := by
  rcases settled with rfl | stops
  · rfl
  · exact collect_hole (blank_cells wf stops) (blank_cellsFrom wf stops) (cells_ne_nil _ e)
      (cellsFrom_ne_nil more e) M

theorem checkLastidx_eq (stand : Stands t ⟨way, route ctx, ctx.length, []⟩ h ctx e) (wf : t.Wf)
    (last : way.pLastidx = some ctx.length) (slot : way.pRefs ctx.length = route ctx)
    (settled : h = 0 ∨ e.stops tagmask = true)
    : checkLastidx t way tagmask = some () := by
  have inside : ctx.length ≤ t.tHeight := stand.height ▸ Nat.le_add_left _ _
  rw [checkLastidx, last]
  by_cases bottom : ctx.length = t.tHeight
  · exact if_pos bottom
  · have stops := settled.resolve_left fun zero => bottom (by rw [← stand.height, zero, Nat.zero_add])
    refine (if_neg bottom).trans ?_
    rw [pathPptr, if_pos inside, slot]
    simp [stand.root, entryMatchP_eq (stand.below wf).2, stops]

theorem gangLookup_inside (tagmask : Tags) (reverse dense : Bool) (wf : t.Wf) {idx : UInt64}
    (fits : idx.toNat < 16 ^ t.tHeight) (positive : 1 ≤ maxresults)
    : ∃ enough, ∀ fuel ≥ enough, gangLookup fuel t idx maxresults tagmask reverse dense
      = some ((collect dense (cellsFrom reverse tagmask (path t.tHeight idx) t.tRoot)).take maxresults) := by
  have root : Wf (path t.tHeight idx).length t.tRoot := by
    rw [length_path]
    exact wf.root
  obtain ⟨ctx, x, more, ends, there, low, levels, settled, same⟩ :=
    descend_start tagmask reverse root (plug_nil t.tRoot).symm
  rw [length_path, List.length_nil, Nat.add_zero] at levels
  rw [later, List.append_nil] at same
  let way : Path := ⟨fun height => (route ctx).take height, some ctx.length⟩
  have known : Found.refs (descend tagmask t.tRoot (path t.tHeight idx) []) = way := by
    rw [← route_nil, Found.refs, ends, Option.map_some, length_route]
    rfl
  have slot : way.pRefs ctx.length = route ctx := by
    rw [← length_route]
    exact List.take_length
  have stand : Stands t ⟨way, route ctx, ctx.length, []⟩ more.length ctx x :=
    ⟨there, levels, rfl, rfl, fun _ _ => rfl⟩
  have settled' : more.length = 0 ∨ x.stops tagmask = true := settled.imp_left List.length_eq_zero_iff.mpr
  have checked : checkLastidx t way tagmask = some () := checkLastidx_eq stand wf rfl slot settled'
  have inside : ctx.length ≤ t.tHeight := levels ▸ Nat.le_add_left _ _
  refine ⟨(cells reverse tagmask more.length x ++ later reverse tagmask more.length ctx).length,
    fun fuel enough => ?_⟩
  have run := loop_spec dense wf fuel stand settled' positive enough
  have top : pathPptr t way 0 = some [] := if_pos (Nat.zero_le _)
  have start : pathPptr t way ctx.length = some (route ctx) := (if_pos inside).trans (congrArg some slot)
  rw [gangLookup, gangLookupInit, lookupPath_eq wf, if_pos fits]
  simp only [Option.bind_eq_bind, Option.bind_some, known, gangLookupScan, checked, top,
    Nat.ne_of_gt positive, ne_eq, not_true_eq_false, decide_false, Bool.or_false, Bool.false_eq_true, if_false,
    Option.pure_def]
  rw [same, ← collect_start low settled]
  exact (congrArg (Option.bind · _) start).trans run

theorem gangLookup_beyond (tagmask : Tags) (reverse dense : Bool) (wf : t.Wf) {idx : UInt64}
    (large : ¬ idx.toNat < 16 ^ t.tHeight) (positive : 1 ≤ maxresults)
    : ∃ enough, ∀ fuel ≥ enough, gangLookup fuel t idx maxresults tagmask reverse dense
      = some (if reverse && !dense then
            (collect dense (cells reverse tagmask t.tHeight t.tRoot)).take maxresults
          else
            []) := by
  let way : Path := ⟨fun height => ([] : Slot).take height, none⟩
  have top : pathPptr t way 0 = some [] := if_pos (Nat.zero_le _)
  have stand : Stands t ⟨way, [], 0, []⟩ t.tHeight [] t.tRoot := ⟨rfl, rfl, rfl, rfl, nofun⟩
  obtain ⟨s, h, ctx, e, down, stands, settled, results, same⟩ := stand.descend tagmask reverse wf
  refine ⟨(cells reverse tagmask h e ++ later reverse tagmask h ctx).length, fun fuel enough => ?_⟩
  have room : s.results.length < maxresults := by
    rw [results]
    exact positive
  have run := loop_spec dense wf fuel stands settled room enough
  have checked : checkLastidx t way tagmask = some () := rfl
  have known : Found.refs (.stopped none) = way := rfl
  rw [gangLookup, gangLookupInit, lookupPath_eq wf, if_neg large]
  simp only [Option.bind_eq_bind, Option.bind_some, known, gangLookupScan, checked, top,
    Nat.ne_of_gt positive, ne_eq, not_true_eq_false, decide_false, Bool.or_false, Bool.false_eq_true, if_false,
    Option.pure_def]
  rw [← same, results, later, List.append_nil] at run
  by_cases backward : (reverse && !dense) = true
  · rw [if_pos backward, if_pos backward]
    exact (congrArg (Option.bind · _) down).trans run
  · rw [if_neg backward, if_neg backward]

-----------------------------------------------------------------------------------------
-- The places as numbers
-----------------------------------------------------------------------------------------

/-- The numbers from `a` on, in the direction of the scan. -/
def span (reverse : Bool) (a n : Nat) : List Nat :=
  if reverse then (List.range' a n).reverse else List.range' a n

/-- The numbers below `n` from `v` on, or from `v` downwards. -/
def spanFrom (reverse : Bool) (n v : Nat) : List Nat :=
  if reverse then span reverse 0 (v + 1) else span reverse v (n - v)

/-- The path to a number. -/
def digits : Nat → Nat → Slot
  | 0, _ => []
  | h + 1, v => Fin.ofNat 16 (v / 16 ^ h) :: digits h v

theorem path_eq_digits (h : Nat) (idx : UInt64) : path h idx = digits h idx.toNat := by
  induction h with
  | zero => rfl
  | succ h ih =>
      rw [path, digits, ih]
      congr 1
      exact Fin.ext (nibble_val idx h)

@[simp] theorem length_digits (h v : Nat) : (digits h v).length = h := by
  induction h with
  | zero => rfl
  | succ h ih => rw [digits, List.length_cons, ih]

/-- The digits above the height do not count. -/
theorem digits_add (h k w : Nat) : digits h (k * 16 ^ h + w) = digits h w := by
  induction h generalizing k with
  | zero => rfl
  | succ h ih =>
      have split : k * 16 ^ (h + 1) + w = (k * 16) * 16 ^ h + w := by rw [Nat.pow_succ', Nat.mul_assoc]
      rw [digits, digits, split, ih]
      congr 1
      apply Fin.ext
      rw [Fin.val_ofNat, Fin.val_ofNat, Nat.add_comm, Nat.add_mul_div_right _ _ (Nat.pow_pos (by decide)),
        Nat.add_mul_mod_self_right]

theorem digits_block (i : Fin 16) {w : Nat} (small : w < 16 ^ h)
    : digits (h + 1) (i.val * 16 ^ h + w) = i :: digits h w := by
  rw [digits, digits_add]
  congr 1
  apply Fin.ext
  rw [Fin.val_ofNat, Nat.add_comm, Nat.add_mul_div_right _ _ (Nat.pow_pos (by decide)), Nat.div_eq_of_lt small,
    Nat.zero_add, Nat.mod_eq_of_lt i.isLt]

theorem order_val (reverse : Bool) : (order reverse).map Fin.val = span reverse 0 16 := by
  cases reverse <;> decide

theorem behind_val (reverse : Bool) (i : Fin 16)
    : (behind reverse i).map Fin.val
      = span reverse (if reverse then 0 else i.val + 1) (if reverse then i.val else 15 - i.val) := by
  revert i
  cases reverse <;> decide

theorem mem_span {a n v : Nat} : v ∈ span reverse a n ↔ a ≤ v ∧ v < a + n := by
  cases reverse <;> simp [span]

theorem span_blocks (reverse : Bool) (B a k : Nat)
    : (span reverse a k).flatMap (fun i => span reverse (i * B) B) = span reverse (a * B) (k * B) := by
  have upwards : (List.range' a k).flatMap (fun i => List.range' (i * B) B) = List.range' (a * B) (k * B) := by
    induction k generalizing a with
    | zero => simp
    | succ k ih =>
        rw [List.range'_succ, List.flatMap_cons, ih, Nat.succ_mul, Nat.succ_mul k, Nat.add_comm (k * B),
          ← List.range'_append_1]
  cases reverse with
  | false => exact upwards
  | true =>
      simp only [span, if_true]
      rw [← upwards, List.reverse_flatMap]
      rfl

theorem span_shift (reverse : Bool) (a b n : Nat)
    : (span reverse b n).map (a + ·) = span reverse (a + b) n := by
  cases reverse
  · exact (List.map_add_range' ..).trans rfl
  · rw [span, if_pos rfl, List.map_reverse, List.map_add_range', span, if_pos rfl]

/-- What the scan finds at the end of a path. -/
def pickAt (tagmask : Tags) : Entry P → Slot → Option P
  | e, [] => e.pick tagmask
  | e, i :: rest => pickAt tagmask (e.child i) rest

/-- A child has its numbers within those of the node. -/
theorem pick_shift (e : Entry P) (i : Fin 16) {a n : Nat} (inside : a + n ≤ 16 ^ h)
    : (span reverse a n).map (fun w => pickAt tagmask (e.child i) (digits h w))
      = (span reverse (i.val * 16 ^ h + a) n).map (fun v => pickAt tagmask e (digits (h + 1) v)) := by
  rw [← span_shift, List.map_map]
  refine List.map_congr_left fun w member => ?_
  rw [Function.comp_apply, digits_block i (Nat.lt_of_lt_of_le (mem_span.mp member).2 inside)]
  rfl

theorem cells_eq (h : Nat) (e : Entry P)
    : cells reverse tagmask h e = (span reverse 0 (16 ^ h)).map (fun v => pickAt tagmask e (digits h v)) := by
  induction h generalizing e with
  | zero => cases reverse <;> rfl
  | succ h ih =>
      rw [cells, List.flatMap_congr fun i _ => (ih (e.child i)).trans (pick_shift e i (Nat.zero_add _).le),
        Nat.pow_succ', ← Nat.zero_mul (16 ^ h), ← span_blocks, ← order_val, List.map_flatMap,
        List.flatMap_map]
      simp only [Nat.zero_mul, Nat.add_zero]

theorem siblings_eq (e : Entry P) (i : Fin 16)
    : ((behind reverse i).flatMap fun j => cells reverse tagmask h (e.child j))
      = (span reverse ((if reverse then 0 else i.val + 1) * 16 ^ h)
          ((if reverse then i.val else 15 - i.val) * 16 ^ h)).map
          fun v => pickAt tagmask e (digits (h + 1) v) := by
  rw [List.flatMap_congr fun j _ => (cells_eq h (e.child j)).trans (pick_shift e j (Nat.zero_add _).le),
    ← span_blocks, ← behind_val, List.map_flatMap, List.flatMap_map]
  simp only [Nat.add_zero]

/-- The rest of a block and the blocks behind it. -/
theorem spanFrom_split (i : Fin 16) {B w : Nat} (small : w < B)
    : (if reverse then span reverse (i.val * B + 0) (w + 1) else span reverse (i.val * B + w) (B - w))
        ++ span reverse ((if reverse then 0 else i.val + 1) * B) ((if reverse then i.val else 15 - i.val) * B)
      = spanFrom reverse (16 * B) (i.val * B + w) := by
  cases reverse with
  | true =>
      simp only [spanFrom, span, if_true, Nat.zero_mul, Nat.add_zero, ← List.reverse_append]
      have joined := @List.range'_append_1 0 (i.val * B) (w + 1)
      rw [Nat.zero_add] at joined
      rw [joined, Nat.add_assoc]
  | false =>
      have next : (i.val + 1) * B = i.val * B + w + (B - w) := by rw [Nat.succ_mul]; omega
      have whole : 16 * B = (i.val + 1) * B + (15 - i.val) * B := by
        rw [← Nat.add_mul]
        congr 1
        omega
      simp only [spanFrom, span, Bool.false_eq_true, if_false]
      rw [next, List.range'_append_1]
      congr 1
      omega

theorem cellsFrom_eq {v : Nat} (small : v < 16 ^ h) (e : Entry P)
    : cellsFrom reverse tagmask (digits h v) e
      = (spanFrom reverse (16 ^ h) v).map (fun v => pickAt tagmask e (digits h v)) := by
  induction h generalizing v e with
  | zero =>
      obtain rfl : v = 0 := Nat.lt_one_iff.mp small
      cases reverse <;> rfl
  | succ h ih =>
      have positive : 0 < 16 ^ h := Nat.pow_pos (by decide)
      rw [Nat.pow_succ] at small
      let i : Fin 16 := ⟨v / 16 ^ h, Nat.div_lt_of_lt_mul small⟩
      have below : v % 16 ^ h < 16 ^ h := Nat.mod_lt _ positive
      have parts : v = i.val * 16 ^ h + v % 16 ^ h := (Nat.div_add_mod' v (16 ^ h)).symm
      rw [parts, digits_block i below, cellsFrom, length_digits, ih below, siblings_eq, Nat.pow_succ',
        ← spanFrom_split i below, List.map_append]
      congr 1
      cases reverse with
      | true =>
          have inside : 0 + (v % 16 ^ h + 1) ≤ 16 ^ h := by omega
          rw [spanFrom, if_pos rfl, if_pos rfl]
          exact pick_shift e i inside
      | false =>
          have inside : v % 16 ^ h + (16 ^ h - v % 16 ^ h) ≤ 16 ^ h := by omega
          rw [spanFrom, if_neg Bool.false_ne_true, if_neg Bool.false_ne_true]
          exact pick_shift e i inside

-----------------------------------------------------------------------------------------
-- Single lookups
-----------------------------------------------------------------------------------------

theorem pickAt_eq {vpp : Slot} (wf : Wf vpp.length e)
    : pickAt tagmask e vpp
      = (leafAt e vpp).bind fun leaf =>
          if tagmask = 0 ∨ leaf.2 &&& tagmask ≠ 0 then some leaf.1 else none := by
  induction vpp generalizing e with
  | nil =>
      cases e with
      | null tags => rfl
      | node tags n => exact wf.elim
      | leaf tags p =>
          have chosen
              : (Entry.leaf tags p).stops tagmask = true ↔ ¬ (tagmask = 0 ∨ tags &&& tagmask ≠ 0) := by
            simp [Entry.stops, Entry.isNull, Entry.tagmask]
          rw [pickAt, Entry.pick]
          by_cases stops : (Entry.leaf tags p).stops tagmask = true
          · rw [if_pos stops]
            exact (if_neg (chosen.mp stops)).symm
          · rw [if_neg stops]
            exact (if_pos (not_not.mp fun no => stops (chosen.mpr no))).symm
  | cons i vpp ih =>
      rw [pickAt, ih (wf_child wf i)]
      cases e with
      | null tags =>
          have below : (Entry.null tags : Entry P).child i = .null 0 := rfl
          rw [below, leafAt_null, leafAt_null]
      | leaf tags p => exact wf.elim
      | node tags n => rfl

theorem selected_eq (wf : t.Wf) (idx : UInt64)
    : selected t tagmask idx
      = if idx.toNat < 16 ^ t.tHeight then pickAt tagmask t.tRoot (digits t.tHeight idx.toNat) else none := by
  rw [selected, radixTreeLookupNode_eq wf]
  by_cases fits : idx.toNat < 16 ^ t.tHeight
  · have there : contents t idx = leafAt t.tRoot (digits t.tHeight idx.toNat) := by
      rw [contents, if_pos fits, path_eq_digits]
    rw [if_pos fits, pickAt_eq (by rw [length_digits]; exact wf.root), ← there]
    cases found : contents t idx with
    | none => rfl
    | some leaf =>
        simp only [Option.map_some, Option.bind_some, radixTreeGetTag_eq wf found, ne_eq, Option.some.injEq]
  · rw [if_neg fits, contents, if_neg fits]
    rfl

theorem visited_eq (reverse : Bool) (idx : UInt64)
    : visited reverse idx = (spanFrom reverse (2 ^ 64) idx.toNat).map UInt64.ofNat := by
  cases reverse with
  | false => rfl
  | true => rw [visited, if_pos rfl, spanFrom, if_pos rfl, span, if_pos rfl, List.range_eq_range']

/-- What is found at a number, where those behind the tree are empty. -/
def placeAt (t : Tree P) (tagmask : Tags) (v : Nat) : Option P :=
  if v < 16 ^ t.tHeight then pickAt tagmask t.tRoot (digits t.tHeight v) else none

theorem places_within (t : Tree P) {a n : Nat} (inside : a + n ≤ 16 ^ t.tHeight)
    : (span reverse a n).map (placeAt t tagmask)
      = (span reverse a n).map (fun v => pickAt tagmask t.tRoot (digits t.tHeight v)) :=
  List.map_congr_left fun _ member => if_pos ((mem_span.mp member).2.trans_le inside)

theorem places_beyond (t : Tree P) {a n : Nat} (outside : 16 ^ t.tHeight ≤ a)
    : Blank ((span reverse a n).map (placeAt t tagmask)) := by
  intro c member
  obtain ⟨v, inside, rfl⟩ := List.mem_map.mp member
  exact if_neg (Nat.not_lt.mpr (outside.trans (mem_span.mp inside).1))

/-- The numbers of the tree and those behind it. -/
theorem spanFrom_append {n N v : Nat} (less : v < n) (whole : n ≤ N)
    : spanFrom false N v = spanFrom false n v ++ span false n (N - n) := by
  have here : n = v + (n - v) := by omega
  have rest : n - v + (N - n) = N - v := by omega
  simp only [spanFrom, span, Bool.false_eq_true, if_false]
  rw [← rest, ← List.range'_append_1, ← here]

theorem span_beyond {n v : Nat} (less : n ≤ v)
    : span true 0 (v + 1) = span true n (v + 1 - n) ++ span true 0 n := by
  have joined := @List.range'_append_1 0 n (v + 1 - n)
  have whole : n + (v + 1 - n) = v + 1 := by omega
  rw [Nat.zero_add, whole] at joined
  simp only [span, if_true, ← List.reverse_append, joined]

theorem visited_places (wf : t.Wf) (idx : UInt64)
    : (visited reverse idx).map (selected t tagmask)
      = (spanFrom reverse (2 ^ 64) idx.toNat).map (placeAt t tagmask) := by
  rw [visited_eq, List.map_map]
  refine List.map_congr_left fun v member => ?_
  have small : v < 2 ^ 64 := by
    have bound := idx.toNat_lt
    cases reverse with
    | false =>
        rw [spanFrom, if_neg Bool.false_ne_true, mem_span] at member
        omega
    | true =>
        rw [spanFrom, if_pos rfl, mem_span] at member
        omega
  have value : (UInt64.ofNat v).toNat = v := UInt64.toNat_ofNat_of_lt small
  rw [Function.comp_apply, selected_eq wf, value]
  rfl

/-- A scan finds what lookups of one index after the other find. -/
theorem gangLookup_exact (wf : t.Wf) (idx : UInt64) (positive : 1 ≤ maxresults)
    : ∃ enough, ∀ fuel ≥ enough, gangLookup fuel t idx maxresults tagmask reverse dense
      = some (repeatedLookup t idx maxresults tagmask reverse dense) := by
  have whole : 16 ^ t.tHeight ≤ 2 ^ 64 := Nat.pow_le_pow_right (show 0 < 16 by decide) wf.height
  have bound := idx.toNat_lt
  rw [repeatedLookup, visited_places wf]
  by_cases fits : idx.toNat < 16 ^ t.tHeight
  · have found := gangLookup_inside tagmask reverse dense wf fits positive
    rw [path_eq_digits, cellsFrom_eq fits] at found
    cases reverse with
    | true =>
        rw [spanFrom, if_pos rfl] at found ⊢
        rwa [places_within t (by omega)]
    | false =>
        rw [spanFrom, if_neg Bool.false_ne_true] at found
        rw [spanFrom_append fits whole, List.map_append, collect_append_blank _ (places_beyond t le_rfl),
          spanFrom, if_neg Bool.false_ne_true]
        rwa [places_within t (by omega)]
  · have large : 16 ^ t.tHeight ≤ idx.toNat := Nat.not_lt.mp fits
    obtain ⟨enough, found⟩ := gangLookup_beyond tagmask reverse dense wf fits positive
    refine ⟨enough, fun fuel more => (found fuel more).trans (congrArg some ?_)⟩
    cases reverse with
    | false =>
        rw [spanFrom, if_neg Bool.false_ne_true, collect_blank (places_beyond t large), List.take_nil]
        rfl
    | true =>
        have hole : idx.toNat ∈ span true (16 ^ t.tHeight) (idx.toNat + 1 - 16 ^ t.tHeight) :=
          mem_span.mpr ⟨large, by omega⟩
        rw [spanFrom, if_pos rfl, span_beyond large, List.map_append]
        cases dense with
        | true =>
            rw [collect_dense (places_beyond t le_rfl) (List.ne_nil_of_mem (List.mem_map_of_mem hole)),
              List.take_nil]
            rfl
        | false =>
            rw [collect_sparse (places_beyond t le_rfl), places_within t (by omega), ← cells_eq]
            rfl

/-- A leaf at 3 with the first tag and one at 5 without. -/
def twoLeafs : Tree Nat :=
  ⟨.node 1 (Function.update (Function.update emptyNode 3 (.leaf 1 30)) 5 (.leaf 0 50)), 1⟩

theorem twoLeafs_wf : twoLeafs.Wf := by
  refine ⟨⟨fun i => ?_, by decide, by decide⟩, by decide, nofun⟩
  by_cases last : i = 5
  · subst last
    trivial
  · by_cases first : i = 3
    · subst first
      trivial
    · rw [Function.update_of_ne last, Function.update_of_ne first]
      rfl

theorem gangLookup_exact_two
    : ∃ enough, ∀ fuel ≥ enough, gangLookup fuel twoLeafs 100 2 1 true false
      = some (repeatedLookup twoLeafs 100 2 1 true false) :=
  gangLookup_exact twoLeafs_wf 100 (by decide)

example : radixTreeGangLookupNode 20 twoLeafs 1 5 false = some [30, 50] := by decide
example : radixTreeGangLookupTaggedNodeReverse 20 twoLeafs 100 5 false 1 = some [30] := by decide

end BSDLibC.Radix
