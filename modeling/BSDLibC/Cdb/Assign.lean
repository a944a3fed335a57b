import BSDLibC.Cdb.Graph

/-! `assign_nodes` puts the edges back in the order of the peeling and gives each a vertex that
no earlier edge constrains, so that the values at the three vertices of every edge add up to
its index.
-/

namespace BSDLibC.Cdb
open BSDLibC.Bitops BSDLibC.Hypergraph

/-- The values at the three vertices of an edge. -/
def State.sumAt (state : State) (e : Nat) : Nat :=
  state.g (state.ends e 0) + state.g (state.ends e 1) + state.g (state.ends e 2)

/-- The values while the edges of `placed` have been handled. -/
structure State.Assigned (state : State) (placed : Finset Nat) : Prop where
  visited : ∀ v, state.visited v = true ↔ ∃ e ∈ placed, ∃ i, state.ends e i = v
  small : ∀ v, state.g v < state.dataEntries
  untouched : ∀ v, state.visited v = false → state.g v = 0
  sums : ∀ e ∈ placed, state.sumAt e % state.dataEntries = (state.edges e).idx

/-- One pass of the loop sets the value at vertex `a` of the edge, which was not visited if any
vertex of the edge was not.
-/
theorem assignEdge_cases (magic : Magic) (state : State) (i : Nat)
    : ∃ a b c : Fin 3,
        (a, b, c) ∈ [((0 : Fin 3), (1 : Fin 3), (2 : Fin 3)), (1, 0, 2), (2, 0, 1)]
        ∧ assignEdge magic state i
          = { state with
              g := Function.update state.g (state.ends (state.outputOrder i) a)
                (fastRemainder32
                  ((2 * state.dataEntries + (state.edges (state.outputOrder i)).idx + 2 ^ 33
                    - state.g (state.ends (state.outputOrder i) b)
                    - state.g (state.ends (state.outputOrder i) c)) % 2 ^ 32)
                  state.dataEntries magic)
              visited :=
                Function.update (Function.update (Function.update state.visited
                  (state.ends (state.outputOrder i) a) true)
                  (state.ends (state.outputOrder i) b) true)
                  (state.ends (state.outputOrder i) c) true }
        ∧ (a ≠ 0 → state.visited (state.ends (state.outputOrder i) 0) = true)
        ∧ ((∃ j, state.visited (state.ends (state.outputOrder i) j) = false)
          → state.visited (state.ends (state.outputOrder i) a) = false) := by
  by_cases v0 : state.visited (state.ends (state.outputOrder i) 0) = true
  · by_cases v1 : state.visited (state.ends (state.outputOrder i) 1) = true
    · refine ⟨2, 0, 1, by simp, ?_, fun _ => v0, ?_⟩
      · simp only [State.ends] at v0 v1
        simp [assignEdge, v0, v1, State.ends]
      · rintro ⟨j, free⟩
        obtain rfl | rfl | rfl : j = 0 ∨ j = 1 ∨ j = 2 := by omega
        · simp [v0] at free
        · simp [v1] at free
        · exact free
    · refine ⟨1, 0, 2, by simp, ?_, fun _ => v0, fun _ => by simpa using v1⟩
      simp only [State.ends] at v0 v1
      simp [assignEdge, v0, v1, State.ends]
  · refine ⟨0, 1, 2, by simp, ?_, by simp, fun _ => by simpa using v0⟩
    simp only [State.ends] at v0
    simp [assignEdge, v0, State.ends]

/-- The value chosen makes the sum right; none of the 32-bit operations wraps around. -/
theorem assigned_value {d idx x y : Nat} (fits : 3 * d ≤ 2 ^ 32) (hidx : idx < d) (hx : x < d)
    (hy : y < d)
    : fastRemainder32 ((2 * d + idx + 2 ^ 33 - x - y) % 2 ^ 32) d (fastDivide32Prepare d) < d
      ∧ (fastRemainder32 ((2 * d + idx + 2 ^ 33 - x - y) % 2 ^ 32) d (fastDivide32Prepare d)
          + x + y) % d = idx := by
  have exact : (2 * d + idx + 2 ^ 33 - x - y) % 2 ^ 32 = 2 * d + idx - x - y := by omega
  rw [exact, fastRemainder32_eq (by omega) (by omega) (by omega)]
  refine ⟨Nat.mod_lt _ (by omega), ?_⟩
  rw [Nat.add_assoc, Nat.mod_add_mod,
    show 2 * d + idx - x - y + (x + y) = idx + d * 2 by omega, Nat.add_mul_mod_self_left,
    Nat.mod_eq_of_lt hidx]

/-- A vertex of its own among the edges handled so far was not visited. -/
theorem State.Assigned.free {state : State} {placed : Finset Nat} {e : Nat}
    (h : state.Assigned placed) (free : HasFreeEnd state.ends placed e)
    : ∃ j, state.visited (state.ends e j) = false := by
  obtain ⟨j, apart⟩ := free
  refine ⟨j, ?_⟩
  rw [← Bool.not_eq_true, h.visited]
  rintro ⟨other, member, k, same⟩
  exact apart other member k same

theorem assignEdge_assigned {state : State} {placed : Finset Nat} {i : Nat}
    (h : state.Assigned placed) (fits : 3 * state.dataEntries ≤ 2 ^ 32)
    (hidx : (state.edges (state.outputOrder i)).idx < state.dataEntries)
    (distinct : ¬ (state.edges (state.outputOrder i)).degenerate)
    (free : HasFreeEnd state.ends placed (state.outputOrder i))
    : ∃ g visited,
        assignEdge (fastDivide32Prepare state.dataEntries) state i
          = { state with g := g, visited := visited }
        ∧ State.Assigned { state with g := g, visited := visited }
            (insert (state.outputOrder i) placed) := by
  obtain ⟨a, b, c, choice, run, -, unvisited⟩ :=
    assignEdge_cases (fastDivide32Prepare state.dataEntries) state i
  rw [run]
  refine ⟨_, _, rfl, ?_⟩
  replace unvisited := unvisited (h.free free)
  generalize state.outputOrder i = e at *
  obtain ⟨small, sum⟩ := assigned_value fits hidx (h.small (state.ends e b))
    (h.small (state.ends e c))
  generalize fastRemainder32 _ state.dataEntries _ = value at *
  simp only [Edge.degenerate, Bool.or_eq_true, decide_eq_true_eq, not_or] at distinct
  obtain ⟨⟨h01, h02⟩, h12⟩ := distinct
  refine ⟨?_, ?_, ?_, ?_⟩
  · -- The visited vertices are those of the handled edges.
    intro v
    have these : (∃ j, state.ends e j = v)
        ↔ v = state.ends e a ∨ v = state.ends e b ∨ v = state.ends e c := by
      simp only [Fin.exists_fin_succ]
      grind
    have before := h.visited v
    show _ ↔ ∃ other ∈ insert e placed, ∃ j, state.ends other j = v
    rw [Finset.exists_mem_insert, these, ← before]
    simp only [Function.update_apply]
    grind
  · intro v
    simp only [Function.update_apply]
    split
    · exact small
    · exact h.small v
  · intro v unseen
    simp only [Function.update_apply] at unseen ⊢
    grind [h.untouched v]
  · intro other member
    rcases Finset.mem_insert.mp member with rfl | old
    · -- The sum at the new edge is right by the choice of the value.
      show State.sumAt { state with g := _, visited := _ } other % _ = _
      simp only [State.sumAt, State.ends, Function.update_apply] at *
      rw [← sum]
      congr 1
      grind
    · -- No edge handled before is at the vertex whose value changed.
      have apart : ∀ j, state.ends other j ≠ state.ends e a := by
        intro j same
        have seen : state.visited (state.ends e a) = true :=
          (h.visited _).mpr ⟨other, old, j, same⟩
        rw [unvisited] at seen
        cases seen
      have kept := h.sums other old
      simp only [State.sumAt, State.ends] at *
      simp only [Function.update_apply, apart, if_false]
      exact kept

/-- The loop over a peelable order. -/
theorem foldl_assignEdge_assigned {state : State} {placed : Finset Nat} {order : List Nat}
    (h : state.Assigned placed) (fits : 3 * state.dataEntries ≤ 2 ^ 32)
    (proper : ∀ i ∈ order, ¬ (state.edges (state.outputOrder i)).degenerate)
    (hidx : ∀ i ∈ order, (state.edges (state.outputOrder i)).idx < state.dataEntries)
    (peelable : Peelable state.ends placed (order.map state.outputOrder))
    : ∃ g visited placed',
        order.foldl (assignEdge (fastDivide32Prepare state.dataEntries)) state
          = { state with g := g, visited := visited }
        ∧ State.Assigned { state with g := g, visited := visited } placed'
        ∧ placed' = placed ∪ (order.map state.outputOrder).toFinset := by
  induction order generalizing state placed with
  | nil => exact ⟨_, _, placed, rfl, h, by simp⟩
  | cons i rest ih =>
      obtain ⟨free, later⟩ := peelable
      obtain ⟨g, visited, run, assigned⟩ := assignEdge_assigned h fits
        (hidx i List.mem_cons_self) (proper i List.mem_cons_self) free
      obtain ⟨g', visited', placed', run', assigned', all⟩ := ih assigned fits
        (fun j member => proper j (List.mem_cons_of_mem _ member))
        (fun j member => hidx j (List.mem_cons_of_mem _ member)) later
      refine ⟨g', visited', placed', ?_, assigned', ?_⟩
      · rw [List.foldl_cons, run]
        exact run'
      · rw [all, List.map_cons, List.toFinset_cons, Finset.insert_union, Finset.union_insert]

/-- What the values of `assign_nodes` are for. -/
structure Solves (state : State) (g : Nat → Nat) : Prop where
  small : ∀ v, g v < state.dataEntries
  sums : ∀ e < state.keys,
    (g (state.ends e 0) + g (state.ends e 1) + g (state.ends e 2)) % state.dataEntries
      = (state.edges e).idx

/-- After `build_graph`, the values at the vertices of every edge add up to its index. -/
theorem assignNodes_solves {vectorHash : VectorHash} {cdbw : Cdbw} {state built : State}
    (h : Built vectorHash cdbw state built) (positive : 0 < state.dataEntries)
    (fits : 3 * state.dataEntries ≤ 2 ^ 32)
    (hidx : ∀ e < state.keys, (built.edges e).idx < state.dataEntries)
    (zero : ∀ v, state.g v = 0) (unvisited : ∀ v, state.visited v = false)
    : ∃ g visited, assignNodes built = { built with g := g, visited := visited }
      ∧ Solves built g := by
  have keys : built.keys = state.keys := h.same.keys
  have d : built.dataEntries = state.dataEntries := h.same.dataEntries
  have start : built.Assigned ∅ := by
    refine ⟨?_, ?_, ?_, by simp⟩
    · intro v
      simp [h.same.visited, State.withEdges, unvisited v]
    · intro v
      simpa [h.same.g, d, State.withEdges, zero v] using positive
    · intro v _
      simp [h.same.g, State.withEdges, zero v]
  have inside : ∀ i ∈ List.range state.keys, built.outputOrder i < state.keys :=
    fun i member => (h.complete _).mp (List.mem_map_of_mem member)
  obtain ⟨g, visited, placed, run, assigned, all⟩ := foldl_assignEdge_assigned start (d ▸ fits)
    (fun i member => h.proper _ (keys ▸ inside i member))
    (fun i member => d ▸ hidx _ (inside i member)) h.peelable
  refine ⟨g, visited, ?_, assigned.small, ?_⟩
  · rw [← keys] at run
    exact run
  · intro e bound
    refine assigned.sums e ?_
    rw [all, Finset.empty_union, List.mem_toFinset, h.complete]
    exact keys ▸ bound

/-- The values stay below the number of data, also where the sum behind them wraps around. -/
theorem foldl_assignEdge_lt {state : State} {d : Nat} (count : state.dataEntries = d)
    (positive : 0 < d) (bound : d < 2 ^ 32) (small : ∀ v, state.g v < d) (order : List Nat)
    (v : Nat)
    : (order.foldl (assignEdge (fastDivide32Prepare d)) state).g v < d := by
  induction order generalizing state with
  | nil => exact small v
  | cons i rest ih =>
      obtain ⟨a, b, c, -, run, -⟩ := assignEdge_cases (fastDivide32Prepare d) state i
      rw [List.foldl_cons, run]
      refine ih count ?_
      intro v
      simp only [Function.update_apply]
      split
      · rw [count, fastRemainder32_eq positive bound (Nat.mod_lt _ (by decide))]
        exact Nat.mod_lt _ positive
      · exact small v

/-- Where the first vertex of each edge is its own, no other vertex gets a value. -/
theorem foldl_assignEdge_own (magic : Magic) {state : State} {order : List Nat} {v : Nat}
    (unique : (order.map state.outputOrder).Nodup)
    (own : ∀ e ∈ order.map state.outputOrder, ∀ other ∈ order.map state.outputOrder,
      other ≠ e → ∀ j, state.ends other j ≠ state.ends e 0)
    (unvisited : ∀ e ∈ order.map state.outputOrder, state.visited (state.ends e 0) = false)
    (apart : ∀ e ∈ order.map state.outputOrder, v ≠ state.ends e 0)
    : (order.foldl (assignEdge magic) state).g v = state.g v := by
  induction order generalizing state with
  | nil => rfl
  | cons i rest ih =>
      simp only [List.map_cons, List.nodup_cons, List.forall_mem_cons] at *
      obtain ⟨a, b, c, -, run, first, -⟩ := assignEdge_cases magic state i
      obtain rfl : a = 0 := by
        by_contra other
        rw [unvisited.1] at first
        exact absurd (first other) Bool.false_ne_true
      rw [List.foldl_cons, run]
      refine Eq.trans (ih ?_ ?_ ?_ ?_) (Function.update_of_ne apart.1 _ _)
      · exact unique.2
      · exact fun e member => (own.2 e member).2
      · intro e member
        have different : state.outputOrder i ≠ e := by
          rintro rfl
          exact unique.1 member
        have elsewhere := (own.2 e member).1 different
        show Function.update (Function.update (Function.update state.visited _ true) _ true) _ true
          (state.ends e 0) = false
        rw [Function.update_of_ne (elsewhere _).symm, Function.update_of_ne (elsewhere _).symm,
          Function.update_of_ne (elsewhere _).symm]
        exact unvisited.2 e member
      · exact apart.2

-----------------------------------------------------------------------------------------
-- Each value is assigned once
-----------------------------------------------------------------------------------------

/-- The vertex whose value one pass of the loop sets. -/
def assignedVertex (state : State) (i : Nat) : Nat :=
  let e := state.edges (state.outputOrder i)
  if ¬ state.visited (e.vertices 0) then
    e.vertices 0
  else if ¬ state.visited (e.vertices 1) then
    e.vertices 1
  else
    e.vertices 2

/-- `assign_nodes` after its first `i` passes. -/
def passes (state : State) (i : Nat) : State :=
  (List.range i).foldl (assignEdge (fastDivide32Prepare state.dataEntries)) state

theorem passes_succ (state : State) (i : Nat)
    : passes state (i + 1)
      = assignEdge (fastDivide32Prepare state.dataEntries) (passes state i) i := by
  rw [passes, List.range_succ, List.foldl_append]
  rfl

theorem assignEdge_eq (magic : Magic) (state : State) (i : Nat)
    : ∃ value visited,
        assignEdge magic state i
          = { state with
              g := Function.update state.g (assignedVertex state i) value
              visited := visited }
        ∧ ∀ v, visited v = true
          ↔ state.visited v = true ∨ ∃ k, state.ends (state.outputOrder i) k = v := by
  simp only [assignEdge, assignedVertex]
  split
  · refine ⟨_, _, rfl, fun v => ?_⟩
    simp only [Function.update_apply, Fin.exists_fin_succ, State.ends]
    grind
  split
  · refine ⟨_, _, rfl, fun v => ?_⟩
    simp only [Function.update_apply, Fin.exists_fin_succ, State.ends]
    grind
  · refine ⟨_, _, rfl, fun v => ?_⟩
    simp only [Function.update_apply, Fin.exists_fin_succ, State.ends]
    grind

theorem assignedVertex_mem (state : State) (i : Nat)
    : ∃ k, state.ends (state.outputOrder i) k = assignedVertex state i := by
  simp only [assignedVertex]
  split
  · exact ⟨0, rfl⟩
  split
  · exact ⟨1, rfl⟩
  · exact ⟨2, rfl⟩

/-- If any vertex of the edge was not visited, the one that is set was not. -/
theorem assignedVertex_unvisited {state : State} {i : Nat}
    (free : ∃ k, state.visited (state.ends (state.outputOrder i) k) = false)
    : state.visited (assignedVertex state i) = false := by
  simp only [assignedVertex]
  split
  case isTrue first => simpa using first
  split
  case isTrue second => simpa using second
  case isFalse first second =>
    obtain ⟨k, unvisited⟩ := free
    obtain rfl | rfl | rfl : k = 0 ∨ k = 1 ∨ k = 2 := by omega
    · exact absurd unvisited (by simpa [State.ends] using first)
    · exact absurd unvisited (by simpa [State.ends] using second)
    · exact unvisited

/-- The edges that the first `i` passes handle. -/
def State.handled (state : State) (i : Nat) : Finset Nat :=
  (Finset.range i).image state.outputOrder

theorem State.mem_handled {state : State} {i e : Nat}
    : e ∈ state.handled i ↔ ∃ i' < i, state.outputOrder i' = e := by
  simp [State.handled]

theorem State.handled_succ (state : State) (i : Nat)
    : state.handled (i + 1) = insert (state.outputOrder i) (state.handled i) := by
  rw [State.handled, Finset.range_add_one, Finset.image_insert, State.handled]

/-- The loop changes values and visited vertices only, and the latter are those of the edges it
has handled.
-/
theorem passes_visited {state : State} (unvisited : ∀ v, state.visited v = false) (i : Nat)
    : ∃ g visited,
        passes state i = { state with g := g, visited := visited }
        ∧ ∀ v, visited v = true ↔ ∃ e ∈ state.handled i, ∃ k, state.ends e k = v := by
  induction i with
  | zero => exact ⟨_, _, rfl, fun v => by simp [State.handled, unvisited v]⟩
  | succ i ih =>
      obtain ⟨g, visited, run, seen⟩ := ih
      obtain ⟨value, visited', pass, seen'⟩ :=
        assignEdge_eq (fastDivide32Prepare state.dataEntries) (passes state i) i
      refine ⟨(passes state (i + 1)).g, visited', ?_, fun v => ?_⟩
      · rw [passes_succ, pass, run]
      · rw [seen' v, run]
        show visited v = true ∨ (∃ k, state.ends (state.outputOrder i) k = v) ↔ _
        rw [seen v, State.handled_succ, Finset.exists_mem_insert, or_comm]

/-- The order in which `build_graph` hands on the edges lets `assign_nodes` set every value once,
before it is used.
-/
structure UsableOrder (built : State) : Prop where
  permutation : ((List.range built.keys).map built.outputOrder).Perm (List.range built.keys)
  free : ∀ i < built.keys, ∃ k, ∀ i' < i, ∀ k',
    built.ends (built.outputOrder i') k' ≠ built.ends (built.outputOrder i) k
  others : ∀ i v, v ≠ assignedVertex (passes built i) i
    → (passes built (i + 1)).g v = (passes built i).g v
  fresh : ∀ i < built.keys, ∀ i' < i, ∀ k,
    built.ends (built.outputOrder i') k ≠ assignedVertex (passes built i) i
  once : ∀ i < built.keys, ∀ i' < i,
    assignedVertex (passes built i') i' ≠ assignedVertex (passes built i) i
  kept : ∀ i i', i < i' → i' ≤ built.keys → ∀ k,
    (passes built i').g (built.ends (built.outputOrder i) k)
      = (passes built (i + 1)).g (built.ends (built.outputOrder i) k)

theorem passes_others (state : State) (i : Nat) {v : Nat}
    (other : v ≠ assignedVertex (passes state i) i)
    : (passes state (i + 1)).g v = (passes state i).g v := by
  obtain ⟨value, visited, pass, -⟩ :=
    assignEdge_eq (fastDivide32Prepare state.dataEntries) (passes state i) i
  rw [passes_succ, pass]
  exact Function.update_of_ne other _ _

/-- A free end in the order makes the value that is set a new one. -/
theorem passes_fresh {state : State} (unvisited : ∀ v, state.visited v = false) {i : Nat}
    (free : ∃ k, ∀ i' < i, ∀ k',
      state.ends (state.outputOrder i') k' ≠ state.ends (state.outputOrder i) k)
    {i' : Nat} (earlier : i' < i) (k : Fin 3)
    : state.ends (state.outputOrder i') k ≠ assignedVertex (passes state i) i := by
  obtain ⟨g, visited, run, seen⟩ := passes_visited unvisited i
  have new : visited (assignedVertex (passes state i) i) = false := by
    have : (passes state i).visited (assignedVertex (passes state i) i) = false :=
      assignedVertex_unvisited (by
      obtain ⟨j, apart⟩ := free
      refine ⟨j, ?_⟩
      rw [run, ← Bool.not_eq_true]
      show ¬ visited (state.ends (state.outputOrder i) j) = true
      rw [seen]
      rintro ⟨e, member, k', same⟩
      obtain ⟨i', before, rfl⟩ := State.mem_handled.mp member
      exact apart i' before k' same)
    rwa [run] at this ⊢
  intro same
  have visitedBefore := (seen (assignedVertex (passes state i) i)).mpr
    ⟨_, State.mem_handled.mpr ⟨i', earlier, rfl⟩, k, same⟩
  rw [new] at visitedBefore
  cases visitedBefore

theorem passes_outputOrder {state : State} (unvisited : ∀ v, state.visited v = false) (i : Nat)
    : (passes state i).outputOrder = state.outputOrder ∧ (passes state i).ends = state.ends := by
  obtain ⟨g, visited, run, -⟩ := passes_visited unvisited i
  rw [run]
  exact ⟨rfl, rfl⟩

theorem UsableOrder.of_free {built : State} (unvisited : ∀ v, built.visited v = false)
    (permutation : ((List.range built.keys).map built.outputOrder).Perm (List.range built.keys))
    (free : ∀ i < built.keys, ∃ k, ∀ i' < i, ∀ k',
      built.ends (built.outputOrder i') k' ≠ built.ends (built.outputOrder i) k)
    : UsableOrder built where
  permutation := permutation
  free := free
  others := fun i _ => passes_others built i
  fresh := fun i inside _ earlier => passes_fresh unvisited (free i inside) earlier
  once := by
    intro i inside i' earlier
    obtain ⟨k, here⟩ := assignedVertex_mem (passes built i') i'
    obtain ⟨order, ends⟩ := passes_outputOrder unvisited i'
    rw [order, ends] at here
    rw [← here]
    exact passes_fresh unvisited (free i inside) earlier k
  kept := by
    intro i i' later inside k
    induction i', later using Nat.le_induction with
    | base => rfl
    | succ i' later ih =>
        rw [passes_others built i' (passes_fresh unvisited (free i' (by omega)) later k)]
        exact ih (by omega)

theorem Built.free {vectorHash : VectorHash} {cdbw : Cdbw} {state built : State}
    (h : Built vectorHash cdbw state built) {i : Nat} (inside : i < built.keys)
    : ∃ k, ∀ i' < i, ∀ k',
        built.ends (built.outputOrder i') k' ≠ built.ends (built.outputOrder i) k := by
  have keys : built.keys = state.keys := h.same.keys
  have bound : i < ((List.range state.keys).map built.outputOrder).length := by
    simpa [← keys] using inside
  obtain ⟨k, apart⟩ := h.peelable.hasFreeEnd bound
  refine ⟨k, fun i' earlier k' same => ?_⟩
  refine apart (built.outputOrder i') ?_ k' (by simpa using same)
  rw [Finset.empty_union, List.mem_toFinset, ← List.map_take, List.take_range]
  exact List.mem_map_of_mem (List.mem_range.mpr (by omega))

/-- A hash under which the key of one byte `b` has the vertices `b`, `b + 1` and `b + 2`. -/
def shiftHash : VectorHash := fun key _ j => BitVec.ofNat 32 ((key.headD 0).toNat + j.val)

def twoPuts : List WriterCall := [.put Alloc.all [0] [5], .put Alloc.all [1] [6]]

/-- A work area that was not used before. -/
def freshState : State :=
  { dataEntries := 0, entries := 0, keys := 0, seed := 0, g := fun _ => 0,
    visited := fun _ => false, vertices := fun _ => ⟨0, 0⟩, edges := fun _ => ⟨fun _ => 0, 0⟩,
    outputIndex := 0, outputOrder := fun _ => 0 }

/-- Whenever `build_graph` accepts a seed for a writer that any calls have filled, its output
order is a permutation of all edge numbers along which `assign_nodes` sets no value twice and
changes none that an edge handled before depends on.
-/
theorem buildGraph_usableOrder {vectorHash : VectorHash} {calls : List WriterCall}
    {scratch : State} {seed : BitVec 32} {built : State}
    (run : buildGraph vectorHash (writerAfter vectorHash calls)
      (attemptState (writerAfter vectorHash calls) scratch seed) = some built)
    : built.keys = (writerAfter vectorHash calls).keyHashes.length ∧ UsableOrder built := by
  have ok := writerAfter_ok vectorHash calls
  generalize writerAfter vectorHash calls = cdbw at *
  have counter := ok.keyCounter
  have bound := ok.keyBound
  have count : (attemptState cdbw scratch seed).keys = cdbw.keyHashes.length := by
    show cdbw.keyCounter % 2 ^ 32 = _
    rw [← counter]
    exact Nat.mod_eq_of_lt (by rw [maxDataCounter] at bound; omega)
  have small : (attemptState cdbw scratch seed).keys < 2 ^ 32 := Nat.mod_lt _ (by decide)
  have h := buildGraph_built count small run
  have keys : built.keys = (attemptState cdbw scratch seed).keys := h.same.keys
  refine ⟨keys.trans count, UsableOrder.of_free ?_ ?_ (fun i inside => h.free inside)⟩
  · intro v
    rw [h.same.visited]
    rfl
  · rw [keys]
    refine (List.perm_ext_iff_of_nodup h.unique List.nodup_range).mpr (fun e => ?_)
    rw [h.complete, List.mem_range]

/-- Two keys with the vertices 0, 1, 2 and 1, 2, 3. -/
theorem usableOrder_two_keys
    : ∃ built,
        buildGraph shiftHash (writerAfter shiftHash twoPuts)
          (attemptState (writerAfter shiftHash twoPuts) freshState 0) = some built
        ∧ built.keys = (writerAfter shiftHash twoPuts).keyHashes.length
        ∧ UsableOrder built := by
  have some : (buildGraph shiftHash (writerAfter shiftHash twoPuts)
      (attemptState (writerAfter shiftHash twoPuts) freshState 0)).isSome = true := by
    decide +kernel
  obtain ⟨built, run⟩ := Option.isSome_iff_exists.mp some
  exact ⟨built, run, buildGraph_usableOrder run⟩

end BSDLibC.Cdb
