import BSDLibC.Cdb.Keys
import BSDLibC.Hypergraph.Peeling
import Mathlib.Data.Fintype.Basic

/-! `build_graph` peels the hypergraph of the keys. Throughout it, the vertex records summarise
the edges that are still in place, and the filled part of `output_order` is an order in which
the removed edges can be put back.
-/

namespace BSDLibC.Cdb
open BSDLibC.Bitops BSDLibC.Hypergraph

def State.ends (state : State) (e : Nat) (i : Fin 3) : Nat := (state.edges e).vertices i

/-- The vertex records of a set of edges. -/
def State.Tracks (state : State) (live : Finset Nat) : Prop :=
  ∀ v, state.vertices v
    = ⟨(incident state.ends live v).card, xorOf (incident state.ends live v)⟩

/-- The removed edges, the last one first. -/
def State.removed (state : State) : List Nat :=
  (List.range' state.outputIndex (state.keys - state.outputIndex)).map state.outputOrder

/-- What a peeling step leaves alone. -/
structure State.SameGraph (before after : State) : Prop where
  dataEntries : after.dataEntries = before.dataEntries
  entries : after.entries = before.entries
  keys : after.keys = before.keys
  seed : after.seed = before.seed
  g : after.g = before.g
  visited : after.visited = before.visited
  edges : after.edges = before.edges

theorem State.SameGraph.refl (state : State) : state.SameGraph state :=
  ⟨rfl, rfl, rfl, rfl, rfl, rfl, rfl⟩

theorem State.SameGraph.trans {a b c : State} (ab : a.SameGraph b) (bc : b.SameGraph c)
    : a.SameGraph c :=
  ⟨bc.dataEntries.trans ab.dataEntries, bc.entries.trans ab.entries, bc.keys.trans ab.keys,
    bc.seed.trans ab.seed, bc.g.trans ab.g, bc.visited.trans ab.visited, bc.edges.trans ab.edges⟩

theorem State.SameGraph.ends {before after : State} (same : before.SameGraph after)
    : after.ends = before.ends := by
  funext e i
  rw [State.ends, same.edges, State.ends]

theorem changeEdge_sameGraph (state : State) (delta e : Nat)
    : state.SameGraph (changeEdge state delta e) :=
  ⟨rfl, rfl, rfl, rfl, rfl, rfl, rfl⟩

theorem changeEdge_order (state : State) (delta e : Nat)
    : (changeEdge state delta e).outputIndex = state.outputIndex
      ∧ (changeEdge state delta e).outputOrder = state.outputOrder :=
  ⟨rfl, rfl⟩

/-- `change_edge` on an edge with three vertices touches each of their records once. -/
theorem changeEdge_vertices {state : State} {e : Nat} (distinct : ¬ (state.edges e).degenerate)
    (delta v : Nat)
    : (changeEdge state delta e).vertices v
      = if ∃ i, state.ends e i = v then
          ⟨((state.vertices v).degree + delta) % 2 ^ 32, (state.vertices v).edges ^^^ e⟩
        else
          state.vertices v := by
  simp only [Edge.degenerate, Bool.or_eq_true, decide_eq_true_eq, not_or] at distinct
  obtain ⟨⟨h01, h02⟩, h12⟩ := distinct
  simp only [changeEdge, List.foldl, Function.update_apply, State.ends, Fin.exists_fin_succ]
  grind

/-- No edge of the state has the same vertex twice. -/
def State.Proper (state : State) : Prop := ∀ e < state.keys, ¬ (state.edges e).degenerate

/-- Adding an edge to the records. -/
theorem State.Tracks.insert {state : State} {live : Finset Nat} {e : Nat}
    (tracks : state.Tracks live) (distinct : ¬ (state.edges e).degenerate) (new : e ∉ live)
    (room : live.card + 1 < 2 ^ 32)
    : (changeEdge state 1 e).Tracks (insert e live) := by
  intro v
  rw [changeEdge_vertices distinct, (changeEdge_sameGraph state 1 e).ends, tracks v]
  split
  case isTrue touches =>
    have absent : e ∉ incident state.ends live v := fun member => new (mem_incident.mp member).1
    have bound := card_incident_le state.ends live v
    have sum : ((incident state.ends live v).card + 1) % 2 ^ 32
        = (incident state.ends live v).card + 1 := Nat.mod_eq_of_lt (by omega)
    rw [incident_insert_of_touches touches, Finset.card_insert_of_notMem absent,
      xorOf_insert absent, sum]
  case isFalse apart =>
    rw [incident_insert_of_not apart]

/-- Taking an edge out of the records; -1 is `2 ^ 32 - 1`. -/
theorem State.Tracks.erase {state : State} {live : Finset Nat} {e : Nat}
    (tracks : state.Tracks live) (distinct : ¬ (state.edges e).degenerate) (present : e ∈ live)
    (room : live.card < 2 ^ 32)
    : (changeEdge state (2 ^ 32 - 1) e).Tracks (live.erase e) := by
  intro v
  rw [changeEdge_vertices distinct, (changeEdge_sameGraph state _ e).ends, tracks v,
    incident_erase]
  split
  case isTrue touches =>
    have member : e ∈ incident state.ends live v := mem_incident.mpr ⟨present, touches⟩
    have bound := card_incident_le state.ends live v
    have positive := Finset.card_pos.mpr ⟨e, member⟩
    have difference : ((incident state.ends live v).card + (2 ^ 32 - 1)) % 2 ^ 32
        = (incident state.ends live v).card - 1 := by omega
    rw [xorOf_erase member, Finset.card_erase_of_mem member, difference]
  case isFalse apart =>
    have absent : e ∉ incident state.ends live v := fun member => apart (mem_incident.mp member).2
    rw [Finset.erase_eq_of_notMem absent]

/-- The state while edges are being removed, of which `live` are still in place. -/
structure State.Peeling (state : State) (live : Finset Nat) : Prop where
  small : state.keys < 2 ^ 32
  proper : state.Proper
  tracks : state.Tracks live
  inside : ∀ e ∈ live, e < state.keys
  left : state.outputIndex = live.card
  unique : state.removed.Nodup
  mem_removed : ∀ e, e ∈ state.removed ↔ e < state.keys ∧ e ∉ live
  peelable : Peelable state.ends live state.removed

theorem State.Peeling.left_le {state : State} {live : Finset Nat} (h : state.Peeling live)
    : live.card ≤ state.keys := by
  have subset : live ⊆ Finset.range state.keys := fun e member =>
    Finset.mem_range.mpr (h.inside e member)
  simpa using Finset.card_le_card subset

/-- `output_order[--output_index] = e` -/
def State.output (state : State) (e : Nat) : State :=
  { state with
    outputIndex := state.outputIndex - 1
    outputOrder := Function.update state.outputOrder (state.outputIndex - 1) e }

theorem State.removed_output {state : State} (positive : 0 < state.outputIndex)
    (inside : state.outputIndex ≤ state.keys) (e : Nat)
    : (state.output e).removed = e :: state.removed := by
  simp only [State.removed, State.output]
  rw [show state.keys - (state.outputIndex - 1) = (state.keys - state.outputIndex) + 1 by omega,
    List.range'_succ, List.map_cons, Function.update_self,
    show state.outputIndex - 1 + 1 = state.outputIndex by omega]
  congr 1
  refine List.map_congr_left ?_
  intro i member
  rw [List.mem_range'_1] at member
  exact Function.update_of_ne (by omega) _ _

/-- Taking out the only edge at a vertex. -/
theorem State.Peeling.remove {state : State} {live : Finset Nat} {e v : Nat}
    (h : state.Peeling live) (alone : incident state.ends live v = {e})
    : (changeEdge (state.output e) (2 ^ 32 - 1) e).Peeling (live.erase e) := by
  have present : e ∈ live := by
    have member : e ∈ incident state.ends live v := by simp [alone]
    exact (mem_incident.mp member).1
  have bound := h.left_le
  have left := h.left
  have small := h.small
  have card := Finset.card_erase_of_mem present
  have positive := Finset.card_pos.mpr ⟨e, present⟩
  have tracks : (state.output e).Tracks live := h.tracks
  have order := State.removed_output (by omega : 0 < state.outputIndex) (by omega) e
  exact
    { small := h.small
      proper := h.proper
      tracks := tracks.erase (h.proper e (h.inside e present)) present (by omega)
      inside := fun e' member => h.inside e' (Finset.mem_of_mem_erase member)
      left := by
        show state.outputIndex - 1 = _
        omega
      unique := by
        show (state.output e).removed.Nodup
        rw [order, List.nodup_cons, h.mem_removed]
        exact ⟨fun gone => gone.2 present, h.unique⟩
      mem_removed := by
        intro e'
        show e' ∈ (state.output e).removed ↔ e' < state.keys ∧ _
        rw [order, List.mem_cons, h.mem_removed, Finset.mem_erase]
        have inside := h.inside e present
        by_cases same : e' = e
        · simp [same, inside]
        · simp [same]
      peelable := by
        show Peelable state.ends _ (state.output e).removed
        rw [order]
        refine ⟨hasFreeEnd_erase alone, ?_⟩
        rw [Finset.insert_erase present]
        exact h.peelable }

/-- `remove_vertex` removes the only edge at the vertex, or does nothing when the vertex does
not have exactly one edge.
-/
theorem removeVertex_peeling {state : State} {live : Finset Nat} (h : state.Peeling live) (v : Nat)
    : state.SameGraph (removeVertex state v)
      ∧ ∃ live' ⊆ live, (removeVertex state v).Peeling live'
        ∧ ∀ e, incident state.ends live v = {e} → e ∉ live' := by
  unfold removeVertex
  split
  case isFalse several =>
    refine ⟨State.SameGraph.refl _, live, Finset.Subset.refl _, h, ?_⟩
    intro e alone
    simp [h.tracks v, alone] at several
  case isTrue one =>
    rw [h.tracks v] at one ⊢
    obtain ⟨e, alone⟩ := Finset.card_eq_one.mp one
    simp only [alone, xorOf_singleton]
    refine ⟨⟨rfl, rfl, rfl, rfl, rfl, rfl, rfl⟩, live.erase e, Finset.erase_subset _ _,
      h.remove alone, ?_⟩
    intro e' same
    rw [Finset.singleton_inj.mp same]
    exact Finset.notMem_erase _ _

/-- A pass over vertices. An edge that is alone at one of them is gone afterwards. -/
theorem foldl_removeVertex_peeling {state : State} {live : Finset Nat} (h : state.Peeling live)
    (vs : List Nat)
    : state.SameGraph (vs.foldl removeVertex state)
      ∧ ∃ live' ⊆ live, (vs.foldl removeVertex state).Peeling live'
        ∧ ∀ v ∈ vs, ∀ e, (∃ i, state.ends e i = v)
          → (∀ other ∈ live, (∃ i, state.ends other i = v) → other = e) → e ∉ live' := by
  induction vs generalizing state live with
  | nil => exact ⟨State.SameGraph.refl _, live, Finset.Subset.refl _, h, by simp⟩
  | cons v vs ih =>
      obtain ⟨same₁, live₁, subset₁, peeling₁, gone₁⟩ := removeVertex_peeling h v
      obtain ⟨same₂, live₂, subset₂, peeling₂, gone₂⟩ := ih peeling₁
      refine ⟨same₁.trans same₂, live₂, subset₂.trans subset₁, peeling₂, ?_⟩
      intro v' member e touches only remains
      have present := subset₁ (subset₂ remains)
      rcases List.mem_cons.mp member with rfl | later
      · have alone : incident state.ends live v' = {e} := by
          ext other
          rw [mem_incident, Finset.mem_singleton]
          refine ⟨fun ⟨inside, meets⟩ => only other inside meets, ?_⟩
          rintro rfl
          exact ⟨present, touches⟩
        exact gone₁ e alone (subset₂ remains)
      · refine gone₂ v' later e ?_ ?_ remains
        · rwa [same₁.ends]
        · intro other inside meets
          rw [same₁.ends] at meets
          exact only other (subset₁ inside) meets

theorem drain_peeling {state : State} {live : Finset Nat} (h : state.Peeling live) (i : Nat)
    : state.SameGraph (buildGraph.drain state i)
      ∧ ∃ live' ⊆ live, (buildGraph.drain state i).Peeling live' := by
  induction i generalizing state live with
  | zero => exact ⟨State.SameGraph.refl _, live, Finset.Subset.refl _, h⟩
  | succ i ih =>
      simp only [buildGraph.drain]
      split
      case isFalse => exact ⟨State.SameGraph.refl _, live, Finset.Subset.refl _, h⟩
      case isTrue =>
        obtain ⟨same₁, live₁, subset₁, peeling₁, -⟩ := foldl_removeVertex_peeling h
          [(state.edges (state.outputOrder i)).vertices 0,
            (state.edges (state.outputOrder i)).vertices 1,
            (state.edges (state.outputOrder i)).vertices 2]
        obtain ⟨same₂, live₂, subset₂, peeling₂⟩ := ih peeling₁
        exact ⟨same₁.trans same₂, live₂, subset₂.trans subset₁, peeling₂⟩

/-- The state once the edges are known and none of them is in place yet. -/
def State.withEdges (state : State) (edges : List Edge) : State :=
  { state with
    vertices := fun _ => ⟨0, 0⟩
    edges := fun i => edges.getD i (state.edges i) }

theorem foldl_changeEdge_tracks {state : State} (proper : state.Proper)
    (tracks : state.Tracks ∅) (small : state.keys < 2 ^ 32) (n : Nat) (inside : n ≤ state.keys)
    : state.SameGraph ((List.range n).foldl (fun state e => changeEdge state 1 e) state)
      ∧ ((List.range n).foldl (fun state e => changeEdge state 1 e) state).Tracks
          (Finset.range n) := by
  induction n with
  | zero => exact ⟨State.SameGraph.refl _, by simpa using tracks⟩
  | succ n ih =>
      obtain ⟨same, tracks'⟩ := ih (by omega)
      rw [List.range_succ, List.foldl_append, List.foldl_cons, List.foldl_nil,
        Finset.range_add_one]
      refine ⟨same.trans (changeEdge_sameGraph _ _ _), tracks'.insert ?_ ?_ ?_⟩
      · rw [same.edges]
        exact proper n (by omega)
      · exact Finset.notMem_range_self
      · rw [Finset.card_range]
        omega

/-- The edges of the keys, as `build_graph` fills them in. -/
def Cdbw.edges (vectorHash : VectorHash) (cdbw : Cdbw) (state : State) : List Edge :=
  cdbw.keyHashes.map (edgeOf vectorHash state (fastDivide32Prepare state.entries))

/-- `build_graph` up to the first removal. -/
def filled (vectorHash : VectorHash) (cdbw : Cdbw) (state : State) : State :=
  let state := (List.range state.keys).foldl (fun state e => changeEdge state 1 e)
    (state.withEdges (cdbw.edges vectorHash state))
  { state with outputIndex := state.keys }

/-- All edges are in place before the first removal. -/
theorem filled_peeling {vectorHash : VectorHash} {cdbw : Cdbw} {state : State}
    (proper : ¬ (cdbw.edges vectorHash state).any Edge.degenerate)
    (count : state.keys = cdbw.keyHashes.length) (small : state.keys < 2 ^ 32)
    : (state.withEdges (cdbw.edges vectorHash state)).SameGraph (filled vectorHash cdbw state)
      ∧ (filled vectorHash cdbw state).Peeling (Finset.range state.keys) := by
  have distinct : (state.withEdges (cdbw.edges vectorHash state)).Proper := by
    intro e inside degenerate
    have bound : e < (cdbw.edges vectorHash state).length := by
      rw [Cdbw.edges, List.length_map, ← count]
      exact inside
    refine proper (List.any_eq_true.mpr ⟨_, List.getElem_mem bound, ?_⟩)
    simpa [State.withEdges, List.getElem?_eq_getElem bound] using degenerate
  have none : (state.withEdges (cdbw.edges vectorHash state)).Tracks ∅ := by
    intro v
    simp [State.withEdges, incident]
  obtain ⟨same, tracks⟩ := foldl_changeEdge_tracks distinct none small state.keys (Nat.le_refl _)
  have same' : (state.withEdges (cdbw.edges vectorHash state)).SameGraph
      (filled vectorHash cdbw state) :=
    ⟨same.dataEntries, same.entries, same.keys, same.seed, same.g, same.visited, same.edges⟩
  have keys : (filled vectorHash cdbw state).keys = state.keys := same'.keys
  have index : (filled vectorHash cdbw state).outputIndex = state.keys := same.keys
  have nothing : (filled vectorHash cdbw state).removed = [] := by
    simp [State.removed, index, keys]
  refine ⟨same', ?_, ?_, tracks, ?_, ?_, ?_, ?_, ?_⟩
  · rwa [keys]
  · intro e inside
    rw [same'.edges]
    exact distinct e (keys ▸ inside)
  · intro e member
    rw [keys]
    exact Finset.mem_range.mp member
  · rw [index, Finset.card_range]
  · simp [nothing]
  · intro e
    simp [nothing, keys]
  · simp [nothing, Peelable]

/-- `build_graph` after the edges are filled in. -/
def peeled (state : State) : State :=
  let state := (List.range state.entries).foldl removeVertex state
  buildGraph.drain state state.keys

theorem buildGraph_eq (vectorHash : VectorHash) (cdbw : Cdbw) (state : State)
    : buildGraph vectorHash cdbw state
      = if (cdbw.edges vectorHash state).any Edge.degenerate then
          none
        else if (peeled (filled vectorHash cdbw state)).outputIndex = 0 then
          some (peeled (filled vectorHash cdbw state))
        else
          none :=
  rfl

theorem peeled_peeling {state : State} {live : Finset Nat} (h : state.Peeling live)
    : state.SameGraph (peeled state)
      ∧ ∃ live' ⊆ live, (peeled state).Peeling live'
        ∧ ∀ v < state.entries, ∀ e, (∃ i, state.ends e i = v)
          → (∀ other ∈ live, (∃ i, state.ends other i = v) → other = e) → e ∉ live' := by
  obtain ⟨same₁, live₁, subset₁, peeling₁, gone⟩ :=
    foldl_removeVertex_peeling h (List.range state.entries)
  obtain ⟨same₂, live₂, subset₂, peeling₂⟩ := drain_peeling peeling₁
    ((List.range state.entries).foldl removeVertex state).keys
  refine ⟨same₁.trans same₂, live₂, subset₂.trans subset₁, peeling₂, ?_⟩
  intro v inside e touches only remains
  exact gone v (List.mem_range.mpr inside) e touches only (subset₂ remains)

/-- What `build_graph` hands on when it succeeds. -/
structure Built (vectorHash : VectorHash) (cdbw : Cdbw) (state built : State) : Prop where
  same : (state.withEdges (cdbw.edges vectorHash state)).SameGraph built
  proper : built.Proper
  unique : ((List.range state.keys).map built.outputOrder).Nodup
  complete : ∀ e, e ∈ (List.range state.keys).map built.outputOrder ↔ e < state.keys
  peelable : Peelable built.ends ∅ ((List.range state.keys).map built.outputOrder)

theorem State.Peeling.removed_eq {state : State} (h : state.Peeling ∅)
    : state.removed = (List.range state.keys).map state.outputOrder := by
  have index : state.outputIndex = 0 := by simpa using h.left
  rw [State.removed, index, Nat.sub_zero, List.range_eq_range']

theorem buildGraph_built {vectorHash : VectorHash} {cdbw : Cdbw} {state built : State}
    (count : state.keys = cdbw.keyHashes.length) (small : state.keys < 2 ^ 32)
    (run : buildGraph vectorHash cdbw state = some built)
    : Built vectorHash cdbw state built := by
  rw [buildGraph_eq] at run
  split at run
  · cases run
  split at run
  case isFalse => cases run
  case isTrue proper index =>
    obtain rfl := Option.some.inj run
    obtain ⟨same, peeling⟩ := filled_peeling proper count small
    obtain ⟨same', live, -, peeling', -⟩ := peeled_peeling peeling
    have none : live = ∅ := by rw [← Finset.card_eq_zero, ← peeling'.left, index]
    subst none
    have keys : (peeled (filled vectorHash cdbw state)).keys = state.keys :=
      (same.trans same').keys
    have order := peeling'.removed_eq
    rw [keys] at order
    refine ⟨same.trans same', peeling'.proper, ?_, ?_, ?_⟩
    · rw [← order]
      exact peeling'.unique
    · intro e
      rw [← order, peeling'.mem_removed, keys]
      simp
    · rw [← order]
      exact peeling'.peelable

/-- `build_graph` succeeds when each edge has a vertex of its own. -/
theorem buildGraph_of_private {vectorHash : VectorHash} {cdbw : Cdbw} {state : State}
    (count : state.keys = cdbw.keyHashes.length) (small : state.keys < 2 ^ 32)
    (proper : ¬ (cdbw.edges vectorHash state).any Edge.degenerate)
    (own : ∀ e < state.keys, ∃ v < state.entries,
      (∃ i, (state.withEdges (cdbw.edges vectorHash state)).ends e i = v)
      ∧ ∀ other < state.keys, (∃ i, (state.withEdges (cdbw.edges vectorHash state)).ends other i = v)
        → other = e)
    : ∃ built, buildGraph vectorHash cdbw state = some built := by
  obtain ⟨same, peeling⟩ := filled_peeling proper count small
  obtain ⟨same', live, subset, peeling', gone⟩ := peeled_peeling peeling
  have none : live = ∅ := by
    rw [Finset.eq_empty_iff_forall_notMem]
    intro e remains
    obtain ⟨v, inside, touches, only⟩ := own e (Finset.mem_range.mp (subset remains))
    rw [← same.ends] at touches only
    refine gone v (same.entries ▸ inside) e touches ?_ remains
    intro other member meets
    exact only other (Finset.mem_range.mp member) meets
  subst none
  have index : (peeled (filled vectorHash cdbw state)).outputIndex = 0 := by
    simpa using peeling'.left
  exact ⟨_, by rw [buildGraph_eq, if_neg proper, if_pos index]⟩

end BSDLibC.Cdb
