import BSDLibC.RbTree.Runs
import Mathlib.Data.Finset.Dedup
import Mathlib.Data.Finset.Erase
import Mathlib.Data.Finset.Insert

/-! The tree as a finite sorted set. The abstract side knows only which nodes are stored; every
call of a run returns what the set determines, and the in-order list is the set in order.
-/

namespace BSDLibC.RbTree
open BSDLibC.ColorTree

variable {Key : Type} (rbt : Ptr) (compareNodes : Ptr → Ptr → Int) (compareKey : Ptr → Key → Int)

/-- `rbto_compare_key` agrees with the order of the nodes: what lies after a node that has
reached the key has passed it.
-/
def KeyOrder : Prop :=
  ∀ a b key, compareNodes a b < 0 → 0 ≤ compareKey a key → 0 < compareKey b key

inductive Call (Key : Type)
  | update (change : Update)
  | findNode (key : Key)
  | findNodeGeq (key : Key)
  | findNodeLeq (key : Key)

/-- Lookups need no promise from the caller. -/
def Call.Legal (m : Mem) : Call Key → Prop
  | .update change => change.Legal rbt m
  | _ => True

def Call.apply (fuel : Nat) (m : Mem) : Call Key → Option (Mem × Option Ptr)
  | .update change => change.apply rbt compareNodes fuel m
  | .findNode key => (rbTreeFindNode rbt compareKey fuel m key).map (fun x => (m, some x))
  | .findNodeGeq key => (rbTreeFindNodeGeq rbt compareKey fuel m key).map (fun x => (m, some x))
  | .findNodeLeq key => (rbTreeFindNodeLeq rbt compareKey fuel m key).map (fun x => (m, some x))

def runCalls (fuel : Nat) : Mem → List (Call Key) → Option (Mem × List (Option Ptr))
  | m, [] => some (m, [])
  | m, call :: rest => do
      let (m', result) ← call.apply rbt compareNodes compareKey fuel m
      let (m'', results) ← runCalls fuel m' rest
      return (m'', result :: results)

def LegalCalls (fuel : Nat) : Mem → List (Call Key) → Prop
  | _, [] => True
  | m, call :: rest =>
      call.Legal rbt m
      ∧ ∀ m' result, call.apply rbt compareNodes compareKey fuel m = some (m', result)
        → LegalCalls fuel m' rest

/-- What a call does to the set of stored nodes and what it returns. -/
inductive SetStep : Finset Ptr → Call Key → Finset Ptr → Option Ptr → Prop
  | insertEqual {S : Finset Ptr} {object x : Ptr} (stored : x ∈ S)
      (equal : compareNodes x object = 0)
      : SetStep S (.update (.insert object)) S (some x)
  | insertNew {S : Finset Ptr} {object : Ptr} (different : ∀ x ∈ S, compareNodes x object ≠ 0)
      : SetStep S (.update (.insert object)) (insert object S) (some object)
  | remove {S : Finset Ptr} {object : Ptr} (stored : object ∈ S)
      : SetStep S (.update (.remove object)) (S.erase object) none
  | find {S : Finset Ptr} {key : Key} {x : Ptr} (stored : x ∈ S) (equal : compareKey x key = 0)
      : SetStep S (.findNode key) S (some x)
  | findNone {S : Finset Ptr} {key : Key} (different : ∀ x ∈ S, compareKey x key ≠ 0)
      : SetStep S (.findNode key) S (some NULL)
  | geq {S : Finset Ptr} {key : Key} {x : Ptr} (stored : x ∈ S) (reached : 0 ≤ compareKey x key)
      (least : ∀ y ∈ S, 0 ≤ compareKey y key → y = x ∨ compareNodes x y < 0)
      : SetStep S (.findNodeGeq key) S (some x)
  | geqNone {S : Finset Ptr} {key : Key} (smaller : ∀ x ∈ S, compareKey x key < 0)
      : SetStep S (.findNodeGeq key) S (some NULL)
  | leq {S : Finset Ptr} {key : Key} {x : Ptr} (stored : x ∈ S) (reached : compareKey x key ≤ 0)
      (greatest : ∀ y ∈ S, compareKey y key ≤ 0 → y = x ∨ compareNodes y x < 0)
      : SetStep S (.findNodeLeq key) S (some x)
  | leqNone {S : Finset Ptr} {key : Key} (larger : ∀ x ∈ S, 0 < compareKey x key)
      : SetStep S (.findNodeLeq key) S (some NULL)

inductive SetRun : Finset Ptr → List (Call Key) → Finset Ptr → List (Option Ptr) → Prop
  | nil (S : Finset Ptr) : SetRun S [] S []
  | cons {S S₁ S' : Finset Ptr} {call : Call Key} {rest : List (Call Key)} {result : Option Ptr}
      {results : List (Option Ptr)}
      (step : SetStep compareNodes compareKey S call S₁ result) (run : SetRun S₁ rest S' results)
      : SetRun S (call :: rest) S' (result :: results)

variable {rbt compareNodes compareKey}
variable {m : Mem} {T : CTree Ptr} {fuel : Nat}

/-- The set of nodes of a tree. -/
def elements (T : CTree Ptr) : Finset Ptr := (T.traverse .right).toFinset

theorem mem_elements {x : Ptr} : x ∈ elements T ↔ T.Has x := List.mem_toFinset

theorem elements_insert {T' : CTree Ptr} {object : Ptr}
    (different : ∀ x, T.Has x → compareNodes x object ≠ 0)
    (same : T'.traverse .right = insertSorted compareNodes object (T.traverse .right))
    : elements T' = insert object (elements T) := by
  ext x
  simp only [elements, same, insertSorted, List.mem_toFinset, List.mem_append, List.mem_cons,
    List.mem_filter, decide_eq_true_eq, Finset.mem_insert]
  have sides : x ∈ T.traverse .right → compareNodes x object < 0 ∨ 0 < compareNodes x object :=
    fun member => lt_or_gt_of_ne (different x member)
  tauto

theorem elements_erase {T' : CTree Ptr} {object : Ptr} (distinct : T.Distinct)
    (same : T'.traverse .right = (T.traverse .right).erase object)
    : elements T' = (elements T).erase object := by
  ext x
  simp only [elements, same, List.mem_toFinset, Finset.mem_erase, List.Nodup.mem_erase_iff distinct]

/-- The first element of a traversal that satisfies a condition precedes all others that do. -/
theorem find?_first {d : Dir} {condition : Ptr → Prop} [DecidablePred condition] {x : Ptr}
    (sorted : (T.traverse d).Pairwise (fun a b => facing d (compareNodes a b) < 0))
    (found : (T.traverse d).find? (fun x => condition x) = some x)
    : T.Has x ∧ condition x
      ∧ ∀ y, T.Has y → condition y → y = x ∨ facing d (compareNodes x y) < 0 := by
  obtain ⟨holds, before, after, split, fails⟩ := List.find?_eq_some_iff_append.mp found
  refine ⟨?_, by simpa using holds, ?_⟩
  · rw [← CTree.mem_traverse (d := d), split]
    simp
  · intro y member holdsY
    rw [← CTree.mem_traverse (d := d), split, List.mem_append, List.mem_cons] at member
    rw [split] at sorted
    rcases member with early | rfl | late
    · simpa [holdsY] using fails y early
    · exact Or.inl rfl
    · exact Or.inr ((List.pairwise_cons.mp (List.pairwise_append.mp sorted).2.1).1 y late)

theorem find?_none {d : Dir} {condition : Ptr → Prop} [DecidablePred condition]
    (found : (T.traverse d).find? (fun x => condition x) = none)
    : ∀ x, T.Has x → ¬ condition x := by
  intro x member
  simpa using List.find?_eq_none.mp found x (CTree.mem_traverse.mpr member)

theorem KeyOrder.probes (keys : KeyOrder compareNodes compareKey) {L : List Ptr}
    (sorted : L.Pairwise (fun a b => compareNodes a b < 0)) (key : Key)
    : Probes (compareKey · key) L :=
  sorted.imp (fun less => keys _ _ key less)

theorem Stored.findNode (keys : KeyOrder compareNodes compareKey)
    (h : Stored rbt compareNodes m T) (key : Key) (enough : size T < fuel)
    : ∃ x, rbTreeFindNode rbt compareKey fuel m key = some x
        ∧ SetStep compareNodes compareKey (elements T) (.findNode key) (elements T) (some x) := by
  have root : m.rbtRoot = rootPtr T := h.layout.context
  refine ⟨_, by
    rw [rbTreeFindNode, root]
    exact rbTreeFind_loop_equal h.layout.tree (keys.probes h.sorted key) NULL enough, ?_⟩
  cases found : (T.traverse .right).find? (fun x => decide (compareKey x key = 0)) with
  | none => exact .findNone (fun x member => find?_none found x (mem_elements.mp member))
  | some x =>
      obtain ⟨member, equal, -⟩ := find?_first (d := .right) h.sorted found
      exact .find (mem_elements.mpr member) equal

theorem Stored.findNodeGeq (keys : KeyOrder compareNodes compareKey)
    (h : Stored rbt compareNodes m T) (key : Key) (enough : size T < fuel)
    : ∃ x, rbTreeFindNodeGeq rbt compareKey fuel m key = some x
        ∧ SetStep compareNodes compareKey (elements T) (.findNodeGeq key) (elements T)
            (some x) := by
  have root : m.rbtRoot = rootPtr T := h.layout.context
  refine ⟨_, by
    rw [rbTreeFindNodeGeq, root]
    exact rbTreeFind_loop_nearest .right (by simp [facing]) h.layout.tree
      (keys.probes h.sorted key) NULL enough, ?_⟩
  cases found : (T.traverse .right).find? (fun x => decide (0 ≤ facing .right (compareKey x key))) with
  | none =>
      refine .geqNone (fun x member => ?_)
      exact not_le.mp (find?_none found x (mem_elements.mp member))
  | some x =>
      obtain ⟨member, reached, first⟩ := find?_first (d := .right) h.sorted found
      refine .geq (mem_elements.mpr member) reached (fun y stored reachedY => ?_)
      exact first y (mem_elements.mp stored) reachedY

theorem Stored.findNodeLeq (order : TotalOrder compareNodes)
    (keys : KeyOrder compareNodes compareKey) (h : Stored rbt compareNodes m T) (key : Key)
    (enough : size T < fuel)
    : ∃ x, rbTreeFindNodeLeq rbt compareKey fuel m key = some x
        ∧ SetStep compareNodes compareKey (elements T) (.findNodeLeq key) (elements T)
            (some x) := by
  have root : m.rbtRoot = rootPtr T := h.layout.context
  refine ⟨_, by
    rw [rbTreeFindNodeLeq, root]
    exact rbTreeFind_loop_nearest .left (by simp [facing]) h.layout.tree
      (Probes.facing (keys.probes h.sorted key) .left) NULL enough, ?_⟩
  cases found : (T.traverse .left).find? (fun x => decide (0 ≤ facing .left (compareKey x key))) with
  | none =>
      refine .leqNone (fun x member => ?_)
      have := find?_none found x (mem_elements.mp member)
      simp only [facing] at this
      omega
  | some x =>
      obtain ⟨member, reached, first⟩ :=
        find?_first (pairwise_facing order h.sorted .left) found
      simp only [facing] at reached first
      rw [Option.getD_some]
      refine .leq (mem_elements.mpr member) (by omega) (fun y stored reachedY => ?_)
      refine (first y (mem_elements.mp stored) (by omega)).imp id (fun after => ?_)
      exact (order.swap y x).mpr (by omega)

/-- Every legal call has a result, the one the set determines. -/
theorem Stored.call (order : TotalOrder compareNodes) (keys : KeyOrder compareNodes compareKey)
    (h : Stored rbt compareNodes m T) {call : Call Key} (legal : call.Legal rbt m)
    (enough : size T < fuel)
    : ∃ m' result T', call.apply rbt compareNodes compareKey fuel m = some (m', result)
        ∧ Stored rbt compareNodes m' T'
        ∧ SetStep compareNodes compareKey (elements T) call (elements T') result
        ∧ size T' ≤ size T + 1 := by
  cases call with
  | update change =>
      obtain ⟨m', result, T', run, stored, same⟩ := h.update order legal enough
      have grown := length_onElements compareNodes change (T.traverse .right)
      rw [← same] at grown
      refine ⟨m', result, T', run, stored, ?_, grown⟩
      cases change with
      | insert object =>
          have fresh := h.layout.linked_iff.not.mp legal.2
          rcases h.insert order legal.1 fresh enough with
            ⟨x, member, equal, run'⟩ | ⟨different, m₁, T₁, run', -, -⟩
          · obtain ⟨-, rfl⟩ : m = m' ∧ some x = result := by simpa [Update.apply, run'] using run
            rw [Update.onElements, if_pos ⟨x, member, equal⟩] at same
            rw [elements, elements, same]
            exact .insertEqual (List.mem_toFinset.mpr member) equal
          · obtain ⟨-, rfl⟩ : m₁ = m' ∧ some object = result := by
              simpa [Update.apply, run'] using run
            rw [Update.onElements, if_neg (by rintro ⟨x, hx, equal⟩; exact different x hx equal)] at same
            rw [elements_insert different same]
            exact .insertNew (fun x hx => different x (mem_elements.mp hx))
      | remove object =>
          have member := h.layout.linked_iff.mp legal
          obtain rfl : none = result := by
            obtain ⟨m₁, removed⟩ := Option.map_eq_some_iff.mp run
            exact (Prod.mk.inj removed.2).2
          rw [elements_erase h.layout.distinct same]
          exact .remove (mem_elements.mpr member)
  | findNode key =>
      obtain ⟨x, run, step⟩ := h.findNode keys key enough
      exact ⟨m, some x, T, by simp [Call.apply, run], h, step, by omega⟩
  | findNodeGeq key =>
      obtain ⟨x, run, step⟩ := h.findNodeGeq keys key enough
      exact ⟨m, some x, T, by simp [Call.apply, run], h, step, by omega⟩
  | findNodeLeq key =>
      obtain ⟨x, run, step⟩ := h.findNodeLeq order keys key enough
      exact ⟨m, some x, T, by simp [Call.apply, run], h, step, by omega⟩

theorem Stored.runCalls (order : TotalOrder compareNodes)
    (keys : KeyOrder compareNodes compareKey) (h : Stored rbt compareNodes m T)
    {calls : List (Call Key)} (legal : LegalCalls rbt compareNodes compareKey fuel m calls)
    (enough : size T + calls.length < fuel)
    : ∃ m' results T', RbTree.runCalls rbt compareNodes compareKey fuel m calls = some (m', results)
        ∧ Stored rbt compareNodes m' T'
        ∧ SetRun compareNodes compareKey (elements T) calls (elements T') results
        ∧ size T' ≤ size T + calls.length := by
  induction calls generalizing m T with
  | nil => exact ⟨m, [], T, rfl, h, .nil _, by simp⟩
  | cons call rest ih =>
      simp only [List.length_cons] at enough ⊢
      obtain ⟨m₁, result, T₁, run₁, stored₁, step, grown⟩ :=
        h.call order keys legal.1 (show size T < fuel by omega)
      obtain ⟨m', results, T', run, stored, steps, grown'⟩ :=
        ih stored₁ (legal.2 _ _ run₁) (by omega)
      exact ⟨m', result :: results, T', by simp [RbTree.runCalls, run₁, run], stored,
        .cons step steps, by omega⟩

/-- In every run of legal calls from `rb_tree_init`, each call returns what the set of stored
nodes determines, and the in-order list holds exactly that set in strict order.
-/
theorem runCalls_refines_set (order : TotalOrder compareNodes)
    (keys : KeyOrder compareNodes compareKey) (rbtNe : rbt ≠ NULL) (m₀ : Mem)
    (calls : List (Call Key)) (enough : calls.length < fuel)
    (legal : LegalCalls rbt compareNodes compareKey fuel (rbTreeInit m₀) calls)
    : ∃ m results S,
        runCalls rbt compareNodes compareKey fuel (rbTreeInit m₀) calls = some (m, results)
        ∧ SetRun compareNodes compareKey ∅ calls S results
        ∧ ∀ depth, calls.length ≤ depth
          → (m.inorder depth m.rbtRoot).Pairwise (fun a b => compareNodes a b < 0)
            ∧ ∀ x, x ∈ m.inorder depth m.rbtRoot ↔ x ∈ S := by
  obtain ⟨m, results, T, run, stored, steps, small⟩ :=
    (stored_init rbtNe m₀).runCalls order keys legal (by simpa [size] using enough)
  refine ⟨m, results, elements T, run, steps, ?_⟩
  intro depth deep
  have list : m.inorder depth m.rbtRoot = T.traverse .right := by
    rw [show m.rbtRoot = rootPtr T from stored.layout.context]
    exact stored.layout.tree.inorder (small.trans (by simpa [size] using deep))
  rw [list]
  exact ⟨stored.sorted, fun x => mem_elements.symm⟩

/-- Witness: an insertion and two lookups by address. -/
theorem runCalls_refines_set_lookups
    : ∃ m results S,
        runCalls header compareAddresses (fun a (key : Nat) => (a.addr.toNat : Int) - key) 4
            (rbTreeInit blank)
            [.update (.insert (nodeNo 1)), .findNodeGeq 70, .findNode 3] = some (m, results)
        ∧ SetRun compareAddresses (fun a (key : Nat) => (a.addr.toNat : Int) - key) ∅
            [.update (.insert (nodeNo 1)), .findNodeGeq 70, .findNode 3] S results := by
  have ne : header ≠ NULL := by decide
  have keys : KeyOrder compareAddresses (fun a (key : Nat) => (a.addr.toNat : Int) - key) := by
    intro a b key less reached
    simp only [compareAddresses] at less reached ⊢
    omega
  have first : (Update.insert (nodeNo 1)).Legal header (rbTreeInit blank) :=
    ((show Stored header compareAddresses (rbTreeInit blank) .nil from
      stored_init ne blank).legal_iff _).mpr (by decide)
  obtain ⟨m, results, S, run, steps, -⟩ := runCalls_refines_set compareAddresses_order keys ne blank
    [.update (.insert (nodeNo 1)), .findNodeGeq 70, .findNode 3] (show _ < 4 by decide)
    ⟨first, fun _ _ _ => ⟨trivial, fun _ _ _ => ⟨trivial, fun _ _ _ => trivial⟩⟩⟩
  exact ⟨m, results, S, run, steps⟩

end BSDLibC.RbTree
