import BSDLibC.Tsearch.Delete
import Mathlib.Data.Set.Insert

/-! Runs of calls against a set of keys. -/

namespace BSDLibC.Tsearch
open BSDLibC.ColorTree BSDLibC.LinkedTree

variable {K : Type} (compar : K → K → Int)

/-- A call for the root. The block is what `malloc` returns if `tsearch` calls it. -/
inductive Call (K : Type)
  | tsearch (key : K) (malloc : Option (Addr × Node K))
  | tfind (key : K)
  | tdelete (key : K)

def Call.apply (fuel : Nat) (s : State K) : Call K → Option (Option Addr × State K)
  | .tsearch key malloc => Tsearch.tsearch compar fuel s key (some .top) malloc
  | .tfind key => (Tsearch.tfind compar fuel s key (some .top)).map (fun r => (r, s))
  | .tdelete key => Tsearch.tdelete compar fuel s key (some .top)

/-- `malloc` does not return a block that is in use. -/
def Call.Fresh (s : State K) : Call K → Prop
  | .tsearch _ (some (q, _)) => s.heap q = none
  | _ => True

/-- The linked nodes are a sorted tree with these keys, and they are the nodes that are allocated,
each of them linked once.
-/
def Represents (s : State K) (S : Set K) : Prop :=
  ∃ T, At s.links [] T ∧ (∀ a, s.heap a ≠ none ↔ T.Has a)
    ∧ (T.traverse .right).Pairwise (fun a b => ∀ x ∈ s.heap a, ∀ y ∈ s.heap b, compar x.key y.key < 0)
    ∧ ∀ x, x ∈ S ↔ ∃ a, (s.heap a).map Node.key = some x

/-- A node with a key that is equal to the given one. -/
def State.Equal (s : State K) (key : K) (a : Addr) (x : K) : Prop :=
  compar key x = 0 ∧ (s.heap a).map Node.key = some x

/-- What a call returns, and what it does to the set. -/
inductive SetStep (s : State K) (S : Set K) : Call K → Option Addr → State K → Set K → Prop
  | found {key x : K} {malloc : Option (Addr × Node K)} {a : Addr} (present : x ∈ S)
      (equal : s.Equal compar key a x)
      : SetStep s S (.tsearch key malloc) (some a) s S
  | inserted {key : K} {q : Addr} {contents : Node K} {s' : State K}
      (absent : ∀ x ∈ S, compar key x ≠ 0) (stored : (s'.heap q).map Node.key = some key)
      : SetStep s S (.tsearch key (some (q, contents))) (some q) s' (insert key S)
  | noMemory {key : K} (absent : ∀ x ∈ S, compar key x ≠ 0)
      : SetStep s S (.tsearch key none) none s S
  | find {key x : K} {a : Addr} (present : x ∈ S) (equal : s.Equal compar key a x)
      : SetStep s S (.tfind key) (some a) s S
  | findNone {key : K} (absent : ∀ x ∈ S, compar key x ≠ 0)
      : SetStep s S (.tfind key) none s S
  | deleted {key x : K} {p : Addr} {s' : State K} (present : x ∈ S) (equal : compar key x = 0)
      : SetStep s S (.tdelete key) (some p) s' (S \ {x})
  | deleteNone {key : K} (absent : ∀ x ∈ S, compar key x ≠ 0)
      : SetStep s S (.tdelete key) none s S

/-- A run of calls, each of which does to the set what it should, with the set represented
between any two of them.
-/
inductive SetRun : State K → Set K → List (Call K) → State K → Set K → Prop
  | nil {s : State K} {S : Set K} (represents : Represents compar s S) : SetRun s S [] s S
  | cons {s s₁ s' : State K} {S S₁ S' : Set K} {call : Call K} {rest : List (Call K)}
      {result : Option Addr} (represents : Represents compar s S)
      (step : SetStep compar s S call result s₁ S₁) (run : SetRun s₁ S₁ rest s' S')
      : SetRun s S (call :: rest) s' S'

def runCalls (fuel : Nat) : State K → List (Call K) → Option (State K)
  | s, [] => some s
  | s, call :: rest =>
      match call.apply compar fuel s with
      | none => none
      | some (_, s') => runCalls fuel s' rest

def FreshCalls (fuel : Nat) : State K → List (Call K) → Prop
  | _, [] => True
  | s, call :: rest =>
      call.Fresh s
      ∧ ∀ result s', call.apply compar fuel s = some (result, s') → FreshCalls fuel s' rest

variable {compar} {s : State K} {key : Addr → K} {T : CTree Addr} {S : Set K} {fuel : Nat}

theorem Holds.key_at (h : Holds compar s key T) {a : Addr} (member : T.Has a)
    : (s.heap a).map Node.key = some (key a) := by
  obtain ⟨node, found, same, -⟩ := h.node member
  rw [found, Option.map_some, same]

theorem Holds.represents (h : Holds compar s key T) (keys : ∀ x, x ∈ S ↔ ∃ a, T.Has a ∧ key a = x)
    : Represents compar s S := by
  refine ⟨T, h.layout, h.allocated, h.sorted.imp ?_, fun x => (keys x).trans ⟨?_, ?_⟩⟩
  · intro a b less x atA y atB
    rwa [h.keys a x atA, h.keys b y atB]
  · rintro ⟨a, inside, rfl⟩
    exact ⟨a, h.key_at inside⟩
  · rintro ⟨a, stored⟩
    obtain ⟨node, found, rfl⟩ := Option.map_eq_some_iff.mp stored
    exact ⟨a, (h.allocated a).mp (by simp [found]), (h.keys a node found).symm⟩

/-- Keys of different nodes are different. -/
theorem Holds.key_injective (order : TotalOrder compar) (h : Holds compar s key T) {a b : Addr}
    (inA : T.Has a) (inB : T.Has b) (same : key a = key b)
    : a = b := by
  have irreflexive (x : K) : ¬ compar x x < 0 := by
    intro less
    have := (order.swap x x).mp less
    omega
  by_contra ne
  have sorted := h.sorted
  obtain ⟨i, hi, atI⟩ := List.mem_iff_getElem.mp inA
  obtain ⟨j, hj, atJ⟩ := List.mem_iff_getElem.mp inB
  rcases Nat.lt_trichotomy i j with less | rfl | more
  · have apart := List.pairwise_iff_getElem.mp sorted i j hi hj less
    rw [atI, atJ, same] at apart
    exact irreflexive _ apart
  · exact ne (atI.symm.trans atJ)
  · have apart := List.pairwise_iff_getElem.mp sorted j i hj hi more
    rw [atI, atJ, same] at apart
    exact irreflexive _ apart

theorem length_le_succ {T' : CTree Addr} {q : Addr} (distinct : T'.Distinct)
    (members : ∀ a, T'.Has a → a = q ∨ T.Has a)
    : (T'.traverse .right).length ≤ (T.traverse .right).length + 1 := by
  have bound := List.Nodup.length_le_of_subset distinct (show T'.traverse .right ⊆ q :: T.traverse .right from
    fun a inside => List.mem_cons.mpr (members a inside))
  rwa [List.length_cons] at bound

/-- One call. -/
theorem Call.apply_spec (order : TotalOrder compar) (h : Holds compar s key T)
    (keys : ∀ x, x ∈ S ↔ ∃ a, T.Has a ∧ key a = x) (enough : (T.traverse .right).length < fuel)
    (call : Call K) (fresh : call.Fresh s)
    : ∃ result s' S' key' T', call.apply compar fuel s = some (result, s')
      ∧ SetStep compar s S call result s' S' ∧ Holds compar s' key' T'
      ∧ (∀ x, x ∈ S' ↔ ∃ a, T'.Has a ∧ key' a = x)
      ∧ (T'.traverse .right).length ≤ (T.traverse .right).length + 1 := by
  have missing {vkey : K} (absent : ∀ a, T.Has a → compar vkey (key a) ≠ 0) : ∀ x ∈ S, compar vkey x ≠ 0 := by
    intro x member
    obtain ⟨a, inside, rfl⟩ := (keys x).mp member
    exact absent a inside
  have there {a : Addr} (inside : T.Has a) : key a ∈ S := (keys _).mpr ⟨a, inside, rfl⟩
  cases call with
  | tsearch vkey malloc =>
      have fresh' : ∀ q contents, malloc = some (q, contents) → s.heap q = none := by
        rintro q contents rfl
        exact fresh
      rcases tsearch_spec order h vkey enough malloc fresh' with
        ⟨a, inside, equal, run⟩ | ⟨absent, ⟨rfl, run⟩ | ⟨q, contents, s', T', rfl, run, holds, members⟩⟩
      · exact ⟨some a, s, S, key, T, run, .found (there inside) ⟨equal, h.key_at inside⟩, h, keys, by omega⟩
      · exact ⟨none, s, S, key, T, run, .noMemory (missing absent), h, keys, by omega⟩
      · have new : T'.Has q := (members q).mpr (Or.inl rfl)
        have notOld : ¬ T.Has q := fun old => (h.allocated q).mpr old fresh
        refine ⟨some q, s', insert vkey S, _, T', run, .inserted (missing absent) ?_, holds, fun x => ?_,
          length_le_succ holds.layout.distinct fun a => (members a).mp⟩
        · rw [holds.key_at new, Function.update_self]
        · rw [Set.mem_insert_iff, keys]
          constructor
          · rintro (rfl | ⟨a, inside, rfl⟩)
            · exact ⟨q, new, Function.update_self q _ _⟩
            · refine ⟨a, (members a).mpr (Or.inr inside), Function.update_of_ne ?_ _ _⟩
              rintro rfl
              exact notOld inside
          · rintro ⟨a, inside, rfl⟩
            rcases (members a).mp inside with rfl | old
            · exact Or.inl (Function.update_self a _ _)
            · refine Or.inr ⟨a, old, (Function.update_of_ne ?_ _ _).symm⟩
              rintro rfl
              exact notOld old
  | tfind vkey =>
      rcases tfind_spec order h vkey enough with ⟨a, inside, equal, run⟩ | ⟨absent, run⟩
      · exact ⟨some a, s, S, key, T, by rw [Call.apply, run]; rfl,
          .find (there inside) ⟨equal, h.key_at inside⟩, h, keys, by omega⟩
      · exact ⟨none, s, S, key, T, by rw [Call.apply, run]; rfl, .findNone (missing absent), h, keys,
          by omega⟩
  | tdelete vkey =>
      rcases tdelete_spec order h vkey enough with
        ⟨absent, run⟩ | ⟨a, p, s', T', inside, equal, run, holds, gone, members⟩
      · exact ⟨none, s, S, key, T, run, .deleteNone (missing absent), h, keys, by omega⟩
      · refine ⟨some p, s', S \ {key a}, key, T', run, .deleted (there inside) equal, holds, fun x => ?_, ?_⟩
        · rw [Set.mem_sdiff, Set.mem_singleton_iff, keys]
          constructor
          · rintro ⟨⟨b, old, rfl⟩, ne⟩
            refine ⟨b, ((members b).mp old).resolve_left ?_, rfl⟩
            rintro rfl
            exact ne rfl
          · rintro ⟨b, left, rfl⟩
            have old := (members b).mpr (Or.inr left)
            refine ⟨⟨b, old, rfl⟩, fun same => ?_⟩
            rw [h.key_injective order old inside same] at left
            exact gone left
        · exact length_le_succ (q := a) holds.layout.distinct fun b left =>
            Or.inr ((members b).mpr (Or.inr left))

theorem runCalls_spec (order : TotalOrder compar) (calls : List (Call K))
    (h : Holds compar s key T) (keys : ∀ x, x ∈ S ↔ ∃ a, T.Has a ∧ key a = x)
    (enough : (T.traverse .right).length + calls.length < fuel) (fresh : FreshCalls compar fuel s calls)
    : ∃ s' S', runCalls compar fuel s calls = some s' ∧ SetRun compar s S calls s' S'
      ∧ Represents compar s' S' := by
  induction calls generalizing s key T S with
  | nil => exact ⟨s, S, rfl, .nil (h.represents keys), h.represents keys⟩
  | cons call rest ih =>
      obtain ⟨free, later⟩ := fresh
      rw [List.length_cons] at enough
      obtain ⟨result, s₁, S₁, key₁, T₁, run, step, h₁, keys₁, bound⟩ :=
        call.apply_spec order h keys (show (T.traverse .right).length < fuel by omega) free
      obtain ⟨s', S', runs, steps, represents⟩ := ih h₁ keys₁ (by omega)
        (later result s₁ run)
      refine ⟨s', S', ?_, .cons (h.represents keys) step steps, represents⟩
      rw [runCalls, run]
      exact runs

/-- The root and the heap before the first call. -/
def State.empty : State K := ⟨none, fun _ => none⟩

theorem holds_empty (key : Addr → K) : Holds compar .empty key .nil :=
  ⟨⟨rfl, trivial, by simp [CTree.Distinct]⟩, by simp [State.empty], by simp [State.empty], by simp⟩

/-- Some key of a call. -/
def Call.vkey : Call K → K
  | .tsearch key _ => key
  | .tfind key => key
  | .tdelete key => key

end BSDLibC.Tsearch
