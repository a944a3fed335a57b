import BSDLibC.Tsearch.Search

/-! `tsearch` and `tfind` in a tree that holds a set of keys. -/

namespace BSDLibC.Tsearch
open BSDLibC.ColorTree BSDLibC.LinkedTree

variable {K : Type} {compar : K → K → Int} {s s' : State K} {key : Addr → K} {T : CTree Addr}
  {ctx : Context Addr} {vkey : K} {fuel : Nat}

/-- A search from the root: the hole, and either a node with the key or nothing. -/
theorem Holds.search (order : TotalOrder compar) (h : Holds compar s key T) (vkey : K)
    (enough : (T.traverse .right).length < fuel)
    : ∃ ctx found, T = plug ctx found ∧ locate compar key vkey T [] = (ctx, found)
      ∧ Between compar key vkey ctx
      ∧ walk compar s vkey fuel .top = some (cursor ctx)
      ∧ s.get (cursor ctx) = some (link found)
      ∧ (found = .nil ∨ ∃ red a kids, found = .node red a kids ∧ compar vkey (key a) = 0) := by
  have alloc : ∀ a, (plug [] T).Has a → s.heap a ≠ none := fun a => (h.allocated a).mpr
  have whole : plug (locate compar key vkey T []).1 (locate compar key vkey T []).2 = T :=
    plug_locate T []
  have focus := h.layout
  rw [← whole] at focus
  have there := focus.enter
  refine ⟨_, _, whole.symm, rfl, between_locate order T [] h.sorted ⟨by simp, by simp⟩,
    walk_eq h.layout alloc h.keys enough, ?_, locate_found T []⟩
  refine get_cursor (fun a inside => (h.allocated a).mpr ?_) there.context
  rw [← whole]
  exact has_plug.mpr (Or.inr inside)

/-- No node with the key is left out by the search. -/
theorem Between.absent (between : Between compar key vkey ctx) {a : Addr} (inside : Has ctx a)
    : compar vkey (key a) ≠ 0 := by
  rcases (has_iff .right).mp inside with later | earlier
  · have := between.1 a later
    omega
  · have := between.2 a earlier
    omega

/-- The fields of a new node. -/
theorem fill_new {q : Addr} {contents : Node K} (allocated : s.heap q = some contents) (vkey : K)
    : (do
        let s ← s.putKey q vkey
        let s ← s.put none (.child q .right)
        let s ← s.put none (.child q .left)
        return (some q, s))
      = some (some q, { s with heap := Function.update s.heap q (some ⟨vkey, fun _ => none⟩) }) := by
  have empty : Function.update (Function.update contents.link .right none) .left none
      = (fun _ => none : Dir → Option Addr) := by
    funext d
    cases d <;> simp [Function.update]
  simp [State.putKey, State.put, allocated, empty]

section
variable (order : TotalOrder compar) (h : Holds compar s key (plug ctx .nil))
  (between : Between compar key vkey ctx) {q : Addr} (fresh : s.heap q = none)
include order h between fresh

theorem sorted_new
    : ((plug ctx (.node false q (fun _ => .nil))).traverse .right).Pairwise
        (fun a b => compar (Function.update key q vkey a) (Function.update key q vkey b) < 0) := by
  have outside : ¬ Has ctx q := by
    intro inside
    exact (h.allocated q).mpr (has_plug.mpr (Or.inr inside)) fresh
  have others {b : Addr} (inside : Has ctx b) : Function.update key q vkey b = key b := by
    refine Function.update_of_ne ?_ _ _
    rintro rfl
    exact outside inside
  have sorted := h.sorted
  rw [traverse_plug] at sorted ⊢
  simp only [CTree.traverse_nil, List.nil_append, CTree.traverse_node, List.cons_append] at sorted ⊢
  rw [List.pairwise_append] at sorted ⊢
  obtain ⟨earlier, later, apart⟩ := sorted
  have left {b : Addr} (inside : b ∈ (beyond Dir.right.other ctx).reverse) : Has ctx b :=
    ⟨_, List.mem_reverse.mp inside⟩
  have right {b : Addr} (inside : b ∈ beyond .right ctx) : Has ctx b := ⟨_, inside⟩
  refine ⟨earlier.imp_of_mem ?_, List.pairwise_cons.mpr ⟨?_, later.imp_of_mem ?_⟩, ?_⟩
  · intro a b inA inB less
    rwa [others (left inA), others (left inB)]
  · intro b inside
    rw [Function.update_self, others (right inside)]
    exact between.1 b inside
  · intro a b inA inB less
    rwa [others (right inA), others (right inB)]
  · intro a inA b inB
    rcases List.mem_cons.mp inB with rfl | inside
    · rw [Function.update_self, others (left inA)]
      exact (order.swap _ _).mpr (between.2 a (List.mem_reverse.mp inA))
    · rw [others (left inA), others (right inside)]
      exact apart a inA b inside

/-- A node that `malloc` gave is linked where the search has ended. -/
theorem insert_new (contents : Node K)
    : ∃ s', (do
          let s : State K := { s with heap := Function.update s.heap q (some contents) }
          let s ← s.put (some q) (cursor ctx)
          let s ← s.putKey q vkey
          let s ← s.put none (.child q .right)
          let s ← s.put none (.child q .left)
          return (some q, s)) = some (some q, s')
      ∧ Holds compar s' (Function.update key q vkey) (plug ctx (.node false q (fun _ => .nil))) := by
  have outside : ¬ Has ctx q := by
    intro inside
    exact (h.allocated q).mpr (has_plug.mpr (Or.inr inside)) fresh
  have member {a : Addr} : (plug ctx .nil).Has a ↔ Has ctx a := by
    rw [has_plug]
    simp
  let s₀ : State K := { s with heap := Function.update s.heap q (some contents) }
  have heap₀ {a : Addr} (ne : a ≠ q) : s₀.heap a = s.heap a := Function.update_of_ne ne _ _
  have apart {a : Addr} (inside : Has ctx a) : a ≠ q := by
    rintro rfl
    exact outside inside
  have alloc₀ : ∀ a, Has ctx a → s₀.heap a ≠ none := by
    intro a inside
    rw [heap₀ (apart inside)]
    exact (h.allocated a).mpr (member.mpr inside)
  obtain ⟨s₁, put, links, others, keys⟩ := put_cursor alloc₀ (some q)
  have allocated : s₁.heap q = some contents := by
    rw [others q outside]
    exact Function.update_self q _ _
  refine ⟨{ s₁ with heap := Function.update s₁.heap q (some ⟨vkey, fun _ => none⟩) }, ?_, ?_⟩
  · rw [← fill_new allocated vkey]
    exact congrArg (fun r => Option.bind r _) put
  have heap {a : Addr} (ne : a ≠ q)
      : Function.update s₁.heap q (some ⟨vkey, fun _ => none⟩) a = s₁.heap a :=
    Function.update_of_ne ne _ _
  have around : CtxAt s₀.links ctx none := by
    refine h.layout.enter.context.congr rfl fun a inside => ?_
    simp only [State.links, heap₀ (apart inside)]
  have distinct : (plug ctx (.node false q (fun _ => .nil))).Distinct := by
    refine (distinct_plug _ _).mpr ⟨?_, h.layout.enter.ctxDistinct, ?_⟩
    · rw [CTree.distinct_node .left]
      simp
    · intro a inside
      rcases (CTree.has_node .left).mp inside with rfl | child | child
      · exact outside
      · simp at child
      · simp at child
  refine ⟨?_, ?_, ?_, sorted_new order h between fresh⟩
  · refine At.whole ⟨?_, ?_, distinct⟩
    · have filled := around.put h.layout.enter.ctxDistinct (some q)
      rw [← links] at filled
      refine filled.congr rfl fun a inside => ?_
      simp only [State.links, heap (apart inside)]
    · intro d
      exact ⟨by simp [State.links], trivial⟩
  · intro a
    rw [has_plug, CTree.has_node .left]
    by_cases here : a = q
    · subst here
      simp
    · have same : s₁.heap a ≠ none ↔ s.heap a ≠ none := by
        rw [heap_ne_none keys, heap₀ here]
      simp only [heap here, same, h.allocated a, member, here, CTree.not_has_nil, false_or, or_self]
  · intro a node found
    by_cases here : a = q
    · subst here
      simp only [Function.update_self, Option.some.injEq] at found
      rw [← found, Function.update_self]
    · simp only [heap here] at found
      have known := keys a
      rw [found, heap₀ here, Option.map_some, eq_comm, Option.map_eq_some_iff] at known
      obtain ⟨old, there, same⟩ := known
      rw [Function.update_of_ne here, ← same, h.keys a old there]

end

/-- What `tsearch` does. -/
theorem tsearch_spec (order : TotalOrder compar) (h : Holds compar s key T) (vkey : K)
    (enough : (T.traverse .right).length < fuel) (malloc : Option (Addr × Node K))
    (fresh : ∀ q contents, malloc = some (q, contents) → s.heap q = none)
    : (∃ a, T.Has a ∧ compar vkey (key a) = 0
        ∧ tsearch compar fuel s vkey (some .top) malloc = some (some a, s))
      ∨ (∀ a, T.Has a → compar vkey (key a) ≠ 0)
        ∧ ((malloc = none ∧ tsearch compar fuel s vkey (some .top) malloc = some (none, s))
          ∨ ∃ q contents s' T', malloc = some (q, contents)
            ∧ tsearch compar fuel s vkey (some .top) malloc = some (some q, s')
            ∧ Holds compar s' (Function.update key q vkey) T'
            ∧ ∀ a, T'.Has a ↔ a = q ∨ T.Has a) := by
  obtain ⟨ctx, found, rfl, -, between, walks, read, ends⟩ := h.search order vkey enough
  rcases ends with rfl | ⟨red, a, kids, rfl, equal⟩
  · refine Or.inr ⟨fun a member => ?_, ?_⟩
    · rw [has_plug] at member
      exact between.absent (member.resolve_left (by simp))
    · cases malloc with
      | none =>
          refine Or.inl ⟨rfl, ?_⟩
          rw [tsearch]
          simp only [walks, Option.bind_eq_bind, Option.bind_some, read]
          rfl
      | some block =>
          obtain ⟨q, contents⟩ := block
          obtain ⟨s', run, holds⟩ := insert_new order h between (fresh q contents rfl) contents
          refine Or.inr ⟨q, contents, s', _, rfl, ?_, holds, fun a => ?_⟩
          · rw [tsearch, ← run]
            simp only [walks, Option.bind_eq_bind, Option.bind_some, read]
            rfl
          · rw [has_plug, has_plug, CTree.has_node .left]
            simp
  · refine Or.inl ⟨a, has_plug.mpr (Or.inl CTree.has_root), equal, ?_⟩
    rw [tsearch]
    simp only [walks, Option.bind_eq_bind, Option.bind_some, read]
    rfl

/-- What `tfind` does. -/
theorem tfind_spec (order : TotalOrder compar) (h : Holds compar s key T) (vkey : K)
    (enough : (T.traverse .right).length < fuel)
    : (∃ a, T.Has a ∧ compar vkey (key a) = 0 ∧ tfind compar fuel s vkey (some .top) = some (some a))
      ∨ (∀ a, T.Has a → compar vkey (key a) ≠ 0)
        ∧ tfind compar fuel s vkey (some .top) = some none := by
  obtain ⟨ctx, found, rfl, -, between, walks, read, ends⟩ := h.search order vkey enough
  rcases ends with rfl | ⟨red, a, kids, rfl, equal⟩
  · refine Or.inr ⟨fun a member => ?_, ?_⟩
    · rw [has_plug] at member
      exact between.absent (member.resolve_left (by simp))
    · rw [tfind]
      simp only [walks, Option.bind_eq_bind, Option.bind_some, read]
      rfl
  · refine Or.inl ⟨a, has_plug.mpr (Or.inl CTree.has_root), equal, ?_⟩
    rw [tfind]
    simp only [walks, Option.bind_eq_bind, Option.bind_some, read]
    rfl

end BSDLibC.Tsearch
