import BSDLibC.Tsearch.Tree

/-! Searching a sorted tree, and inserting a node where the search ends. -/

namespace BSDLibC.Tsearch
open BSDLibC.ColorTree BSDLibC.LinkedTree

variable {K : Type} {compar : K → K → Int}

/-- A total order. Keys that compare as equal need not be the same. -/
structure TotalOrder (compar : K → K → Int) : Prop where
  swap : ∀ a b, compar a b < 0 ↔ 0 < compar b a
  trans : ∀ a b c, compar a b ≤ 0 → compar b c ≤ 0 → compar a c ≤ 0

namespace TotalOrder

variable (order : TotalOrder compar) {a b c : K}
include order

theorem zero_swap (h : compar a b = 0) : compar b a = 0 := by
  have below := order.swap b a
  have above := order.swap a b
  omega

theorem lt_of_lt_of_le (h : compar a b < 0) (h' : compar b c ≤ 0) : compar a c < 0 := by
  have le := order.trans a b c (by omega) h'
  by_contra notLess
  have back := order.zero_swap (show compar a c = 0 by omega)
  have round := order.trans b c a h' (by omega)
  have less := (order.swap a b).mp h
  omega

theorem lt_of_le_of_lt (h : compar a b ≤ 0) (h' : compar b c < 0) : compar a c < 0 := by
  have le := order.trans a b c h (by omega)
  by_contra notLess
  have back := order.zero_swap (show compar a c = 0 by omega)
  have round := order.trans c a b (by omega) h
  have less := (order.swap b c).mp h'
  omega

theorem lt_trans (h : compar a b < 0) (h' : compar b c < 0) : compar a c < 0 :=
  order.lt_of_lt_of_le h (by omega)

end TotalOrder

-----------------------------------------------------------------------------------------
-- Trees in the heap
-----------------------------------------------------------------------------------------

/-- The links of all nodes. -/
def State.links (s : State K) : Links Addr :=
  ⟨s.root, fun a d => (s.heap a).bind (fun node => node.link d)⟩

theorem State.links_child {s : State K} {a : Addr} {node : Node K} (found : s.heap a = some node)
    : s.links.child a = node.link := by
  funext d
  simp [State.links, found]

/-- A sorted tree lies in the heap, and nothing else is allocated. -/
structure Holds (compar : K → K → Int) (s : State K) (key : Addr → K) (T : CTree Addr) : Prop where
  layout : At s.links [] T
  allocated : ∀ a, s.heap a ≠ none ↔ T.Has a
  keys : ∀ a node, s.heap a = some node → node.key = key a
  sorted : (T.traverse .right).Pairwise (fun a b => compar (key a) (key b) < 0)

variable {s s' : State K} {key : Addr → K} {T : CTree Addr} {ctx : Context Addr} {vkey : K}

theorem Holds.node (h : Holds compar s key T) {a : Addr} (member : T.Has a)
    : ∃ node, s.heap a = some node ∧ node.key = key a ∧ node.link = s.links.child a := by
  obtain ⟨node, found⟩ := Option.ne_none_iff_exists'.mp ((h.allocated a).mpr member)
  exact ⟨node, found, h.keys a node found, (State.links_child found).symm⟩

theorem get_child {a : Addr} (alloc : s.heap a ≠ none) (d : Dir)
    : s.get (.child a d) = some (s.links.child a d) := by
  obtain ⟨node, found⟩ := Option.ne_none_iff_exists'.mp alloc
  rw [State.get, found, State.links_child found]
  rfl

/-- A link is written in a node that is there. -/
theorem put_child {a : Addr} (alloc : s.heap a ≠ none) (d : Dir) (value : Option Addr)
    : ∃ s', s.put value (.child a d) = some s' ∧ s'.links = s.links.put value (.child a d)
      ∧ (∀ b, b ≠ a → s'.heap b = s.heap b)
      ∧ ∀ b, (s'.heap b).map Node.key = (s.heap b).map Node.key := by
  obtain ⟨node, found⟩ := Option.ne_none_iff_exists'.mp alloc
  refine ⟨_, by rw [State.put, found]; rfl, ?_, fun b other => Function.update_of_ne other _ _, fun b => ?_⟩
  · simp only [State.links, Links.put]
    congr 1
    funext b e
    by_cases here : b = a
    · subst here
      rw [Function.update_self, Function.update_self, found]
      rfl
    · rw [Function.update_of_ne here, Function.update_of_ne here]
  · by_cases here : b = a
    · subst here
      simp [found]
    · simp [here]

/-- Every link of the tree can be read. -/
theorem get_cursor (alloc : ∀ a, Has ctx a → s.heap a ≠ none) {hole : Option Addr}
    (at_hole : CtxAt s.links ctx hole)
    : s.get (cursor ctx) = some hole := by
  have links := at_hole.get
  cases ctx with
  | nil => exact congrArg some links
  | cons f up =>
      rw [cursor_cons, get_child (alloc f.root (has_cons.mpr (Or.inl rfl)))]
      exact congrArg some links

theorem put_cursor (alloc : ∀ a, Has ctx a → s.heap a ≠ none) (value : Option Addr)
    : ∃ s', s.put value (cursor ctx) = some s' ∧ s'.links = s.links.put value (cursor ctx)
      ∧ (∀ a, ¬ Has ctx a → s'.heap a = s.heap a)
      ∧ ∀ a, (s'.heap a).map Node.key = (s.heap a).map Node.key := by
  cases ctx with
  | nil => exact ⟨_, rfl, rfl, fun _ _ => rfl, fun _ => rfl⟩
  | cons f up =>
      obtain ⟨s', put, links, others, keys⟩ := put_child (alloc f.root (has_cons.mpr (Or.inl rfl))) f.dir value
      refine ⟨s', put, links, fun a outside => others a ?_, keys⟩
      rintro rfl
      exact outside (has_cons.mpr (Or.inl rfl))

/-- The nodes that are allocated have kept their keys. -/
theorem heap_ne_none (keys : ∀ a, (s'.heap a).map Node.key = (s.heap a).map Node.key) {a : Addr}
    : s'.heap a ≠ none ↔ s.heap a ≠ none := by
  rw [Ne, ← Option.map_eq_none_iff (f := Node.key), keys a, Option.map_eq_none_iff]

-----------------------------------------------------------------------------------------
-- The search
-----------------------------------------------------------------------------------------

/-- The side of a node on which a key is searched. -/
def side (r : Int) : Dir := if r < 0 then .left else .right

/-- Where the search for a key ends: the nodes that it has passed, and the tree there. -/
def locate (compar : K → K → Int) (key : Addr → K) (vkey : K)
    : CTree Addr → Context Addr → Context Addr × CTree Addr
  | .nil, ctx => (ctx, .nil)
  | .node red a kids, ctx =>
      if compar vkey (key a) = 0 then
        (ctx, .node red a kids)
      else
        let d := side (compar vkey (key a))
        locate compar key vkey (kids d) (⟨d, red, a, kids d.other⟩ :: ctx)

/-- The key lies between the nodes before a hole and those after it. -/
def Between (compar : K → K → Int) (key : Addr → K) (vkey : K) (ctx : Context Addr) : Prop :=
  (∀ b ∈ beyond .right ctx, compar vkey (key b) < 0)
  ∧ ∀ b ∈ beyond .left ctx, 0 < compar vkey (key b)

theorem plug_locate (T : CTree Addr) (ctx : Context Addr)
    : plug (locate compar key vkey T ctx).1 (locate compar key vkey T ctx).2 = plug ctx T := by
  induction T generalizing ctx with
  | nil => rfl
  | node red a kids ih =>
      rw [locate]
      split
      · rfl
      · simp only
        rw [ih, plug_child]

theorem locate_found (T : CTree Addr) (ctx : Context Addr)
    : (locate compar key vkey T ctx).2 = .nil
      ∨ ∃ red a kids, (locate compar key vkey T ctx).2 = .node red a kids
        ∧ compar vkey (key a) = 0 := by
  induction T generalizing ctx with
  | nil => exact Or.inl rfl
  | node red a kids ih =>
      rw [locate]
      split
      · next equal => exact Or.inr ⟨red, a, kids, rfl, equal⟩
      · exact ih _ _

theorem between_locate (order : TotalOrder compar) (T : CTree Addr) (ctx : Context Addr)
    (sorted : (T.traverse .right).Pairwise (fun a b => compar (key a) (key b) < 0))
    (between : Between compar key vkey ctx)
    : Between compar key vkey (locate compar key vkey T ctx).1 := by
  induction T generalizing ctx with
  | nil => exact between
  | node red a kids ih =>
      rw [locate]
      split
      · exact between
      · next differs =>
          rw [CTree.traverse_node] at sorted
          obtain ⟨lower, rest, apart⟩ := List.pairwise_append.mp sorted
          obtain ⟨above, upper⟩ := List.pairwise_cons.mp rest
          simp only [side]
          by_cases less : compar vkey (key a) < 0
          · rw [if_pos less]
            refine ih .left _ lower ⟨fun b member => ?_, fun b member => ?_⟩
            · have same := beyond_cons_other .left red a (kids .right) ctx
              rw [show Dir.other .left = .right from rfl] at same
              rw [show Dir.other .left = .right from rfl, same, List.mem_cons, List.mem_append] at member
              rcases member with rfl | inside | later
              · exact less
              · exact order.lt_trans less (above b inside)
              · exact between.1 b later
            · rw [beyond_cons_same] at member
              exact between.2 b member
          · rw [if_neg less]
            have more : compar (key a) vkey < 0 := (order.swap _ _).mpr (by omega)
            refine ih .right _ upper ⟨fun b member => ?_, fun b member => ?_⟩
            · rw [beyond_cons_same] at member
              exact between.1 b member
            · have same := beyond_cons_other .right red a (kids .left) ctx
              rw [show Dir.other .right = .left from rfl] at same
              rw [show Dir.other .right = .left from rfl, same, List.mem_cons, List.mem_append] at member
              rcases member with rfl | inside | later
              · exact (order.swap _ _).mp more
              · have before : b ∈ (kids .left).traverse .right := CTree.mem_traverse_other.mp inside
                exact (order.swap _ _).mp (order.lt_trans (apart b before a (by simp)) more)
              · exact between.2 b later

theorem has_locate {T : CTree Addr} {ctx : Context Addr} {a : Addr}
    : (locate compar key vkey T ctx).2.Has a ∨ Has (locate compar key vkey T ctx).1 a
      ↔ T.Has a ∨ Has ctx a := by
  rw [← has_plug, plug_locate, has_plug]

/-- A search with fuel for every level ends there. -/
theorem walk_eq (layout : At s.links ctx T) (alloc : ∀ a, (plug ctx T).Has a → s.heap a ≠ none)
    (keys : ∀ a node, s.heap a = some node → node.key = key a) {fuel : Nat}
    (enough : (T.traverse .right).length < fuel)
    : walk compar s vkey fuel (cursor ctx) = some (cursor (locate compar key vkey T ctx).1) := by
  induction T generalizing ctx fuel with
  | nil =>
      obtain _ | fuel := fuel
      · omega
      · have read := get_cursor (fun a inside => alloc a (has_plug.mpr (Or.inr inside))) layout.context
        rw [walk, read]
        rfl
  | node red a kids ih =>
      obtain _ | fuel := fuel
      · omega
      · have read := get_cursor (fun a inside => alloc a (has_plug.mpr (Or.inr inside))) layout.context
        obtain ⟨node, found⟩ := Option.ne_none_iff_exists'.mp
          (alloc a (has_plug.mpr (Or.inl CTree.has_root)))
        rw [walk, read, locate]
        simp only [link_node, Option.bind_eq_bind, Option.bind_some, found, keys a node found]
        by_cases equal : compar vkey (key a) = 0
        · rw [if_pos equal, if_pos equal]
          rfl
        · have shorter : ((kids (side (compar vkey (key a)))).traverse .right).length < fuel := by
            have sub := (CTree.traverse_child_sublist red a kids (side (compar vkey (key a))) .right)
            rw [CTree.traverse_node, List.length_append, List.length_cons] at enough
            cases side (compar vkey (key a)) with
            | left =>
                have : (kids Dir.right.other) = kids .left := rfl
                rw [this] at enough
                omega
            | right => omega
          have later := ih (side (compar vkey (key a)))
            (layout.down (side (compar vkey (key a)))) (by rwa [plug_child]) shorter
          rw [if_neg equal, if_neg equal]
          exact later

end BSDLibC.Tsearch
