import BSDLibC.Env.Buffers

/-! `__getenvslot` and the scrubbing below it. A slot that is returned is followed by a
terminated rest of the array, and none of the strings of the environment change.
-/

namespace BSDLibC.Env

variable {s s' : State} {es : List Str} {texts : List (List UInt8)} {name : List UInt8}
  {slots : List (Option Str)}

theorem slot_eq (h : s.slots = some slots) (i : Nat) : s.slot i = slots[i]? := by
  rw [State.slot, h, Option.bind_eq_bind, Option.bind_some]

/-- Writing a slot keeps the size of every array. -/
theorem setSlot_eq {i : Nat} (h : s.slots = some slots) (inside : i < slots.length) (x : Option Str)
    : ∃ vectors, s.setSlot i x = some { s with vectors := vectors }
      ∧ State.slots { s with vectors := vectors } = some (slots.set i x)
      ∧ ∀ block, (vectors block).map List.length = (s.vectors block).map List.length := by
  obtain ⟨v, environ, h⟩ := Option.bind_eq_some_iff.mp h
  obtain ⟨vector, block, h⟩ := Option.bind_eq_some_iff.mp h
  obtain rfl := Option.some.inj h
  rw [List.length_drop] at inside
  refine ⟨Function.update s.vectors v.block (some (vector.set (v.offset + i) x)), ?_, ?_, ?_⟩
  · have fits : v.offset + i < vector.length := by omega
    simp [State.setSlot, environ, block, fits]
  · simp [State.slots, environ, List.drop_set]
  · intro other
    by_cases same : other = v.block
    · subst same
      simp [block]
    · simp [same]

theorem Arrays.sizes {vectors : Nat → Option (List (Option Str))} (h : Arrays s)
    (sizes : ∀ block, (vectors block).map List.length = (s.vectors block).map List.length)
    : Arrays { s with vectors := vectors } where
  size := by
    rcases h.size with none | ⟨block, allocated, size⟩
    · exact Or.inl none
    · exact Or.inr ⟨block, allocated, (sizes block).trans size⟩
  inside := h.inside

-----------------------------------------------------------------------------------------
-- Searching
-----------------------------------------------------------------------------------------

/-- `isVariable` looks at the part of the name that counts. -/
theorem isVariable_eq {text name : List UInt8} {lName : Nat} (short : lName ≤ name.length)
    : isVariable text name lName = Sets (name.take lName) text := by
  simp [Sets, isVariable, List.take_take, short]

/-- The search ends at the first string of the name or at the terminator. -/
theorem search_eq {lName : Nat} (short : lName ≤ name.length) (rest : List (Option Str))
    (reads : es.map s.cstr = texts.map some)
    : getenvslot.search s name lName (es.map some ++ none :: rest)
      = some (position texts (name.take lName),
          decide (position texts (name.take lName) < texts.length)) := by
  induction es generalizing texts with
  | nil =>
      obtain rfl : texts = [] := by simpa using reads.symm
      rfl
  | cons e later ih =>
      cases texts with
      | nil => cases reads
      | cons text others =>
          obtain ⟨first, reads⟩ := List.cons.inj reads
          rw [List.map_cons, List.cons_append, getenvslot.search, first, Option.bind_eq_bind,
            Option.bind_some, isVariable_eq short, ih reads, Option.bind_eq_bind, Option.bind_some]
          cases sets : Sets (name.take lName) text with
          | true => simp [position, List.findIdx_cons, sets]
          | false => simp [position, List.findIdx_cons, sets]

-----------------------------------------------------------------------------------------
-- Scrubbing
-----------------------------------------------------------------------------------------

/-- An entry that keeps a node. -/
def Uses (es : List Str) (node : EnvNode) : Prop := ∃ e ∈ es, node.block = e.block ∧ e.offset = 0

instance (es : List Str) (node : EnvNode) : Decidable (Uses es node) :=
  inferInstanceAs (Decidable (∃ e ∈ es, _))

def touch (marker : UInt8) (es : List Str) (node : EnvNode) : EnvNode :=
  if Uses es node then { node with marker := marker } else node

theorem touch_cons (marker : UInt8) (e : Str) (later : List Str) (node : EnvNode)
    : touch marker later
        (if node.block = e.block ∧ e.offset = 0 then { node with marker := marker } else node)
      = touch marker (e :: later) node := by
  by_cases first : node.block = e.block ∧ e.offset = 0
  · simp [touch, Uses, first]
  · rw [if_neg first, touch, touch]
    refine if_congr ?_ rfl rfl
    simp only [Uses, List.mem_cons, exists_eq_or_imp, first, false_or]

theorem mark_eq (marker : UInt8) (tree : List EnvNode) (es : List Str) (rest : List (Option Str))
    : scrubenv.mark marker tree (es.map some ++ none :: rest)
      = some (tree.map (touch marker es), es.length) := by
  induction es generalizing tree with
  | nil =>
      have same : touch marker [] = id := by
        funext node
        simp [touch, Uses]
      rw [same, List.map_id]
      rfl
  | cons e later ih =>
      have both (tree : List EnvNode) : (tree.map (fun node =>
            if node.block = e.block ∧ e.offset = 0 then { node with marker := marker } else node)).map
              (touch marker later)
          = tree.map (touch marker (e :: later)) := by
        rw [List.map_map]
        exact List.map_congr_left fun node _ => touch_cons marker e later node
      rw [List.map_cons, List.cons_append, scrubenv.mark, ih, both]
      rfl

theorem touch_block (marker : UInt8) (es : List Str) (node : EnvNode)
    : (touch marker es node).block = node.block ∧ (touch marker es node).length = node.length := by
  unfold touch
  split <;> exact ⟨rfl, rfl⟩

/-- Removing nodes one after the other. -/
theorem foldl_removeNode (nodes : List EnvNode) (s : State)
    : nodes.foldl State.removeNode s
      = { s with
          envTree := s.envTree.filter (fun other => other.block ∉ nodes.map EnvNode.block)
          chars := fun block => if block ∈ nodes.map EnvNode.block then none else s.chars block } := by
  induction nodes generalizing s with
  | nil => simp
  | cons node later ih =>
      rw [List.foldl_cons, ih]
      simp only [State.removeNode, List.filter_filter, State.mk.injEq, true_and, and_true]
      refine ⟨?_, ?_⟩
      · funext block
        by_cases same : block = node.block
        · subst same
          simp
        · simp [same]
      · refine List.filter_congr ?_
        intro other _
        simp only [List.map_cons, List.mem_cons, not_or, Bool.decide_and]
        exact Bool.and_comm _ _

/-- What a scrub leaves: the strings of the environment and of the application stay, and no
buffer is added.
-/
structure Keeps (es : List Str) (s s' : State) : Prop where
  entries : ∀ e ∈ es, s'.chars e.block = s.chars e.block
  foreign : ∀ block, ¬ s.Owns block → s'.chars block = s.chars block
  owns : ∀ block, s'.Owns block → s.Owns block

theorem Keeps.refl (es : List Str) (s : State) : Keeps es s s :=
  ⟨fun _ _ => rfl, fun _ _ => rfl, fun _ owned => owned⟩

theorem Keeps.trans {s'' : State} (h : Keeps es s s') (h' : Keeps es s' s'') : Keeps es s s'' where
  entries e member := (h'.entries e member).trans (h.entries e member)
  foreign block free :=
    (h'.foreign block fun owned => free (h.owns block owned)).trans (h.foreign block free)
  owns block owned := h.owns block (h'.owns block owned)

theorem Keeps.holds (h : Keeps es s s') (holds : Holds s es texts) : Holds s' es texts :=
  holds.mono h.entries fun _ _ => h.owns _

/-- The state after the first two loops of `__scrubenv`. -/
def swept (s : State) (es : List Str) : State :=
  ((s.envTree.map (touch (nextMarker s.marker) es)).filter
      (fun node => node.marker ≠ nextMarker s.marker)).foldl State.removeNode
    { s with marker := nextMarker s.marker, envTree := s.envTree.map (touch (nextMarker s.marker) es) }

/-- The buffers that are swept are not used. -/
theorem unused_of_swept {marker : UInt8} {block : Nat}
    (member : block ∈ ((s.envTree.map (touch marker es)).filter
      (fun node => node.marker ≠ marker)).map EnvNode.block)
    : ∃ node ∈ s.envTree, node.block = block ∧ ¬ Uses es node := by
  obtain ⟨touched, filtered, rfl⟩ := List.mem_map.mp member
  obtain ⟨mapped, unmarked⟩ := List.mem_filter.mp filtered
  obtain ⟨node, inTree, rfl⟩ := List.mem_map.mp mapped
  refine ⟨node, inTree, (touch_block marker es node).1.symm, ?_⟩
  intro uses
  simp [touch, uses] at unmarked

theorem swept_keeps (holds : Holds s es texts) : Keeps es s (swept s es) := by
  refine ⟨?_, ?_, ?_⟩
  · intro e member
    rw [swept, foldl_removeNode]
    refine if_neg ?_
    intro removed
    obtain ⟨node, inTree, same, unused⟩ := unused_of_swept removed
    exact unused ⟨e, member, same, holds.whole e member ⟨node, inTree, same⟩⟩
  · intro block free
    rw [swept, foldl_removeNode]
    refine if_neg ?_
    intro removed
    obtain ⟨node, inTree, same, -⟩ := unused_of_swept removed
    exact free ⟨node, inTree, same⟩
  · rintro block ⟨node, member, rfl⟩
    rw [swept, foldl_removeNode] at member
    obtain ⟨node, inTree, rfl⟩ := List.mem_map.mp (List.mem_filter.mp member).1
    exact ⟨node, inTree, (touch_block _ es node).1.symm⟩

theorem swept_buffers (h : Buffers s) : Buffers (swept s es) := by
  rw [swept, foldl_removeNode]
  refine ⟨?_, ?_⟩
  · refine List.Nodup.sublist (List.filter_sublist.map _) ?_
    rw [List.map_map]
    refine (List.map_congr_left fun node _ => ?_).symm ▸ h.distinct
    exact (touch_block _ es node).1
  · intro node member
    obtain ⟨mapped, kept⟩ := List.mem_filter.mp member
    obtain ⟨node, inTree, rfl⟩ := List.mem_map.mp mapped
    have same := touch_block (nextMarker s.marker) es node
    rw [same.1] at kept
    simp only [same.1, same.2]
    rw [if_neg (by simpa using kept)]
    exact h.nodes node inTree

theorem swept_sameArrays (s : State) (es : List Str) : SameArrays s (swept s es) := by
  rw [swept, foldl_removeNode]
  exact ⟨rfl, rfl, rfl, rfl⟩

/-- `environ` and its block behind the entries that it shows. -/
theorem slots_split (h : s.slots = some slots)
    : ∃ v vector, s.environ = some v ∧ s.vectors v.block = some vector
      ∧ slots = vector.drop v.offset := by
  obtain ⟨v, environ, h⟩ := Option.bind_eq_some_iff.mp h
  obtain ⟨vector, block, h⟩ := Option.bind_eq_some_iff.mp h
  exact ⟨v, vector, environ, block, (Option.some.inj h).symm⟩

theorem Arrays.free_foreign (h : Arrays s) (foreign : s.environ ≠ s.allocatedEnviron)
    : ∃ s', s.dropAllocated = some s'
      ∧ s'.chars = s.chars ∧ s'.envTree = s.envTree ∧ s'.environ = s.environ
      ∧ s'.slots = s.slots ∧ s'.allocatedEnviron = none ∧ s'.allocatedEnvironSize = 0 := by
  rcases h.size with ⟨none, -⟩ | ⟨block, allocated, size⟩
  · refine ⟨{ s with allocatedEnviron := Option.none, allocatedEnvironSize := 0 }, ?_, rfl, rfl, rfl,
      rfl, rfl, rfl⟩
    rw [State.dropAllocated, none]
    rfl
  · obtain ⟨vector, live, -⟩ := Option.map_eq_some_iff.mp size
    refine ⟨{ s with
        vectors := Function.update s.vectors block none
        allocatedEnviron := none, allocatedEnvironSize := 0 }, ?_, rfl, rfl, rfl, ?_, rfl, rfl⟩
    · simp [State.dropAllocated, State.freeVector, allocated, live]
    cases environ : s.environ with
    | none => simp [State.slots, environ]
    | some v =>
        have apart : v.block ≠ block := by
          intro same
          exact foreign (by rw [environ, allocated, h.inside v ⟨block, 0⟩ environ allocated same])
        simp [State.slots, environ, apart]

theorem scrubenv_eq {rest : List (Option Str)} (h : s.slots = some (es.map some ++ none :: rest))
    : scrubenv s = scrubenv.array (swept s es) es.length := by
  simp [scrubenv, h, mark_eq, swept]

/-- With an array of the application, a scrub frees the one of libc. -/
theorem scrubenv_foreign {rest : List (Option Str)} (holds : Holds s es texts) (buffers : Buffers s)
    (arrays : Arrays s) (h : s.slots = some (es.map some ++ none :: rest))
    (foreign : s.environ ≠ s.allocatedEnviron)
    : ∃ s', scrubenv s = some s' ∧ Keeps es s s' ∧ Buffers s' ∧ s'.environ = s.environ
      ∧ s'.slots = s.slots ∧ s'.allocatedEnviron = none ∧ s'.allocatedEnvironSize = 0 := by
  have same := swept_sameArrays s es
  obtain ⟨s', run, chars, tree, environ, slots, allocated, size⟩ :=
    (same.arrays arrays).free_foreign (by rwa [same.environ, same.allocatedEnviron])
  refine ⟨s', ?_, ?_, ?_, environ.trans same.environ, slots.trans same.slots, allocated, size⟩
  · rw [scrubenv_eq h, scrubenv.array, if_neg (by rwa [same.environ, same.allocatedEnviron]), run]
  · have keeps := swept_keeps holds
    refine ⟨?_, ?_, ?_⟩
    · rw [chars]
      exact keeps.entries
    · rw [chars]
      exact keeps.foreign
    · intro block owned
      rw [State.Owns, tree] at owned
      exact keeps.owns block owned
  · have kept : Buffers (swept s es) := swept_buffers buffers
    refine ⟨?_, ?_⟩
    · rw [tree]
      exact kept.distinct
    · rw [tree, chars]
      exact kept.nodes

/-- With the array of libc, a scrub clears what lies behind the terminator. -/
theorem scrubenv_own {rest : List (Option Str)} (holds : Holds s es texts) (buffers : Buffers s)
    (arrays : Arrays s) (h : s.slots = some (es.map some ++ none :: rest))
    (own : s.environ = s.allocatedEnviron)
    : ∃ s', scrubenv s = some s' ∧ Keeps es s s' ∧ Buffers s' ∧ Arrays s'
      ∧ s'.environ = s.environ
      ∧ s'.slots = some (es.map some ++ none :: List.replicate rest.length none) := by
  have same := swept_sameArrays s es
  obtain ⟨v, vector, environ, block, shown⟩ := slots_split h
  obtain ⟨start, size⟩ : v.offset = 0 ∧ vector.length = s.allocatedEnvironSize := by
    rcases arrays.size with ⟨none, -⟩ | ⟨own_block, allocated, size⟩
    · rw [environ, none] at own
      cases own
    · rw [environ, allocated, Option.some.injEq] at own
      subst own
      simpa [block] using size
  rw [start, List.drop_zero] at shown
  subst shown
  have length : s.allocatedEnvironSize = es.length + 1 + rest.length := by
    rw [← size]
    simp
    omega
  have cleared : (es.map some ++ none :: rest).take (es.length + 1)
        ++ List.replicate (s.allocatedEnvironSize - es.length - 1) none
        ++ (es.map some ++ none :: rest).drop s.allocatedEnvironSize
      = es.map some ++ none :: List.replicate rest.length none := by
    rw [List.append_cons, List.take_left' (by simp), List.drop_eq_nil_of_le (by simp; omega),
      length, List.append_nil, List.append_assoc]
    congr 3
    rw [Nat.add_assoc, Nat.add_sub_cancel_left, Nat.add_sub_cancel_left]
    rfl
  refine ⟨{ swept s es with
      vectors := Function.update (swept s es).vectors v.block
        (some (es.map some ++ none :: List.replicate rest.length none)) }, ?_, ?_, ?_, ?_, ?_, ?_⟩
  · have bounds : es.length + 1 ≤ s.allocatedEnvironSize
        ∧ s.allocatedEnvironSize ≤ (es.map some ++ none :: rest).length := ⟨by omega, by omega⟩
    rw [scrubenv_eq h, scrubenv.array, if_pos (by rwa [same.environ, same.allocatedEnviron])]
    simp only [same.environ, environ, same.vectors, same.allocatedEnvironSize, Option.bind_eq_bind,
      Option.bind_some, block, start, Nat.zero_add, if_pos bounds, cleared]
    rfl
  · have keeps := swept_keeps holds
    exact ⟨keeps.entries, keeps.foreign, keeps.owns⟩
  · have kept : Buffers (swept s es) := swept_buffers buffers
    exact ⟨kept.distinct, kept.nodes⟩
  · have kept := same.arrays arrays
    refine kept.sizes ?_
    intro other
    by_cases equal : other = v.block
    · subst equal
      rw [same.vectors, block]
      simp
    · rw [Function.update_of_ne equal]
  · exact same.environ
  · have shows : (swept s es).environ = some v := same.environ.trans environ
    simp [State.slots, shows, start]

-----------------------------------------------------------------------------------------
-- Growing
-----------------------------------------------------------------------------------------

theorem lt_newSize {requiredSize fuel newSize : Nat} (enough : requiredSize < newSize * 2 ^ fuel)
    : requiredSize < getenvslot.newSize requiredSize fuel newSize := by
  induction fuel generalizing newSize with
  | zero => simpa [getenvslot.newSize] using enough
  | succ fuel ih =>
      rw [getenvslot.newSize]
      split
      · refine ih ?_
        rwa [Nat.shiftLeft_eq, Nat.pow_one, Nat.mul_assoc, ← Nat.pow_succ']
      · omega

/-- The new array has room for a new entry and the terminator behind it. -/
theorem room_newSize (requiredSize : Nat)
    : requiredSize < getenvslot.newSize requiredSize requiredSize envArraySizeMin := by
  refine lt_newSize ?_
  have exponential := Nat.lt_two_pow_self (n := requiredSize)
  rw [envArraySizeMin]
  omega

/-- The parts of the state that concern the buffers. -/
structure SameBuffers (s s' : State) : Prop where
  chars : s'.chars = s.chars
  envTree : s'.envTree = s.envTree

theorem SameBuffers.keeps (h : SameBuffers s s') (es : List Str) : Keeps es s s' := by
  refine ⟨fun _ _ => by rw [h.chars], fun _ _ => by rw [h.chars], ?_⟩
  intro block owned
  rwa [State.Owns, h.envTree] at owned

theorem SameBuffers.buffers (h : SameBuffers s s') (buffers : Buffers s) : Buffers s' := by
  refine ⟨?_, ?_⟩
  · rw [h.envTree]
    exact buffers.distinct
  · rw [h.envTree, h.chars]
    exact buffers.nodes

/-- A slot behind the entries, followed by a terminator. -/
def State.Room (s : State) (es : List Str) : Prop :=
  ∃ rest, s.slots = some (es.map some ++ none :: none :: rest)

theorem State.Room.lists (h : s.Room es) : s.Lists es := by
  obtain ⟨rest, slots⟩ := h
  exact Or.inr ⟨none :: rest, slots⟩

theorem environ_of_slots (h : s.slots = some slots) : s.environ ≠ none := by
  obtain ⟨v, -, environ, -, -⟩ := slots_split h
  simp [environ]

theorem State.Room.environ (h : s.Room es) : s.environ ≠ none := by
  obtain ⟨rest, slots⟩ := h
  exact environ_of_slots slots

theorem grown_slots {newSize : Nat} (big : es.length + 1 < newSize) {kept : List (Option Str)}
    (entries : kept.take es.length = es.map some)
    : ∃ rest, kept.take es.length ++ List.replicate (newSize - es.length) none
      = es.map some ++ none :: none :: rest := by
  obtain ⟨more, rfl⟩ : ∃ more, newSize = es.length + (more + 2) :=
    ⟨newSize - es.length - 2, by omega⟩
  rw [entries, Nat.add_sub_cancel_left]
  exact ⟨List.replicate more none, rfl⟩

/-- `reallocarr` fails, or moves what the old array held to a block of the new size. -/
theorem reallocarr_cases {old : Option Vec} {kept : List (Option Str)} (number : Nat)
    (supply : Option Nat)
    (source : (old = none ∧ kept = []) ∨ ∃ block, old = some ⟨block, 0⟩ ∧ s.vectors block = some kept)
    : s.reallocarr old number supply = some none
      ∨ ∃ block vectors,
        s.reallocarr old number supply = some (some ({ s with vectors := vectors }, ⟨block, 0⟩))
        ∧ vectors block = some (kept.take number ++ List.replicate (number - kept.length) none)
        ∧ (old = none → ∀ other, (s.vectors other).isSome → vectors other = s.vectors other) := by
  rcases source with ⟨rfl, rfl⟩ | ⟨oldBlock, rfl, live⟩
  · cases supply with
    | none => exact Or.inl rfl
    | some block =>
        cases free : s.vectors block with
        | some used => exact Or.inl (by simp [State.reallocarr, free])
        | none =>
            refine Or.inr ⟨block,
              Function.update s.vectors block (some (List.replicate number none)), ?_, ?_, ?_⟩
            · simp [State.reallocarr, free]
            · simp
            · intro _ other live
              refine Function.update_of_ne ?_ _ _
              rintro rfl
              simp [free] at live
  · cases supply with
    | none => exact Or.inl (by simp [State.reallocarr, live])
    | some block =>
        by_cases free : oldBlock = block ∨ s.vectors block = none
        · refine Or.inr ⟨block, Function.update (Function.update s.vectors oldBlock none) block
            (some (kept.take number ++ List.replicate (number - kept.length) none)), ?_, ?_, ?_⟩
          · simp [State.reallocarr, live, free]
          · exact Function.update_self _ _ _
          · intro none
            cases none
        · exact Or.inl (by simp [State.reallocarr, live, free])

theorem install_spec {newSize : Nat} {kept : List (Option Str)} (s : State) (block : Nat)
    (big : es.length + 1 < newSize) (entries : kept.take es.length = es.map some)
    : (getenvslot.install s ⟨block, 0⟩ kept es.length newSize).Room es
      ∧ Arrays (getenvslot.install s ⟨block, 0⟩ kept es.length newSize)
      ∧ SameBuffers s (getenvslot.install s ⟨block, 0⟩ kept es.length newSize) := by
  obtain ⟨rest, shown⟩ := grown_slots big entries
  refine ⟨⟨rest, ?_⟩, ⟨Or.inr ⟨block, rfl, ?_⟩, ?_⟩, ⟨rfl, rfl⟩⟩
  · simp [getenvslot.install, State.slots, shown]
  · have length : (kept.take es.length).length = es.length := by rw [entries, List.length_map]
    simp only [getenvslot.install, Function.update_self, Option.map_some, List.length_append, length,
      List.length_replicate, Option.some.injEq]
    omega
  · intro v a environ allocated _
    exact Option.some.inj (environ.symm.trans allocated)

theorem grow_spec (lists : s.Lists es) (arrays : Arrays s)
    (own : s.environ = s.allocatedEnviron ∨ s.allocatedEnviron = none) (supply : Option Nat)
    : ∃ s' slot, getenvslot.grow s es.length supply = some (s', slot) ∧ SameBuffers s s'
      ∧ ((slot = none ∧ s' = s) ∨ (slot = some es.length ∧ s'.Room es ∧ Arrays s')) := by
  have big := room_newSize (es.length + 1)
  by_cases same : s.environ = s.allocatedEnviron
  · -- The array of libc is moved, or the first one is allocated.
    obtain ⟨kept, source, entries⟩ : ∃ kept,
        ((s.environ = none ∧ kept = [])
          ∨ ∃ block, s.environ = some ⟨block, 0⟩ ∧ s.vectors block = some kept)
        ∧ kept.take es.length = es.map some := by
      rcases lists with ⟨null, rfl⟩ | ⟨rest, slots⟩
      · exact ⟨[], Or.inl ⟨null, rfl⟩, rfl⟩
      · obtain ⟨v, vector, environ, block, shown⟩ := slots_split slots
        rcases arrays.size with ⟨none, -⟩ | ⟨own_block, allocated, -⟩
        · rw [environ, none] at same
          cases same
        · rw [environ, allocated, Option.some.injEq] at same
          subst same
          refine ⟨vector, Or.inr ⟨own_block, environ, block⟩, ?_⟩
          rw [List.drop_zero] at shown
          rw [← shown, List.take_left' (by simp)]
    rcases reallocarr_cases (getenvslot.newSize (es.length + 1) (es.length + 1) envArraySizeMin)
      supply source with failed | ⟨block, vectors, moved, contents, -⟩
    · refine ⟨s, none, ?_, ⟨rfl, rfl⟩, Or.inl ⟨rfl, rfl⟩⟩
      simp only [getenvslot.grow, decide_eq_true same, if_true, Option.bind_eq_bind, Option.bind_some,
        failed]
      rfl
    · have moved_entries : (kept.take (getenvslot.newSize (es.length + 1) (es.length + 1)
            envArraySizeMin) ++ List.replicate (getenvslot.newSize (es.length + 1) (es.length + 1)
            envArraySizeMin - kept.length) none).take es.length = es.map some := by
        have length := congrArg List.length entries
        simp only [List.length_take, List.length_map] at length
        rw [List.take_append_of_le_length (by rw [List.length_take]; omega), List.take_take,
          Nat.min_eq_left (by omega), entries]
      obtain ⟨room, arrays', buffers⟩ := install_spec { s with vectors := vectors } block big
        moved_entries
      refine ⟨_, some es.length, ?_, ⟨buffers.chars, buffers.envTree⟩, Or.inr ⟨rfl, room, arrays'⟩⟩
      simp only [getenvslot.grow, decide_eq_true same, if_true, Option.bind_eq_bind, Option.bind_some,
        moved, contents, Bool.true_or]
      rfl
  · -- The array of the application is copied.
    have allocated := own.resolve_left same
    obtain ⟨rest, slots⟩ : ∃ rest, s.slots = some (es.map some ++ none :: rest) := by
      rcases lists with ⟨null, -⟩ | shown
      · exact absurd (null.trans allocated.symm) same
      · exact shown
    obtain ⟨v, vector, environ, live, shown⟩ := slots_split slots
    have dropped : s.dropAllocated = some s := by
      rcases arrays.size with ⟨-, size⟩ | ⟨block, some, -⟩
      · have free : s.freeVector s.allocatedEnviron = some s := by
          rw [allocated]
          rfl
        rw [State.dropAllocated, free, Option.bind_eq_bind, Option.bind_some, ← allocated, ← size]
        rfl
      · rw [allocated] at some
        cases some
    have none_kept : (none : Option Vec) = none ∧ ([] : List (Option Str)) = [] := ⟨rfl, rfl⟩
    rcases reallocarr_cases (s := s)
      (getenvslot.newSize (es.length + 1) (es.length + 1) envArraySizeMin) supply
      (Or.inl none_kept) with failed | ⟨block, vectors, moved, contents, others⟩
    · refine ⟨s, none, ?_, ⟨rfl, rfl⟩, Or.inl ⟨rfl, rfl⟩⟩
      simp only [getenvslot.grow, decide_eq_false same, Bool.false_eq_true, if_false,
        Option.bind_eq_bind, Option.bind_some, dropped, failed]
      rfl
    · have kept : State.slots { s with vectors := vectors } = s.slots := by
        simp only [State.slots, environ, Option.bind_eq_bind, Option.bind_some,
          others rfl v.block (by rw [live]; rfl)]
      -- Without entries `memcpy` does not look at the old array.
      obtain ⟨source, taken, entries⟩ : ∃ source,
          (if es.length = 0 then vectors block else State.slots { s with vectors := vectors })
            = some source
          ∧ source.take es.length = es.map some := by
        by_cases empty : es.length = 0
        · rw [if_pos empty, contents]
          obtain rfl := List.length_eq_zero_iff.mp empty
          exact ⟨_, rfl, rfl⟩
        · rw [if_neg empty, kept, slots]
          exact ⟨_, rfl, List.take_left' (by simp)⟩
      obtain ⟨room, arrays', buffers⟩ := install_spec { s with vectors := vectors } block big entries
      refine ⟨_, some es.length, ?_, ⟨buffers.chars, buffers.envTree⟩, Or.inr ⟨rfl, room, arrays'⟩⟩
      simp only [getenvslot.grow, decide_eq_false same, Bool.false_eq_true, if_false,
        Option.bind_eq_bind, Option.bind_some, dropped, moved, Bool.false_or, decide_eq_true_eq]
      by_cases empty : es.length = 0
      · rw [if_pos empty] at taken ⊢
        rw [taken]
        rfl
      · rw [if_neg empty] at taken ⊢
        rw [taken]
        rfl

-----------------------------------------------------------------------------------------
-- Slots
-----------------------------------------------------------------------------------------

/-- The slot of the first string of the name. -/
theorem Ok.slot_position (ok : Ok s es texts) (inside : position texts name < texts.length)
    : ∃ slots e, s.slots = some slots ∧ slots[position texts name]? = some (some e)
      ∧ es[position texts name]? = some e ∧ position texts name + 1 < slots.length := by
  have inside' : position texts name < es.length := ok.holds.length_eq ▸ inside
  rcases ok.lists with ⟨-, rfl⟩ | ⟨rest, slots⟩
  · simp at inside'
  · refine ⟨_, es[position texts name], slots, ?_, ?_, ?_⟩
    · simp [List.getElem?_append_left, inside']
    · simp [inside']
    · simp only [List.length_append, List.length_map, List.length_cons]
      omega

theorem find_eq {lName : Nat} (ok : Ok s es texts) (short : lName ≤ name.length)
    : getenvslot.find s name lName
      = some (position texts (name.take lName),
          decide (position texts (name.take lName) < texts.length)) := by
  rcases ok.lists with ⟨null, rfl⟩ | ⟨rest, slots⟩
  · obtain rfl : texts = [] := by simpa using ok.holds.reads.symm
    rw [getenvslot.find, null]
    rfl
  · obtain ⟨v, vector, environ, -, -⟩ := slots_split slots
    rw [getenvslot.find, environ, slots]
    exact search_eq short rest ok.holds.reads

theorem reuse_spec (ok : Ok s es texts) (own : s.environ = s.allocatedEnviron)
    (room : es.length + 1 < s.allocatedEnvironSize)
    : ∃ s', getenvslot.reuse s es.length = some (s', some es.length) ∧ Ok s' es texts
      ∧ Keeps es s s' ∧ s'.Room es := by
  rcases ok.arrays.size with ⟨-, size⟩ | ⟨block, allocated, size⟩
  · omega
  obtain ⟨vector, live, length⟩ := Option.map_eq_some_iff.mp size
  have slots : s.slots = some vector := by simp [State.slots, own, allocated, live]
  obtain ⟨rest, slots'⟩ : ∃ rest, s.slots = some (es.map some ++ none :: rest) := by
    rcases ok.lists with ⟨null, -⟩ | shown
    · rw [own, allocated] at null
      cases null
    · exact shown
  obtain rfl := Option.some.inj (slots.symm.trans slots')
  -- The size leaves at least one slot behind the terminator.
  obtain ⟨next, later, rfl⟩ : ∃ next later, rest = next :: later := by
    cases rest with
    | nil =>
        simp at length
        omega
    | cons next later => exact ⟨next, later, rfl⟩
  have behind : s.slot (es.length + 1) = some next := by
    rw [slot_eq slots, List.getElem?_append_right (by simp)]
    simp
  cases next with
  | none =>
      refine ⟨s, ?_, ok, Keeps.refl es s, ⟨later, slots⟩⟩
      simp [getenvslot.reuse, behind]
  | some stale =>
      obtain ⟨s', run, keeps, buffers, arrays, -, shown⟩ :=
        scrubenv_own ok.holds ok.buffers ok.arrays slots own
      have room' : s'.Room es := ⟨List.replicate later.length none, shown⟩
      refine ⟨s', ?_, ⟨room'.lists, keeps.holds ok.holds, buffers, arrays⟩, keeps, room'⟩
      simp [getenvslot.reuse, behind, run]

theorem create_spec (ok : Ok s es texts)
    (own : s.environ = s.allocatedEnviron ∨ s.allocatedEnviron = none) (supply : Option Nat)
    : ∃ s' slot, getenvslot.create s es.length supply = some (s', slot) ∧ Ok s' es texts
      ∧ Keeps es s s' ∧ ((slot = none ∧ s' = s) ∨ (slot = some es.length ∧ s'.Room es)) := by
  rw [getenvslot.create]
  split
  · rename_i free
    obtain ⟨s', run, ok', keeps, room⟩ := reuse_spec ok free.1 free.2
    exact ⟨s', _, run, ok', keeps, Or.inr ⟨rfl, room⟩⟩
  · obtain ⟨s', slot, run, buffers, failed | ⟨made, room, arrays⟩⟩ :=
      grow_spec ok.lists ok.arrays own supply
    · obtain ⟨rfl, rfl⟩ := failed
      exact ⟨s', none, run, ok, Keeps.refl es s', Or.inl ⟨rfl, rfl⟩⟩
    · have keeps := buffers.keeps es
      exact ⟨s', slot, run,
        ⟨room.lists, keeps.holds ok.holds, buffers.buffers ok.buffers, arrays⟩, keeps,
        Or.inr ⟨made, room⟩⟩

/-- What `__getenvslot` does: it finds the first string of the name, or it makes room for a new
one, or it fails. The environment stays as it is.
-/
theorem getenvslot_spec {lName : Nat} (ok : Ok s es texts) (short : lName ≤ name.length)
    (allocate : Bool) (supply : Option Nat)
    (stray : allocate = true → s.environ = none → s.allocatedEnviron = none)
    : ∃ s' slot, getenvslot s name lName allocate supply = some (s', slot) ∧ Ok s' es texts
      ∧ Keeps es s s' ∧ (s.environ ≠ none → s'.environ ≠ none)
      ∧ ((slot = some (position texts (name.take lName)) ∧ s' = s
            ∧ position texts (name.take lName) < texts.length)
        ∨ (slot = none ∧ position texts (name.take lName) = texts.length)
        ∨ (slot = some es.length ∧ s'.Room es ∧ position texts (name.take lName) = texts.length)) := by
  have found := find_eq ok short
  by_cases inside : position texts (name.take lName) < texts.length
  · refine ⟨s, _, ?_, ok, Keeps.refl es s, id, Or.inl ⟨rfl, rfl, inside⟩⟩
    simp [getenvslot, found, inside]
  have absent : position texts (name.take lName) = texts.length :=
    Nat.le_antisymm position_le (by omega)
  have missing : getenvslot.find s name lName = some (es.length, false) := by
    rw [found, decide_eq_false inside, absent, ok.holds.length_eq]
  cases allocate with
  | false =>
      refine ⟨s, none, ?_, ok, Keeps.refl es s, id, Or.inr (Or.inl ⟨rfl, absent⟩)⟩
      simp [getenvslot, missing]
  | true =>
      by_cases foreign : s.environ ≠ s.allocatedEnviron ∧ s.allocatedEnviron ≠ none
      · obtain ⟨rest, slots⟩ : ∃ rest, s.slots = some (es.map some ++ none :: rest) := by
          rcases ok.lists with ⟨null, -⟩ | shown
          · exact absurd (stray rfl null) foreign.2
          · exact shown
        obtain ⟨s₁, run₁, keeps₁, buffers₁, environ₁, slots₁, allocated₁, size₁⟩ :=
          scrubenv_foreign ok.holds ok.buffers ok.arrays slots foreign.1
        have ok₁ : Ok s₁ es texts := by
          refine ⟨Or.inr ⟨rest, slots₁.trans slots⟩, keeps₁.holds ok.holds, buffers₁,
            ⟨Or.inl ⟨allocated₁, size₁⟩, ?_⟩⟩
          intro v a _ allocated
          rw [allocated₁] at allocated
          cases allocated
        obtain ⟨s', slot, run, ok', keeps, outcome⟩ := create_spec ok₁ (Or.inr allocated₁) supply
        refine ⟨s', slot, ?_, ok', keeps₁.trans keeps, ?_, Or.inr ?_⟩
        · simp only [getenvslot, missing, Option.bind_eq_bind, Option.bind_some, Bool.false_eq_true,
            if_false, Bool.not_true, if_pos foreign, run₁, run]
        · rcases outcome with ⟨-, rfl⟩ | ⟨-, room⟩
          · rw [environ₁]
            exact id
          · exact fun _ => room.environ
        · exact outcome.imp (fun failed => ⟨failed.1, absent⟩) fun made => ⟨made.1, made.2, absent⟩
      · have own : s.environ = s.allocatedEnviron ∨ s.allocatedEnviron = none := by tauto
        obtain ⟨s', slot, run, ok', keeps, outcome⟩ := create_spec ok own supply
        refine ⟨s', slot, ?_, ok', keeps, ?_, Or.inr ?_⟩
        · simp only [getenvslot, missing, Option.bind_eq_bind, Option.bind_some, Bool.false_eq_true,
            if_false, Bool.not_true, if_neg foreign, run]
        · rcases outcome with ⟨-, rfl⟩ | ⟨-, room⟩
          · exact id
          · exact fun _ => room.environ
        · exact outcome.imp (fun failed => ⟨failed.1, absent⟩) fun made => ⟨made.1, made.2, absent⟩

end BSDLibC.Env
