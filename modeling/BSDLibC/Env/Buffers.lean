import BSDLibC.Env.Invariant

/-! The buffers of the tree: freeing one, allocating one and filling it. Each lemma says which
strings stay as they are.
-/

namespace BSDLibC.Env

variable {s s' : State} {es before after : List Str} {texts front back : List (List UInt8)}
  {e new p : Str} {text : List UInt8}

/-- The strings that survive a change of the buffers. -/
theorem Holds.mono (h : Holds s es texts) (same : ∀ e ∈ es, s'.chars e.block = s.chars e.block)
    (owns : ∀ e ∈ es, s'.Owns e.block → s.Owns e.block)
    : Holds s' es texts where
  reads := by
    rw [← h.reads]
    exact List.map_congr_left fun e member => cstr_congr (same e member)
  whole e member owned := h.whole e member (owns e member owned)
  apart := h.apart.imp_of_mem fun member _ apart owned => apart (owns _ member owned)

/-- An entry in the middle splits the strings. -/
theorem Holds.split (h : Holds s (before ++ e :: after) (front ++ text :: back))
    (length : before.length = front.length)
    : s.cstr e = some text ∧ Holds s (before ++ after) (front ++ back)
      ∧ ∀ other ∈ before ++ after, s.Owns e.block → other.block ≠ e.block := by
  have reads := h.reads
  rw [List.map_append, List.map_cons, List.map_append, List.map_cons] at reads
  obtain ⟨first, rest⟩ := List.append_inj reads (by simpa using length)
  obtain ⟨same, last⟩ := List.cons.inj rest
  obtain ⟨apartBefore, apartAfter, across⟩ := List.pairwise_append.mp h.apart
  refine ⟨same, ⟨?_, ?_, ?_⟩, ?_⟩
  · rw [List.map_append, List.map_append, first, last]
  · intro other member
    refine h.whole other ?_
    simp only [List.mem_append, List.mem_cons] at member ⊢
    tauto
  · refine h.apart.sublist ?_
    exact (List.sublist_cons_self e after).append_left before
  · intro other member owned
    rcases List.mem_append.mp member with early | late
    · intro equal
      exact across other early e (by simp) (equal ▸ owned) equal
    · exact Ne.symm ((List.pairwise_cons.mp apartAfter).1 other late owned)

/-- A new entry that shares no buffer with the others. -/
theorem Holds.insert (h : Holds s (before ++ after) (front ++ back))
    (length : before.length = front.length) (reads : s.cstr new = some text)
    (whole : s.Owns new.block → new.offset = 0)
    (apart : ∀ other ∈ before ++ after,
      s.Owns other.block ∨ s.Owns new.block → other.block ≠ new.block)
    : Holds s (before ++ new :: after) (front ++ text :: back) where
  reads := by
    have both := h.reads
    rw [List.map_append, List.map_append] at both
    obtain ⟨first, last⟩ := List.append_inj both (by simpa using length)
    rw [List.map_append, List.map_cons, first, last, reads, List.map_append, List.map_cons]
  whole e member owned := by
    rw [List.mem_append, List.mem_cons] at member
    rcases member with early | rfl | late
    · exact h.whole e (List.mem_append_left _ early) owned
    · exact whole owned
    · exact h.whole e (List.mem_append_right _ late) owned
  apart := by
    obtain ⟨apartBefore, apartAfter, across⟩ := List.pairwise_append.mp h.apart
    refine List.pairwise_append.mpr ⟨apartBefore, List.pairwise_cons.mpr ⟨?_, apartAfter⟩, ?_⟩
    · intro other member owned
      exact Ne.symm (apart other (List.mem_append_right _ member) (Or.inr owned))
    · intro other member later memberLater owned
      rcases List.mem_cons.mp memberLater with rfl | late
      · exact apart other (List.mem_append_left _ member) (Or.inl owned)
      · exact across other member later late owned

-----------------------------------------------------------------------------------------
-- Freeing
-----------------------------------------------------------------------------------------

theorem findNode_some {node : EnvNode} (found : s.findNode p = some node)
    : node ∈ s.envTree ∧ node.block = p.block ∧ p.offset = 0 := by
  have holds := List.find?_some found
  simp only [Bool.and_eq_true, decide_eq_true_eq] at holds
  exact ⟨List.mem_of_find?_eq_some found, holds.1, holds.2⟩

theorem findNode_none (found : s.findNode p = none) (start : p.offset = 0) : ¬ s.Owns p.block := by
  rintro ⟨node, member, same⟩
  simpa [same, start] using List.find?_eq_none.mp found node member

/-- `__freeenvvar` either finds no buffer or releases the one of its argument. -/
theorem freeenvvar_cases (s : State) (p : Str)
    : (freeenvvar s p = s ∧ (p.offset = 0 → ¬ s.Owns p.block))
      ∨ (s.Owns p.block
        ∧ freeenvvar s p = { s with
            envTree := s.envTree.filter (fun other => other.block ≠ p.block)
            chars := Function.update s.chars p.block none }) := by
  unfold freeenvvar
  cases found : s.findNode p with
  | none => exact Or.inl ⟨rfl, findNode_none found⟩
  | some node =>
      obtain ⟨member, same, -⟩ := findNode_some found
      refine Or.inr ⟨⟨node, member, same⟩, ?_⟩
      simp only [State.removeNode, same]

/-- The parts of the state that concern the arrays. -/
structure SameArrays (s s' : State) : Prop where
  vectors : s'.vectors = s.vectors
  environ : s'.environ = s.environ
  allocatedEnviron : s'.allocatedEnviron = s.allocatedEnviron
  allocatedEnvironSize : s'.allocatedEnvironSize = s.allocatedEnvironSize

theorem SameArrays.slots (h : SameArrays s s') : s'.slots = s.slots := by
  rw [State.slots, State.slots, h.environ, h.vectors]

theorem SameArrays.arrays (h : SameArrays s s') (arrays : Arrays s) : Arrays s' := by
  refine ⟨?_, ?_⟩
  · rw [h.allocatedEnviron, h.allocatedEnvironSize, h.vectors]
    exact arrays.size
  · rw [h.environ, h.allocatedEnviron]
    exact arrays.inside

theorem SameArrays.trans {s'' : State} (h : SameArrays s s') (h' : SameArrays s' s'')
    : SameArrays s s'' :=
  ⟨h'.vectors.trans h.vectors, h'.environ.trans h.environ,
    h'.allocatedEnviron.trans h.allocatedEnviron,
    h'.allocatedEnvironSize.trans h.allocatedEnvironSize⟩

theorem freeenvvar_sameArrays (s : State) (p : Str) : SameArrays s (freeenvvar s p) := by
  rcases freeenvvar_cases s p with ⟨same, -⟩ | ⟨-, same⟩
  · rw [same]
    exact ⟨rfl, rfl, rfl, rfl⟩
  · rw [same]
    exact ⟨rfl, rfl, rfl, rfl⟩

theorem freeenvvar_chars {block : Nat} (kept : s.Owns p.block → block ≠ p.block)
    : (freeenvvar s p).chars block = s.chars block := by
  rcases freeenvvar_cases s p with ⟨same, -⟩ | ⟨owned, same⟩
  · rw [same]
  · rw [same]
    exact Function.update_of_ne (kept owned) _ _

theorem freeenvvar_owns {block : Nat} (owned : (freeenvvar s p).Owns block)
    : s.Owns block ∧ (p.offset = 0 → block ≠ p.block) := by
  rcases freeenvvar_cases s p with ⟨same, free⟩ | ⟨-, same⟩
  · rw [same] at owned
    refine ⟨owned, ?_⟩
    rintro start rfl
    exact free start owned
  · rw [same] at owned
    obtain ⟨node, member, rfl⟩ := owned
    obtain ⟨member, different⟩ := List.mem_filter.mp member
    exact ⟨⟨node, member, rfl⟩, fun _ => by simpa using different⟩

theorem Buffers.free (h : Buffers s) (p : Str) : Buffers (freeenvvar s p) := by
  rcases freeenvvar_cases s p with ⟨same, -⟩ | ⟨-, same⟩
  · rwa [same]
  · rw [same]
    refine ⟨?_, ?_⟩
    · exact h.distinct.sublist (List.filter_sublist.map _)
    · intro node member
      obtain ⟨member, different⟩ := List.mem_filter.mp member
      have kept : Function.update s.chars p.block none node.block = s.chars node.block :=
        Function.update_of_ne (by simpa using different) _ _
      simp only [kept]
      exact h.nodes node member

-----------------------------------------------------------------------------------------
-- Allocating
-----------------------------------------------------------------------------------------

theorem mem_insertNode {node other : EnvNode} {tree : List EnvNode}
    : other ∈ insertNode node tree ↔ other = node ∨ other ∈ tree := by
  rw [insertNode, List.mem_append, List.mem_cons, or_left_comm, ← List.mem_append,
    List.takeWhile_append_dropWhile]

theorem insertNode_perm (node : EnvNode) (tree : List EnvNode)
    : (insertNode node tree).Perm (node :: tree) := by
  have whole := List.takeWhile_append_dropWhile (p := fun other => decide (other.block < node.block))
    (l := tree)
  refine List.perm_middle.trans ?_
  rw [whole]

/-- A successful `__allocenvvar` adds one buffer, in memory that was not in use. -/
theorem allocenvvar_some {length : Nat} {supply : Supply}
    (run : allocenvvar s length supply = some (s', p))
    : p.offset = 0 ∧ s.chars p.block = none
      ∧ ∃ bytes : List UInt8, bytes.length = length
        ∧ s' = { s with
            chars := Function.update s.chars p.block (some bytes)
            envTree := insertNode ⟨p.block, length, 0⟩ s.envTree } := by
  rcases supply with _ | ⟨block, junk⟩
  · cases run
  · simp only [allocenvvar, State.malloc, Option.bind_eq_bind, Option.bind_some] at run
    split at run
    · cases run
    · rename_i free
      obtain ⟨rfl, rfl⟩ := Prod.mk.inj (Option.some.inj run)
      refine ⟨rfl, by simpa using free, (List.range length).map junk, by simp, rfl⟩

theorem Buffers.alloc {length : Nat} {supply : Supply} (h : Buffers s)
    (run : allocenvvar s length supply = some (s', p))
    : Buffers s' ∧ s'.Owns p.block ∧ ∀ block, s'.Owns block → block = p.block ∨ s.Owns block := by
  obtain ⟨-, free, bytes, size, rfl⟩ := allocenvvar_some run
  have fresh : ∀ node ∈ s.envTree, node.block ≠ p.block := by
    rintro node member same
    have live := h.live ⟨node, member, same⟩
    simp [free] at live
  refine ⟨⟨?_, ?_⟩, ?_, ?_⟩
  · rw [((insertNode_perm _ s.envTree).map _).nodup_iff, List.map_cons, List.nodup_cons]
    refine ⟨?_, h.distinct⟩
    rintro member
    obtain ⟨node, member, same⟩ := List.mem_map.mp member
    exact fresh node member same
  · intro node member
    rcases mem_insertNode.mp member with rfl | old
    · simpa using size
    · have kept : Function.update s.chars p.block (some bytes) node.block = s.chars node.block :=
        Function.update_of_ne (fresh node old) _ _
      simp only [kept]
      exact h.nodes node old
  · exact ⟨_, mem_insertNode.mpr (Or.inl rfl), rfl⟩
  · rintro block ⟨node, member, rfl⟩
    rcases mem_insertNode.mp member with rfl | old
    · exact Or.inl rfl
    · exact Or.inr ⟨node, old, rfl⟩

-----------------------------------------------------------------------------------------
-- Filling
-----------------------------------------------------------------------------------------

/-- The state with other contents in one block. -/
def State.putBlock (s : State) (block : Nat) (bytes : List UInt8) : State :=
  { s with chars := Function.update s.chars block (some bytes) }

theorem putBlock_self (s : State) (block : Nat) (bytes : List UInt8)
    : (s.putBlock block bytes).chars block = some bytes :=
  Function.update_self _ _ _

theorem putBlock_ne {block other : Nat} (different : other ≠ block) (s : State) (bytes : List UInt8)
    : (s.putBlock block bytes).chars other = s.chars other :=
  Function.update_of_ne different _ _

theorem putBlock_putBlock (s : State) (block : Nat) (bytes bytes' : List UInt8)
    : (s.putBlock block bytes).putBlock block bytes' = s.putBlock block bytes' := by
  simp only [State.putBlock, Function.update_idem]

theorem write_eq {data bytes : List UInt8} (block : s.chars p.block = some bytes)
    (fits : p.offset + data.length ≤ bytes.length)
    : s.write p data = some (s.putBlock p.block
        (bytes.take p.offset ++ data ++ bytes.drop (p.offset + data.length))) := by
  rw [State.write, block, Option.bind_eq_bind, Option.bind_some, if_pos fits, State.putBlock]

/-- `memcpy` of the first characters of a string. -/
theorem memcpy_head {dst src : Str} {n : Nat} (reads : s.cstr src = some text)
    (short : n ≤ text.length)
    : s.memcpy dst src n = s.write dst (text.take n) := by
  obtain ⟨-, before, after, block, start⟩ := cstr_eq_some.mp reads
  rw [State.memcpy, block, Option.bind_eq_bind, Option.bind_some, if_pos (by
    simp only [List.length_append, List.length_cons]
    omega), List.append_assoc, List.drop_left' start, List.take_append_of_le_length short]

/-- `memcpy` of a string with its terminator. -/
theorem memcpy_whole {dst src : Str} (reads : s.cstr src = some text)
    : s.memcpy dst src (text.length + 1) = s.write dst (text ++ [0]) := by
  obtain ⟨-, before, after, block, start⟩ := cstr_eq_some.mp reads
  rw [State.memcpy, block, Option.bind_eq_bind, Option.bind_some, if_pos (by
    simp only [List.length_append, List.length_cons]
    omega), List.append_assoc, List.drop_left' start]
  congr 1
  rw [List.append_cons, List.take_left' (by simp)]

theorem Buffers.putBlock {block : Nat} {bytes bytes' : List UInt8} (h : Buffers s)
    (old : s.chars block = some bytes) (size : bytes'.length = bytes.length)
    : Buffers (s.putBlock block bytes') := by
  refine ⟨h.distinct, ?_⟩
  intro node member
  have length := h.nodes node member
  by_cases same : node.block = block
  · rw [same, putBlock_self]
    rw [same, old] at length
    simpa [size] using length
  · rwa [putBlock_ne same]

/-- A write that replaces a part of a block. -/
theorem write_part {bytes : List UInt8} (data : List UInt8) (block : s.chars p.block = some bytes)
    (first old last : List UInt8) (parts : bytes = first ++ (old ++ last))
    (offset : p.offset = first.length) (size : data.length = old.length)
    : s.write p data = some (s.putBlock p.block (first ++ (data ++ last))) := by
  subst parts
  rw [write_eq block (by simp only [List.length_append]; omega), offset, List.take_left, size,
    ← List.append_assoc first old last, ← List.length_append, List.drop_left, List.append_assoc]

/-- The text of a variable, written to a new buffer. -/
theorem fill_eq {name value : Str} {n v bytes : List UInt8} (reads : s.cstr name = some n)
    (reads' : s.cstr value = some v) (start : new.offset = 0)
    (block : s.chars new.block = some bytes) (size : bytes.length = n.length + v.length + 2)
    (apart : value.block ≠ new.block)
    : (do
        let s ← s.memcpy new name n.length
        let s ← s.write (new.add n.length) [equalSign]
        s.memcpy (new.add (n.length + 1)) value (v.length + 1))
      = some (s.putBlock new.block (variableText n v ++ [0])) := by
  have later (bytes : List UInt8) : (s.putBlock new.block bytes).cstr value = some v := by
    rw [← reads']
    exact cstr_congr (putBlock_ne apart s bytes)
  obtain ⟨first, sign, last, rfl, length⟩
      : ∃ first sign last, bytes = first ++ sign :: last ∧ first.length = n.length := by
    refine ⟨bytes.take n.length, bytes[n.length], bytes.drop (n.length + 1), ?_, ?_⟩
    · rw [List.getElem_cons_drop, List.take_append_drop]
    · exact List.length_take_of_le (by omega)
  simp only [List.length_append, List.length_cons] at size
  have name_written : s.write new n = some (s.putBlock new.block (n ++ sign :: last)) :=
    write_part n block [] first (sign :: last) rfl start length.symm
  have sign_written : (s.putBlock new.block (n ++ sign :: last)).write (new.add n.length) [equalSign]
      = some (s.putBlock new.block (n ++ equalSign :: last)) := by
    refine (write_part (p := new.add n.length) [equalSign] (putBlock_self _ _ _) n [sign] last
      rfl (by simp [Str.add, start]) rfl).trans ?_
    exact congrArg some (putBlock_putBlock _ _ _ _)
  have value_written : (s.putBlock new.block (n ++ equalSign :: last)).write
        (new.add (n.length + 1)) (v ++ [0])
      = some (s.putBlock new.block (variableText n v ++ [0])) := by
    refine (write_part (p := new.add (n.length + 1)) (v ++ [0]) (putBlock_self _ _ _)
      (n ++ [equalSign]) last [] (by simp) (by simp [Str.add, start]) (by simp; omega)).trans ?_
    refine congrArg some ((putBlock_putBlock _ _ _ _).trans ?_)
    simp [variableText, Str.add]
  rw [memcpy_head reads (Nat.le_refl _), List.take_length, name_written, Option.bind_eq_bind,
    Option.bind_some, sign_written, Option.bind_some, memcpy_whole (later _), value_written]

end BSDLibC.Env
