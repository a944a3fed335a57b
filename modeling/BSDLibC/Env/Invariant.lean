import BSDLibC.Env.Texts
import Mathlib.Data.List.Nodup

/-! What holds between calls: the array is terminated, its entries are strings, and each buffer of
the tree serves at most one entry.
-/

namespace BSDLibC.Env

variable {s s' : State} {es : List Str} {texts : List (List UInt8)} {e p : Str}

/-- A block of the tree. -/
def State.Owns (s : State) (block : Nat) : Prop := ∃ node ∈ s.envTree, node.block = block

/-- The array behind `environ` holds these entries; `NULL` holds none. -/
def State.Lists (s : State) (es : List Str) : Prop :=
  (s.environ = none ∧ es = []) ∨ ∃ rest, s.slots = some (es.map some ++ none :: rest)

/-- The nodes of the tree are allocated with the length they record. -/
structure Buffers (s : State) : Prop where
  distinct : (s.envTree.map EnvNode.block).Nodup
  nodes : ∀ node ∈ s.envTree, (s.chars node.block).map List.length = some node.length

/-- The entries are these strings. A buffer of the tree has one entry, which points to its start. -/
structure Holds (s : State) (es : List Str) (texts : List (List UInt8)) : Prop where
  reads : es.map s.cstr = texts.map some
  whole : ∀ e ∈ es, s.Owns e.block → e.offset = 0
  apart : es.Pairwise (fun a b => s.Owns a.block → a.block ≠ b.block)

/-- The array of libc is allocated with the size it records, and `environ` does not point into the
middle of it.
-/
structure Arrays (s : State) : Prop where
  size : (s.allocatedEnviron = none ∧ s.allocatedEnvironSize = 0)
    ∨ ∃ block, s.allocatedEnviron = some ⟨block, 0⟩
      ∧ (s.vectors block).map List.length = some s.allocatedEnvironSize
  inside : ∀ v a, s.environ = some v → s.allocatedEnviron = some a → v.block = a.block → v = a

/-- The invariant, with the entries of the environment and their strings. -/
structure Ok (s : State) (es : List Str) (texts : List (List UInt8)) : Prop where
  lists : s.Lists es
  holds : Holds s es texts
  buffers : Buffers s
  arrays : Arrays s

-----------------------------------------------------------------------------------------
-- Strings
-----------------------------------------------------------------------------------------

theorem cstr_congr (same : s'.chars p.block = s.chars p.block) : s'.cstr p = s.cstr p := by
  rw [State.cstr, State.cstr, same]

/-- The part of a list before an element, and the rest. -/
theorem takeWhile_split {α : Type} [DecidableEq α] {l : List α} {a : α} (member : a ∈ l)
    : a ∉ l.takeWhile (· ≠ a) ∧ ∃ after, l = l.takeWhile (· ≠ a) ++ a :: after := by
  induction l with
  | nil => simp at member
  | cons head tail ih =>
      by_cases same : head = a
      · subst same
        simp
      · obtain ⟨absent, after, split⟩ := ih ((List.mem_cons.mp member).resolve_left (Ne.symm same))
        have first : (head :: tail).takeWhile (· ≠ a) = head :: tail.takeWhile (· ≠ a) := by
          simp [same]
        rw [first]
        refine ⟨?_, after, by rw [List.cons_append, ← split]⟩
        rw [List.mem_cons, not_or]
        exact ⟨Ne.symm same, absent⟩

/-- A string ends with a terminator inside of its block. -/
theorem cstr_eq_some {text : List UInt8}
    : s.cstr p = some text
      ↔ 0 ∉ text ∧ ∃ before after, s.chars p.block = some (before ++ text ++ 0 :: after)
        ∧ before.length = p.offset := by
  constructor
  · intro reads
    obtain ⟨bytes, block, reads⟩ := Option.bind_eq_some_iff.mp reads
    simp only at reads
    split at reads
    · rename_i member
      obtain rfl := Option.some.inj reads
      obtain ⟨absent, after, split⟩ := takeWhile_split member
      refine ⟨absent, bytes.take p.offset, after, ?_, ?_⟩
      · rw [block, List.append_assoc, ← split, List.take_append_drop]
      · refine List.length_take_of_le ?_
        by_contra long
        simp [List.drop_eq_nil_of_le (by omega : bytes.length ≤ p.offset)] at member
    · cases reads
  · rintro ⟨plain, before, after, block, start⟩
    have text_eq : (text ++ 0 :: after).takeWhile (· ≠ 0) = text := by
      rw [List.takeWhile_append_of_pos]
      · simp
      · intro c member
        simpa using ne_of_mem_of_not_mem member plain
    rw [State.cstr, block, Option.bind_eq_bind, Option.bind_some, List.append_assoc,
      List.drop_left' start, if_pos (by simp), text_eq]

theorem live_of_cstr {text : List UInt8} (reads : s.cstr p = some text)
    : (s.chars p.block).isSome := by
  obtain ⟨-, before, after, block, -⟩ := cstr_eq_some.mp reads
  simp [block]

theorem Holds.cstr_mem (h : Holds s es texts) (member : e ∈ es) : ∃ text, s.cstr e = some text := by
  have listed : s.cstr e ∈ texts.map some := by
    rw [← h.reads]
    exact List.mem_map_of_mem member
  obtain ⟨text, -, same⟩ := List.mem_map.mp listed
  exact ⟨text, same.symm⟩

theorem Holds.length_eq (h : Holds s es texts) : es.length = texts.length := by
  simpa using congrArg List.length h.reads

theorem Holds.cstr_getElem (h : Holds s es texts) {i : Nat} (inside : i < es.length)
    : s.cstr es[i] = texts[i]? := by
  have same := congrArg (fun l => l[i]?) h.reads
  have inside' : i < texts.length := h.length_eq ▸ inside
  simpa [inside, inside'] using same

theorem Buffers.live (h : Buffers s) {block : Nat} (owns : s.Owns block)
    : (s.chars block).isSome := by
  obtain ⟨node, member, rfl⟩ := owns
  have length := h.nodes node member
  rw [Option.isSome_iff_exists]
  obtain ⟨bytes, block, -⟩ := Option.map_eq_some_iff.mp length
  exact ⟨bytes, block⟩

theorem Lists.unique {es' : List Str} (h : s.Lists es) (h' : s.Lists es') : es = es' := by
  rcases h with ⟨null, rfl⟩ | ⟨rest, slots⟩ <;> rcases h' with ⟨null', rfl⟩ | ⟨rest', slots'⟩
  · rfl
  · simp [State.slots, null] at slots'
  · simp [State.slots, null'] at slots
  · rw [slots, Option.some.injEq] at slots'
    clear slots
    induction es generalizing es' with
    | nil =>
        cases es' with
        | nil => rfl
        | cons e' rest' => simp at slots'
    | cons e rest ih =>
        cases es' with
        | nil => simp at slots'
        | cons e' rest' =>
            simp only [List.map_cons, List.cons_append, List.cons.injEq, Option.some.injEq] at slots'
            rw [slots'.1, ih slots'.2]

end BSDLibC.Env
