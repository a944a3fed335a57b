import BSDLibC.Memmem.Suffix

/-! The two-way search of `memmem` misses no occurrence of the needle. -/

namespace BSDLibC.Memmem
open BSDLibC.Words

variable {w : Nat} {n h : List UInt8}

/-- The needle stands in the haystack at the place `s`. -/
def Occurs (h n : List UInt8) (s : Nat) : Prop :=
  s + n.length ≤ h.length ∧ ∀ j < n.length, h[s + j]? = n[j]?

-----------------------------------------------------------------------------------------
-- The shift table
-----------------------------------------------------------------------------------------

/-- The table of the bytes that were read. -/
structure Table.Good (table : Table) (done : List UInt8) : Prop where
  byteset (c : UInt8) : table.byteset.testBit c.toNat = true ↔ c ∈ done
  shift (c : UInt8) : c ∈ done → ∃ q, table.shift c = some (q + 1) ∧ q < done.length
    ∧ ∀ j, q < j → done[j]? ≠ some c

/-- One more byte. -/
theorem Table.Good.snoc {table : Table} {done : List UInt8} (good : table.Good done) (byte : UInt8)
    : Table.Good
        { byteset := table.byteset ||| 1 <<< byte.toNat
          shift := fun other => if other = byte then some (done.length + 1) else table.shift other }
        (done ++ [byte]) where
  byteset c := by
    rw [Nat.testBit_or, Nat.one_shiftLeft, Nat.testBit_two_pow, Bool.or_eq_true, good.byteset c,
      List.mem_append, List.mem_singleton, decide_eq_true_iff, UInt8.toNat_inj, eq_comm]
  shift c member := by
    by_cases same : c = byte
    · subst same
      refine ⟨done.length, by simp, by simp, fun j after => ?_⟩
      rw [List.getElem?_eq_none (by simp; omega)]
      simp
    · have old : c ∈ done := by simpa [same] using member
      obtain ⟨q, found, inside, later⟩ := good.shift c old
      refine ⟨q, by simp [same, found], by simp; omega, fun j after => ?_⟩
      rcases Nat.lt_trichotomy j done.length with before | here | behind
      · rw [List.getElem?_append_left before]
        exact later j after
      · simp [here, Ne.symm same]
      · rw [List.getElem?_eq_none (by simp; omega)]
        simp

theorem fill_spec (rest done : List UInt8) {table : Table} (good : table.Good done)
    (small : (done ++ rest).length < 2 ^ w)
    : ∃ table', fill w rest done.length table = some table' ∧ table'.Good (done ++ rest) := by
  induction rest generalizing done table with
  | nil => exact ⟨table, rfl, by rwa [List.append_nil]⟩
  | cons byte rest ih =>
      have fits : done.length + 1 < 2 ^ w := by
        simp only [List.length_append, List.length_cons] at small
        omega
      obtain ⟨table', filled, good'⟩ := ih (done ++ [byte]) (good.snoc byte) (by simpa using small)
      rw [List.length_append, List.length_singleton] at filled
      rw [List.append_assoc] at good'
      exact ⟨table', by rw [fill, sum_eq fits]; exact filled, good'⟩

theorem fill_needle (small : n.length < 2 ^ w)
    : ∃ table, fill w n 0 ⟨0, fun _ => none⟩ = some table ∧ table.Good n :=
  fill_spec n [] ⟨fun c => by simp, fun c member => by simp at member⟩ small

-----------------------------------------------------------------------------------------
-- One round
-----------------------------------------------------------------------------------------

theorem advance_eq {at_ k : Nat} (fits : at_ + k ≤ h.length) : advance h at_ k = some (at_ + k) :=
  if_pos fits

theorem compareRight_spec {at_ bound k : Nat} (room : at_ + n.length ≤ h.length)
    (small : n.length < 2 ^ w) (enough : n.length < k + bound) (inside : k ≤ n.length)
    : ∃ k', compareRight w n h at_ bound k = some k' ∧ k ≤ k' ∧ k' ≤ n.length
      ∧ (∀ j, k ≤ j → j < k' → h[at_ + j]? = n[j]?)
      ∧ (k' < n.length → h[at_ + k']? ≠ n[k']?) := by
  induction bound generalizing k with
  | zero => omega
  | succ bound ih =>
      rw [compareRight]
      split
      next more =>
        have needle := List.getElem?_eq_getElem more
        have hay := List.getElem?_eq_getElem (by omega : at_ + k < h.length)
        rw [needle, hay]
        simp only [Option.bind_eq_bind, Option.bind_some]
        split
        next same =>
          obtain ⟨k', call, low, high, equal, stop⟩ := ih (by omega) (by omega : k + 1 ≤ n.length)
          rw [sum_eq (by omega), Option.bind_some]
          refine ⟨k', call, by omega, high, fun j first last => ?_, stop⟩
          by_cases here : j = k
          · rw [here, needle, hay, same]
          · exact equal j (by omega) last
        next other =>
          refine ⟨k, rfl, Nat.le_refl k, inside, fun j first last => by omega, fun _ same => ?_⟩
          rw [needle, hay] at same
          exact other (Option.some_inj.mp same).symm
      next done =>
        exact ⟨k, rfl, Nat.le_refl k, inside, fun j first last => by omega,
          fun less => absurd less done⟩

theorem compareLeft_spec (mem : Nat) {at_ k : Nat} (room : at_ + n.length ≤ h.length) (inside : k ≤ n.length)
    : ∃ k', compareLeft n h at_ mem k = some k' ∧ k' ≤ k
      ∧ (∀ j, k' ≤ j → j < k → h[at_ + j]? = n[j]?)
      ∧ (mem < k' → ∃ j < k', h[at_ + j]? ≠ n[j]?) := by
  induction k with
  | zero => exact ⟨0, rfl, Nat.le_refl 0, fun j _ last => by omega, fun less => by omega⟩
  | succ k ih =>
      rw [compareLeft]
      split
      next more =>
        have needle := List.getElem?_eq_getElem (by omega : k < n.length)
        have hay := List.getElem?_eq_getElem (by omega : at_ + k < h.length)
        rw [needle, hay]
        simp only [Option.bind_eq_bind, Option.bind_some]
        split
        next same =>
          obtain ⟨k', call, low, equal, stop⟩ := ih (by omega)
          refine ⟨k', call, by omega, fun j first last => ?_, stop⟩
          by_cases here : j = k
          · rw [here, needle, hay, same]
          · exact equal j first (by omega)
        next other =>
          refine ⟨k + 1, rfl, Nat.le_refl _, fun j first last => by omega,
            fun _ => ⟨k, Nat.lt_succ_self k, fun same => ?_⟩⟩
          rw [needle, hay] at same
          exact other (Option.some_inj.mp same).symm
      next done =>
        exact ⟨k + 1, rfl, Nat.le_refl _, fun j first last => by omega, fun less => absurd less done⟩

/-- What the search knows at the place `at_`. -/
structure Known (h n : List UInt8) (plan : Plan) (at_ mem : Nat) : Prop where
  size : mem = 0 ∨ mem = plan.mem0
  matched (j : Nat) : j < mem → h[at_ + j]? = n[j]?

/-- What a round may come to. -/
def Round.Sound (h n : List UInt8) (plan : Plan) (at_ : Nat) : Round → Prop
  | .found => Occurs h n at_
  | .next at' mem => at_ < at' ∧ at' ≤ h.length ∧ Known h n plan at' mem
      ∧ ∀ s, at_ ≤ s → s < at' → ¬ Occurs h n s

theorem Known.empty (plan : Plan) (at_ : Nat) : Known h n plan at_ 0 :=
  ⟨.inl rfl, fun j less => by omega⟩

section

variable {plan : Plan} {c at_ mem : Nat} (good : plan.Good w n c)
  (known : Known h n plan at_ mem) (small : n.length < 2 ^ w) (room : at_ + n.length ≤ h.length)

/-- An occurrence that starts a little later, over a window that matches across the place of the
division, has its distance as a local period.
-/
theorem localPeriod_of_occurs {c d : Nat} (occurs : Occurs h n (at_ + d))
    (same : ∀ i, c ≤ i → i < c + d → i < n.length → h[at_ + i]? = n[i]?)
    : LocalPeriod n c d := by
  intro i first last far inside
  rw [← same i first last inside, ← occurs.2 (i - d) (by omega)]
  congr 1
  omega

include good known room small

theorem compareHalves_spec
    : ∃ round, compareHalves w n plan h at_ mem = some round ∧ round.Sound h n plan at_ := by
  have inside := good.inside
  have fits := good.fits
  have memory : mem ≤ n.length := by
    rcases known.size with zero | full
    · omega
    · by_cases zero : plan.mem0 = 0
      · omega
      · have := (good.memory zero).1
        omega
  rw [compareHalves, good.ms, wrapSum_back Nat.one_pos (by omega), Nat.add_sub_cancel]
  obtain ⟨k, right, low, high, equal, stop⟩ := compareRight_spec (n := n) (h := h) room small
    (by omega : n.length < max c mem + (n.length + 1)) (by omega)
  have matched (i : Nat) (first : c ≤ i) (last : i < k) : h[at_ + i]? = n[i]? := by
    by_cases before : i < mem
    · exact known.matched i before
    · exact equal i (by omega) last
  rw [right]
  simp only [Option.bind_eq_bind, Option.bind_some]
  split
  next mismatch =>
    rw [wrapDiff_back (by omega) (by omega), advance_eq (by omega), Option.bind_some]
    refine ⟨_, rfl, by omega, by omega, .empty plan _, fun s first last occurs => ?_⟩
    obtain ⟨d, rfl⟩ : ∃ d, s = at_ + d := ⟨s - at_, by omega⟩
    refine stop mismatch ?_
    by_cases zero : d = 0
    · subst zero
      exact occurs.2 k mismatch
    · have period := good.whole d (by omega)
        (localPeriod_of_occurs occurs fun i first last _ => matched i first (by omega))
      rw [period k (by omega) mismatch, ← occurs.2 (k - d) (by omega)]
      congr 1
      omega
  next whole =>
    have suffix (i : Nat) (first : c ≤ i) (last : i < n.length) : h[at_ + i]? = n[i]? :=
      matched i first (by omega)
    obtain ⟨k', left, low', equal', stop'⟩ := compareLeft_spec (n := n) (h := h) mem room
      (Nat.le_of_lt inside)
    rw [left]
    simp only [Option.bind_some]
    split
    next done =>
      refine ⟨_, rfl, room, fun j last => ?_⟩
      by_cases before : j < mem
      · exact known.matched j before
      · by_cases half : j < c
        · exact equal' j (by omega) half
        · exact suffix j (by omega) last
    next mismatch =>
      rw [advance_eq (by omega), Option.bind_some]
      have pos := good.pos
      refine ⟨_, rfl, by omega, by omega, ⟨.inr rfl, fun j less => ?_⟩, fun s first last occurs => ?_⟩
      · obtain ⟨size, period⟩ := good.memory (by omega)
        have long := good.long plan.p pos period.local
        rw [Nat.add_assoc, suffix (plan.p + j) (by omega) (by omega),
          period (plan.p + j) (by omega) (by omega)]
        congr 1
        omega
      · obtain ⟨d, rfl⟩ : ∃ d, s = at_ + d := ⟨s - at_, by omega⟩
        by_cases zero : d = 0
        · subst zero
          obtain ⟨j, less, other⟩ := stop' (by omega)
          exact other (occurs.2 j (by omega))
        · have period := good.whole d (by omega)
            (localPeriod_of_occurs occurs fun i first _ inside => suffix i first inside)
          have := good.least d (by omega) period
          omega

omit good known small room

/-- The last byte of the window stands in an occurrence that starts within it. -/
theorem Occurs.last_byte {d : Nat} (occurs : Occurs h n (at_ + d)) (inside : d < n.length)
    : n[n.length - 1 - d]? = h[at_ + (n.length - 1)]? := by
  rw [← occurs.2 (n.length - 1 - d) (by omega)]
  congr 1
  omega

include good known small room

/-- A round finds an occurrence or moves on, past places where there is none. -/
theorem round_spec {table : Table} (filled : table.Good n)
    : ∃ next, round w n table plan h at_ mem = some next ∧ next.Sound h n plan at_ := by
  have inside := good.inside
  have fits := good.fits
  have last := List.getElem?_eq_getElem (by omega : at_ + (n.length - 1) < h.length)
  generalize h[at_ + (n.length - 1)] = byte at last
  rw [round]
  simp only [last, Option.bind_eq_bind, Option.bind_some]
  split
  next present =>
    obtain ⟨q, shift, less, later⟩ := filled.shift byte ((filled.byteset byte).mp present)
    rw [shift, Option.bind_some, diff_eq (by omega), Option.bind_some]
    -- An occurrence has the last byte of the window at a place up to `q`.
    have far (d : Nat) (occurs : Occurs h n (at_ + d)) : n.length - (q + 1) ≤ d := by
      by_contra near
      exact later (n.length - 1 - d) (by omega) ((occurs.last_byte (by omega)).trans last)
    split
    next more =>
      split
      next remembered =>
        obtain ⟨size, period⟩ := good.memory remembered.1
        have full : mem = n.length - plan.p := by
          rcases known.size with zero | full
          · exact absurd zero remembered.2.1
          · rw [full, size]
        rw [diff_eq fits, Option.bind_some, advance_eq (by omega), Option.bind_some]
        refine ⟨_, rfl, by omega, by omega, .empty plan _, fun s first before occurs => ?_⟩
        obtain ⟨d, rfl⟩ : ∃ d, s = at_ + d := ⟨s - at_, by omega⟩
        -- The match that is remembered makes the last byte that of the needle.
        have middle : n[n.length - 1 - plan.p - d]? = n[n.length - 1 - plan.p]? := by
          rw [← occurs.2 (n.length - 1 - plan.p - d) (by omega),
            ← known.matched (n.length - 1 - plan.p) (by omega)]
          congr 1
          omega
        have left := period (n.length - 1 - d) (by omega) (by omega)
        have right := period (n.length - 1) (by omega) (by omega)
        refine later (n.length - 1) (by omega) ?_
        rw [right, ← middle, ← last, ← occurs.last_byte (by omega), left]
        congr 1
        omega
      next =>
        rw [advance_eq (by omega), Option.bind_some]
        refine ⟨_, rfl, by omega, by omega, .empty plan _, fun s first before occurs => ?_⟩
        obtain ⟨d, rfl⟩ : ∃ d, s = at_ + d := ⟨s - at_, by omega⟩
        have := far d occurs
        omega
    next => exact compareHalves_spec good known small room
  next absent =>
    rw [advance_eq (by omega), Option.bind_some]
    refine ⟨_, rfl, by omega, by omega, .empty plan _, fun s first before occurs => ?_⟩
    obtain ⟨d, rfl⟩ : ∃ d, s = at_ + d := ⟨s - at_, by omega⟩
    refine absent ((filled.byteset byte).mpr ?_)
    exact List.mem_of_getElem? ((occurs.last_byte (by omega)).trans last)

end

-----------------------------------------------------------------------------------------
-- The search
-----------------------------------------------------------------------------------------

/-- The first occurrence from a place on. -/
def FirstFrom (h n : List UInt8) (start : Nat) : Option Nat → Prop
  | some s => start ≤ s ∧ Occurs h n s ∧ ∀ t, start ≤ t → t < s → ¬ Occurs h n t
  | none => ∀ t, start ≤ t → ¬ Occurs h n t

/-- Places without an occurrence can be left out. -/
theorem FirstFrom.skip {start start' : Nat} {result : Option Nat} (less : start ≤ start')
    (none : ∀ s, start ≤ s → s < start' → ¬ Occurs h n s) (first : FirstFrom h n start' result)
    : FirstFrom h n start result := by
  have behind (t : Nat) (low : start ≤ t) (rest : start' ≤ t → ¬ Occurs h n t) : ¬ Occurs h n t := by
    by_cases near : t < start'
    · exact none t low near
    · exact rest (by omega)
  cases result with
  | none => exact fun t low => behind t low fun far => first t far
  | some s =>
      obtain ⟨low, occurs, before⟩ := first
      exact ⟨by omega, occurs, fun t low high => behind t low fun far => before t far high⟩

theorem search_spec {table : Table} {plan : Plan} {c at_ mem bound : Nat} (good : plan.Good w n c)
    (filled : table.Good n) (small : n.length < 2 ^ w) (known : Known h n plan at_ mem)
    (start : at_ ≤ h.length) (enough : h.length < at_ + bound)
    : ∃ result, search w n table plan h bound at_ mem = some result
      ∧ FirstFrom h n at_ result := by
  induction bound generalizing at_ mem with
  | zero => omega
  | succ bound ih =>
      rw [search]
      split
      next short =>
        exact ⟨none, rfl, fun t low occurs => by have := occurs.1; omega⟩
      next long =>
        obtain ⟨next, call, sound⟩ := round_spec good known small (by omega) filled
        rw [call]
        simp only [Option.bind_eq_bind, Option.bind_some]
        cases next with
        | found => exact ⟨some at_, rfl, Nat.le_refl _, sound, fun t low high => by omega⟩
        | next at' mem' =>
            obtain ⟨later, inside, known, skipped⟩ := sound
            obtain ⟨result, loop, first⟩ := ih known inside (by omega)
            exact ⟨result, loop, first.skip (Nat.le_of_lt later) skipped⟩

theorem twowayMemmem_spec {start : Nat} (nonempty : 0 < n.length) (small : n.length < 2 ^ w)
    (inside : start ≤ h.length)
    : ∃ result, twowayMemmem w h start n = some result ∧ FirstFrom h n start result := by
  obtain ⟨plan, c, prepared, good⟩ := prepare_spec nonempty small
  obtain ⟨table, filled, tableGood⟩ := fill_needle small
  obtain ⟨result, searched, first⟩ := search_spec good tableGood small (.empty plan start) inside
    (by omega : h.length < start + (h.length + 1))
  exact ⟨result, by simp [twowayMemmem, filled, prepared, searched], first⟩

end BSDLibC.Memmem
