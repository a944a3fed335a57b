import BSDLibC.Memmem.TwoWay

/-! `memmem` is the naive search. -/

namespace BSDLibC.Memmem

variable {w : Nat} {n h : List UInt8}

-----------------------------------------------------------------------------------------
-- Short needles
-----------------------------------------------------------------------------------------

/-- The number at a place of a list of bytes. -/
def byteAt (xs : List UInt8) (i : Nat) : Nat := (xs.getD i 0).toNat

theorem byteAt_lt (xs : List UInt8) (i : Nat) : byteAt xs i < 256 := UInt8.toNat_lt _

theorem getElem?_eq_getD {xs : List UInt8} {i : Nat} (inside : i < xs.length)
    : xs[i]? = some (xs.getD i 0) := by
  simp [inside]

theorem occurs_iff_bytes {s : Nat} (room : s + n.length ≤ h.length)
    : Occurs h n s ↔ ∀ j < n.length, byteAt h (s + j) = byteAt n j := by
  have same (j : Nat) (inside : j < n.length)
      : h[s + j]? = n[j]? ↔ byteAt h (s + j) = byteAt n j := by
    rw [getElem?_eq_getD inside, getElem?_eq_getD (by omega : s + j < h.length), Option.some_inj,
      ← UInt8.toNat_inj]
    rfl
  constructor
  · exact fun occurs j inside => (same j inside).mp (occurs.2 j inside)
  · exact fun bytes => ⟨room, fun j inside => (same j inside).mpr (bytes j inside)⟩

/-- The word that is kept is that of the last bytes. -/
theorem rolling_spec {l nw : Nat} {next : Nat → UInt8 → Nat} (size : n.length = l)
    (word : Nat → Nat)
    (rolls : ∀ s, s + l < h.length → next (word s) (h.getD (s + l) 0) = word (s + 1))
    (agrees : ∀ s, s + l ≤ h.length → (word s = nw ↔ Occurs h n s))
    {k s : Nat} (rest : s + l + k = h.length)
    : ∃ result, rolling l next nw h k (s + l) (word s) = some result
      ∧ FirstFrom h n s result := by
  subst size
  have found (s : Nat) (room : s + n.length ≤ h.length) (same : word s = nw)
      : FirstFrom h n s (some (s + n.length - n.length)) := by
    rw [Nat.add_sub_cancel]
    exact ⟨Nat.le_refl s, (agrees s room).mp same, fun t low high => by omega⟩
  induction k generalizing s with
  | zero =>
      rw [rolling]
      split
      next same => exact ⟨_, rfl, found s (by omega) same⟩
      next other =>
        refine ⟨none, rfl, fun t low occurs => ?_⟩
        have := occurs.1
        obtain rfl : t = s := by omega
        exact other ((agrees t this).mpr occurs)
  | succ k ih =>
      rw [rolling]
      split
      next same => exact ⟨_, rfl, found s (by omega) same⟩
      next other =>
        rw [getElem?_eq_getD (by omega), Option.bind_eq_bind, Option.bind_some, rolls s (by omega),
          (by omega : s + n.length + 1 = s + 1 + n.length)]
        obtain ⟨result, loop, first⟩ := ih (by omega : s + 1 + n.length + k = h.length)
        refine ⟨result, loop, first.skip (Nat.le_succ s) fun t low high occurs => ?_⟩
        obtain rfl : t = s := by omega
        exact other ((agrees t occurs.1).mpr occurs)

/-- Bits that do not meet are added. -/
theorem or_eq_add {a b : Nat} (i : Nat) (high : 2 ^ i ∣ a) (low : b < 2 ^ i) : a ||| b = a + b := by
  obtain ⟨a, rfl⟩ := high
  rw [Nat.mul_comm, ← Nat.shiftLeft_eq, Nat.shiftLeft_add_eq_or_of_lt low]

theorem word_two {x y : Nat} (small : y < 256) : x <<< 8 ||| y = x * 256 + y := by
  rw [Nat.shiftLeft_eq, or_eq_add 8 (by omega) (by omega)]

theorem word_three {x y z : Nat} (second : y < 256) (third : z < 256)
    : x <<< 24 ||| y <<< 16 ||| z <<< 8 = x * 16777216 + y * 65536 + z * 256 := by
  simp only [Nat.shiftLeft_eq]
  rw [or_eq_add (a := x * 2 ^ 24) 24 (by omega) (by omega), or_eq_add 16 (by omega) (by omega)]

theorem word_four {x y z t : Nat} (second : y < 256) (third : z < 256) (fourth : t < 256)
    : x <<< 24 ||| y <<< 16 ||| z <<< 8 ||| t = x * 16777216 + y * 65536 + z * 256 + t := by
  rw [word_three second third, or_eq_add 8 (by omega) (by omega)]

section

variable {start : Nat} (room : start + n.length ≤ h.length)

include room

theorem twobyteMemmem_spec (two : n.length = 2)
    : ∃ result, twobyteMemmem h start (h.length - start) n = some result
      ∧ FirstFrom h n start result := by
  have small (xs : List UInt8) (i : Nat) := byteAt_lt xs i
  rw [twobyteMemmem, getElem?_eq_getD (by omega : 0 < n.length),
    getElem?_eq_getD (by omega : 1 < n.length), getElem?_eq_getD (by omega : start < h.length),
    getElem?_eq_getD (by omega : start + 1 < h.length), diff_eq (by omega)]
  simp only [Option.bind_eq_bind, Option.bind_some]
  change ∃ result, rolling 2 _ (byteAt n 0 <<< 8 ||| byteAt n 1) h _ (start + 2)
    (byteAt h start <<< 8 ||| byteAt h (start + 1)) = some result ∧ _
  rw [word_two (small _ _), word_two (small _ _)]
  refine rolling_spec two (fun s => byteAt h s * 256 + byteAt h (s + 1)) (fun s more => ?_)
    (fun s room => ?_) (by omega)
  · have := small h s
    have := small h (s + 1)
    have := small h (s + 2)
    change (_ <<< 8 ||| byteAt h (s + 2)) % 2 ^ 16 = _
    rw [word_two (small _ _)]
    simp only [Nat.add_assoc, Nat.reduceAdd]
    omega
  · have := small h s
    have := small h (s + 1)
    have := small n 0
    have := small n 1
    rw [occurs_iff_bytes (by omega), two]
    constructor
    · intro same j inside
      match j with
      | 0 => simp only [Nat.add_zero]; omega
      | 1 => omega
    · intro same
      have first := same 0 (by omega)
      have second := same 1 (by omega)
      simp only [Nat.add_zero] at first
      omega

theorem threebyteMemmem_spec (three : n.length = 3)
    : ∃ result, threebyteMemmem h start (h.length - start) n = some result
      ∧ FirstFrom h n start result := by
  have small (xs : List UInt8) (i : Nat) := byteAt_lt xs i
  rw [threebyteMemmem, getElem?_eq_getD (by omega : 0 < n.length),
    getElem?_eq_getD (by omega : 1 < n.length), getElem?_eq_getD (by omega : 2 < n.length),
    getElem?_eq_getD (by omega : start < h.length),
    getElem?_eq_getD (by omega : start + 1 < h.length),
    getElem?_eq_getD (by omega : start + 2 < h.length), diff_eq (by omega)]
  simp only [Option.bind_eq_bind, Option.bind_some]
  change ∃ result, rolling 3 _ (byteAt n 0 <<< 24 ||| byteAt n 1 <<< 16 ||| byteAt n 2 <<< 8) h _
    (start + 3) (byteAt h start <<< 24 ||| byteAt h (start + 1) <<< 16
      ||| byteAt h (start + 2) <<< 8) = some result ∧ _
  rw [word_three (small _ _) (small _ _), word_three (small _ _) (small _ _)]
  refine rolling_spec three
    (fun s => byteAt h s * 16777216 + byteAt h (s + 1) * 65536 + byteAt h (s + 2) * 256)
    (fun s more => ?_) (fun s room => ?_) (by omega)
  · have := small h (s + 1)
    have := small h (s + 2)
    have := small h (s + 3)
    change (_ ||| byteAt h (s + 3)) <<< 8 % 2 ^ 32 = _
    rw [or_eq_add 8 (by omega) (by omega), Nat.shiftLeft_eq]
    simp only [Nat.add_assoc, Nat.reduceAdd]
    omega
  · have := small h s
    have := small h (s + 1)
    have := small h (s + 2)
    have := small n 0
    have := small n 1
    have := small n 2
    rw [occurs_iff_bytes (by omega), three]
    constructor
    · intro same j inside
      match j with
      | 0 => simp only [Nat.add_zero]; omega
      | 1 => omega
      | 2 => omega
    · intro same
      have first := same 0 (by omega)
      have second := same 1 (by omega)
      have third := same 2 (by omega)
      simp only [Nat.add_zero] at first
      omega

theorem fourbyteMemmem_spec (four : n.length = 4)
    : ∃ result, fourbyteMemmem h start (h.length - start) n = some result
      ∧ FirstFrom h n start result := by
  have small (xs : List UInt8) (i : Nat) := byteAt_lt xs i
  rw [fourbyteMemmem, getElem?_eq_getD (by omega : 0 < n.length),
    getElem?_eq_getD (by omega : 1 < n.length), getElem?_eq_getD (by omega : 2 < n.length),
    getElem?_eq_getD (by omega : 3 < n.length), getElem?_eq_getD (by omega : start < h.length),
    getElem?_eq_getD (by omega : start + 1 < h.length),
    getElem?_eq_getD (by omega : start + 2 < h.length),
    getElem?_eq_getD (by omega : start + 3 < h.length), diff_eq (by omega)]
  simp only [Option.bind_eq_bind, Option.bind_some]
  change ∃ result, rolling 4 _ (byteAt n 0 <<< 24 ||| byteAt n 1 <<< 16 ||| byteAt n 2 <<< 8
      ||| byteAt n 3) h _ (start + 4) (byteAt h start <<< 24 ||| byteAt h (start + 1) <<< 16
      ||| byteAt h (start + 2) <<< 8 ||| byteAt h (start + 3)) = some result ∧ _
  rw [word_four (small _ _) (small _ _) (small _ _), word_four (small _ _) (small _ _) (small _ _)]
  refine rolling_spec four
    (fun s => byteAt h s * 16777216 + byteAt h (s + 1) * 65536 + byteAt h (s + 2) * 256
      + byteAt h (s + 3)) (fun s more => ?_) (fun s room => ?_) (by omega)
  · have := small h (s + 1)
    have := small h (s + 2)
    have := small h (s + 3)
    have := small h (s + 4)
    change (_ <<< 8 ||| byteAt h (s + 4)) % 2 ^ 32 = _
    rw [word_two (small _ _)]
    simp only [Nat.add_assoc, Nat.reduceAdd]
    omega
  · have := small h s
    have := small h (s + 1)
    have := small h (s + 2)
    have := small h (s + 3)
    have := small n 0
    have := small n 1
    have := small n 2
    have := small n 3
    rw [occurs_iff_bytes (by omega), four]
    constructor
    · intro same j inside
      match j with
      | 0 => simp only [Nat.add_zero]; omega
      | 1 => omega
      | 2 => omega
      | 3 => omega
    · intro same
      have first := same 0 (by omega)
      have second := same 1 (by omega)
      have third := same 2 (by omega)
      have fourth := same 3 (by omega)
      simp only [Nat.add_zero] at first
      omega

end

-----------------------------------------------------------------------------------------
-- memmem
-----------------------------------------------------------------------------------------

theorem memchr_spec (c : UInt8) (rest : List UInt8) (at_ : Nat)
    : (memchr c rest at_ = none ∧ c ∉ rest)
      ∨ ∃ i, memchr c rest at_ = some (at_ + i) ∧ rest[i]? = some c
        ∧ ∀ j < i, rest[j]? ≠ some c := by
  induction rest generalizing at_ with
  | nil => exact .inl ⟨rfl, by simp⟩
  | cons byte rest ih =>
      rw [memchr]
      split
      next same => exact .inr ⟨0, rfl, by simp [same], fun j less => by omega⟩
      next other =>
        rcases ih (at_ + 1) with ⟨call, absent⟩ | ⟨i, call, found, before⟩
        · exact .inl ⟨call, by simp [absent, Ne.symm other]⟩
        · refine .inr ⟨i + 1, by rw [call]; congr 1; omega, found, fun j less => ?_⟩
          cases j with
          | zero => simpa using other
          | succ j => exact before j (by omega)

/-- `memmem` returns with the first occurrence. -/
theorem memmem_first (small : h.length < 2 ^ w)
    : ∃ result, memmem w h n = some result ∧ FirstFrom h n 0 result := by
  rw [memmem]
  split
  next empty =>
    refine ⟨some 0, rfl, Nat.le_refl 0, ⟨by omega, fun j less => by omega⟩, fun t _ less => ?_⟩
    omega
  next nonempty =>
  split
  next short => exact ⟨none, rfl, fun t _ occurs => by have := occurs.1; omega⟩
  next long =>
  have head := getElem?_eq_getD (by omega : 0 < n.length)
  rw [head, Option.bind_eq_bind, Option.bind_some]
  have starts (s : Nat) (occurs : Occurs h n s) : h[s]? = some (n.getD 0 0) :=
    (occurs.2 0 (by omega)).trans head
  rcases memchr_spec (n.getD 0 0) h 0 with ⟨call, absent⟩ | ⟨start, call, found, before⟩
  · rw [call]
    exact ⟨none, rfl, fun t _ occurs => absent (List.mem_of_getElem? (starts t occurs))⟩
  rw [call, Nat.zero_add]
  have inside : start < h.length := (List.getElem?_eq_some_iff.mp found).1
  have later (result : Option Nat) (first : FirstFrom h n start result) : FirstFrom h n 0 result :=
    first.skip (Nat.zero_le _) fun s _ less occurs => before s less (starts s occurs)
  simp only
  split
  next one =>
    refine ⟨some start, rfl, later _ ⟨Nat.le_refl _, ⟨by omega, fun j less => ?_⟩,
      fun t low high => by omega⟩⟩
    obtain rfl : j = 0 := by omega
    exact found.trans head.symm
  next many =>
  rw [diff_eq (Nat.le_of_lt inside), Option.bind_eq_bind, Option.bind_some]
  split
  next short =>
    exact ⟨none, rfl, later _ fun t low occurs => by have := occurs.1; omega⟩
  next =>
  have room : start + n.length ≤ h.length := by omega
  have all (search : Option (Option Nat))
      (spec : ∃ result, search = some result ∧ FirstFrom h n start result)
      : ∃ result, search = some result ∧ FirstFrom h n 0 result := by
    obtain ⟨result, same, first⟩ := spec
    exact ⟨result, same, later result first⟩
  split
  next two => exact all _ (twobyteMemmem_spec room two)
  next =>
  split
  next three => exact all _ (threebyteMemmem_spec room three)
  next =>
  split
  next four => exact all _ (fourbyteMemmem_spec room four)
  next => exact all _ (twowayMemmem_spec (by omega) (by omega) (Nat.le_of_lt inside))

/-- The naive search: the smallest offset where the bytes of the haystack are those of the needle. -/
def naive (h n : List UInt8) : Option Nat :=
  (List.range (h.length + 1)).find? fun i =>
    i + n.length ≤ h.length && (h.drop i).take n.length == n

theorem occurs_iff_slice (s : Nat)
    : Occurs h n s ↔ s + n.length ≤ h.length ∧ (h.drop s).take n.length = n := by
  refine and_congr_right fun room => ?_
  constructor
  · intro same
    refine List.ext_getElem? fun j => ?_
    rw [List.getElem?_take, List.getElem?_drop]
    split
    next inside => exact same j inside
    next outside => rw [List.getElem?_eq_none (by omega)]
  · intro same j inside
    have here := congrArg (·[j]?) same
    simp only [List.getElem?_take, if_pos inside, List.getElem?_drop] at here
    exact here

theorem FirstFrom.eq_naive {result : Option Nat} (first : FirstFrom h n 0 result)
    : result = naive h n := by
  have test (i : Nat)
      : (i + n.length ≤ h.length && (h.drop i).take n.length == n) = true ↔ Occurs h n i := by
    rw [occurs_iff_slice, Bool.and_eq_true, decide_eq_true_iff, beq_iff_eq]
  cases result with
  | none =>
      refine (List.find?_eq_none.mpr fun i _ => ?_).symm
      rw [test]
      exact first i (Nat.zero_le i)
  | some s =>
      obtain ⟨_, occurs, before⟩ := first
      have := occurs.1
      refine (List.find?_range_eq_some.mpr ⟨(test s).mpr occurs, ?_, fun j less => ?_⟩).symm
      · exact List.mem_range.mpr (by omega)
      · rw [Bool.not_eq_true', ← Bool.not_eq_true, test]
        exact before j (Nat.zero_le j) less

/-- `memmem` finds what the naive search finds. -/
theorem memmem_eq_naive (small : h.length < 2 ^ w) : memmem w h n = some (naive h n) := by
  obtain ⟨result, call, first⟩ := memmem_first (n := n) small
  rw [call, first.eq_naive]

/-- No read, sum, table entry or loop of `memmem` goes wrong, and it does not point behind the
haystack.
-/
theorem memmem_returns (small : h.length < 2 ^ w)
    : ∃ result, memmem w h n = some result
      ∧ ∀ s, result = some s → s + n.length ≤ h.length := by
  obtain ⟨result, call, first⟩ := memmem_first (n := n) small
  refine ⟨result, call, ?_⟩
  rintro s rfl
  exact first.2.1.1

/-- A needle with a period, in a haystack that has half of it first. -/
theorem memmem_eq_naive_periodic
    : memmem 64 [1, 2, 1, 1, 2, 1, 2, 1, 1, 2, 1] [1, 2, 1, 2, 1, 1]
      = some (naive [1, 2, 1, 1, 2, 1, 2, 1, 1, 2, 1] [1, 2, 1, 2, 1, 1]) :=
  memmem_eq_naive (by decide)

/-- A needle that starts after all others in its own order. -/
theorem memmem_returns_descending
    : ∃ result, memmem 32 [7, 6, 5, 4, 3, 2, 1] [5, 4, 3, 2, 1] = some result
      ∧ ∀ s, result = some s → s + [5, 4, 3, 2, 1].length ≤ [7, 6, 5, 4, 3, 2, 1].length :=
  memmem_returns (by decide)

end BSDLibC.Memmem
