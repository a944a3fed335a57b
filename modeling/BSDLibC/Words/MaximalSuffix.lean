import BSDLibC.Words.Suffixes

/-! A scan for the suffix of a word that comes last, with its period. -/

namespace BSDLibC.Words

variable {α : Type*} {lt : α → α → Prop} {n : List α} {i m p : Nat}

/-- The scan has come to the place `m`, with a candidate at the place `i`: a block of `p` letters that
repeats up to `m`, where every other start in the block comes before the block itself.
-/
structure Scanned (lt : α → α → Prop) (n : List α) (i m p : Nat) : Prop where
  pos : 0 < p
  block : i + p ≤ m
  inside : m ≤ n.length
  period (x : Nat) : i + p ≤ x → x < m → n[x]? = n[x - p]?
  least (o : Nat) : 0 < o → o < p → ∃ q, o + q < p ∧ (∀ j < q, n[i + o + j]? = n[i + j]?)
    ∧ Earlier lt n[i + o + q]? n[i + q]?
  before (s : Nat) : s < i → SuffixLt lt n s i

/-- The scan starts with the first letter. -/
theorem Scanned.start (some : 0 < n.length) : Scanned lt n 0 1 1 where
  pos := Nat.one_pos
  block := Nat.le_refl 1
  inside := some
  period x low high := by omega
  least o low high := by omega
  before s less := by omega

section

variable (scan : Scanned lt n i m p)

include scan

/-- Letters at the same place of two blocks are the same. -/
theorem Scanned.multiple (t x : Nat) (first : i + t * p ≤ x) (last : x < m)
    : n[x]? = n[x - t * p]? := by
  induction t with
  | zero => simp
  | succ t ih =>
      rw [Nat.add_mul, Nat.one_mul] at first ⊢
      rw [ih (by omega), scan.period (x - t * p) (by omega) (by omega)]
      congr 1
      omega

/-- A start after the candidate reads what stands at its place of the first block. -/
theorem Scanned.shifted (t o x : Nat) (last : i + t * p + o + x < m)
    : n[i + t * p + o + x]? = n[i + o + x]? := by
  rw [scan.multiple t _ (by omega) last]
  congr 1
  omega

/-- The letter that the period foretells. -/
theorem Scanned.foretold (t : Nat) (some : 0 < t) (first : i + t * p ≤ m)
    : n[m - t * p]? = n[m - p]? := by
  obtain ⟨t, rfl⟩ := Nat.exists_eq_succ_of_ne_zero (Nat.ne_of_gt some)
  have pos := scan.pos
  rw [Nat.succ_eq_add_one, Nat.add_mul, Nat.one_mul] at first ⊢
  rw [scan.multiple t (m - p) (by omega) (by omega)]
  congr 1
  omega

/-- The next letter is the one that the period foretells. -/
theorem Scanned.extend (more : m < n.length) (same : n[m]? = n[m - p]?)
    : Scanned lt n i (m + 1) p where
  pos := scan.pos
  block := Nat.le_succ_of_le scan.block
  inside := more
  period x low high := by
    by_cases last : x = m
    · exact last ▸ same
    · exact scan.period x low (by omega)
  least := scan.least
  before := scan.before

/-- A start after the candidate, by its block and its place in the block. -/
theorem Scanned.split (s : Nat) (after : i ≤ s) : ∃ t o, s = i + t * p + o ∧ o < p := by
  refine ⟨(s - i) / p, (s - i) % p, ?_, Nat.mod_lt _ scan.pos⟩
  have := Nat.div_add_mod' (s - i) p
  omega

/-- The next letter comes before the one that the period foretells: all that was read is one block. -/
theorem Scanned.grow (order : StrictOrder lt) (more : m < n.length)
    (less : Earlier lt n[m]? n[m - p]?)
    : Scanned lt n i (m + 1) (m + 1 - i) := by
  have pos := scan.pos
  have block := scan.block
  refine ⟨by omega, by omega, more, fun x low high => by omega, fun o first last => ?_,
    scan.before⟩
  obtain ⟨t, o', place, part⟩ := scan.split (i + o) (by omega)
  obtain rfl : o = t * p + o' := by omega
  rw [← Nat.add_assoc]
  by_cases whole : o' = 0
  · subst whole
    have some : 0 < t := Nat.pos_of_ne_zero fun zero => by simp [zero] at first
    refine ⟨m - (i + t * p), by omega, fun j before => ?_, ?_⟩
    · exact scan.shifted t 0 j (by omega)
    · rw [Nat.add_zero, (by omega : i + t * p + (m - (i + t * p)) = m),
        (by omega : i + (m - (i + t * p)) = m - t * p), scan.foretold t some (by omega)]
      exact less
  · obtain ⟨q, fits, same, earlier⟩ := scan.least o' (by omega) part
    by_cases seen : i + t * p + o' + q < m
    · refine ⟨q, by omega, fun j before => ?_, ?_⟩
      · rw [scan.shifted t o' j (by omega)]
        exact same j before
      · rw [scan.shifted t o' q seen]
        exact earlier
    · have some : 0 < t := Nat.pos_of_ne_zero fun zero => by simp only [zero] at seen; omega
      refine ⟨m - (i + t * p + o'), by omega, fun j before => ?_, ?_⟩
      · rw [scan.shifted t o' j (by omega)]
        exact same j (by omega)
      · rw [(by omega : i + t * p + o' + (m - (i + t * p + o')) = m)]
        have told := scan.foretold t some (by omega)
        by_cases here : m - (i + t * p + o') = q
        · rw [(by omega : m - t * p = i + o' + q)] at told
          rw [← told] at less
          rw [here]
          exact less.trans order earlier
        · rw [(by omega : m - t * p = i + o' + (m - (i + t * p + o'))),
            same _ (by omega)] at told
          rw [told]
          exact less

/-- The next letter comes after the one that the period foretells: the last block that has begun is
the candidate.
-/
theorem Scanned.restart (order : StrictOrder lt) (more : m < n.length) {t : Nat} (some : 0 < t)
    (begun : i + t * p ≤ m) (short : m < i + t * p + p) (less : Earlier lt n[m - p]? n[m]?)
    : Scanned lt n (i + t * p) (i + t * p + 1) 1 := by
  have pos := scan.pos
  obtain ⟨e, rfl⟩ : ∃ e, m = i + t * p + e := ⟨m - (i + t * p), by omega⟩
  have told : n[i + e]? = n[i + t * p + e - p]? := by
    rw [← scan.foretold t some (by omega)]
    congr 1
    omega
  have alike (x : Nat) (before : x < e) : n[i + t * p + x]? = n[i + x]? :=
    scan.shifted t 0 x (by omega)
  -- A start that reads no more than the candidate up to the place where they differ.
  have upTo (s : Nat) (same : ∀ x < e, n[s + x]? = n[i + x]?)
      (last : n[s + e]? = n[i + e]? ∨ Earlier lt n[s + e]? n[i + e]?)
      : SuffixLt lt n s (i + t * p) := by
    refine ⟨e, fun x before => (same x before).trans (alike x before).symm, ?_⟩
    rw [← told] at less
    rcases last with last | last
    · rw [last]
      exact less
    · exact last.trans order less
  refine ⟨Nat.one_pos, Nat.le_refl _, by omega, fun x low high => by omega,
    fun o low high => by omega, fun s before => ?_⟩
  rcases Nat.lt_or_ge s i with early | late
  · exact (scan.before s early).trans order (upTo i (fun _ _ => rfl) (.inl rfl))
  obtain ⟨t', o, rfl, part⟩ := scan.split s late
  have room : t' * p + p ≤ t * p := by
    have : t' < t := Nat.lt_of_mul_lt_mul_right (by omega : t' * p < t * p)
    calc t' * p + p = (t' + 1) * p := by rw [Nat.add_mul, Nat.one_mul]
      _ ≤ t * p := Nat.mul_le_mul_right p this
  by_cases whole : o = 0
  · subst whole
    exact upTo _ (fun x less => scan.shifted t' 0 x (by omega))
      (.inl (scan.shifted t' 0 e (by omega)))
  · obtain ⟨q, fits, same, earlier⟩ := scan.least o (by omega) part
    have shifted (x : Nat) (le : x ≤ q) : n[i + t' * p + o + x]? = n[i + o + x]? :=
      scan.shifted t' o x (by omega)
    by_cases near : q < e
    · refine ⟨q, fun x less => ?_, ?_⟩
      · rw [shifted x (by omega), same x less, alike x (by omega)]
      · rw [shifted q (Nat.le_refl q), alike q near]
        exact earlier
    · refine upTo _ (fun x less => ?_) ?_
      · rw [shifted x (by omega)]
        exact same x (by omega)
      · rw [shifted e (by omega)]
        by_cases here : e = q
        · exact .inr (here ▸ earlier)
        · exact .inl (same e (by omega))

/-- Where the scan ends, the candidate is the suffix that comes last. -/
theorem Scanned.maximal (ended : m = n.length) : MaximalAt lt n i := by
  have pos := scan.pos
  have block := scan.block
  have short (s : Nat) (after : i < s) (q : Nat) (last : n.length ≤ s + q) (some : i + q < n.length)
      (same : ∀ j < q, n[s + j]? = n[i + j]?) : SuffixLt lt n s i := by
    refine ⟨q, same, ?_⟩
    rw [List.getElem?_eq_none last, List.getElem?_eq_getElem some]
    trivial
  intro s other
  rcases Nat.lt_or_gt_of_ne other with before | after
  · exact scan.before s before
  by_cases outside : n.length ≤ s
  · exact short s after 0 outside (by omega) fun j less => by omega
  obtain ⟨t, o, rfl, part⟩ := scan.split s (Nat.le_of_lt after)
  by_cases whole : o = 0
  · refine short _ after (n.length - (i + t * p + o)) (by omega) (by omega) fun j less => ?_
    rw [scan.shifted t o j (by omega), whole]
    rfl
  · obtain ⟨q, fits, same, less⟩ := scan.least o (by omega) part
    by_cases seen : i + t * p + o + q < n.length
    · refine ⟨q, fun j before => ?_, ?_⟩
      · rw [scan.shifted t o j (by omega)]
        exact same j before
      · rw [scan.shifted t o q (by omega)]
        exact less
    · refine short _ after (n.length - (i + t * p + o)) (by omega) (by omega) fun j before => ?_
      rw [scan.shifted t o j (by omega)]
      exact same j (by omega)

/-- No suffix that starts with the candidate has a smaller period. -/
theorem Scanned.least_period (order : StrictOrder lt) {r : Nat} (some : 0 < r)
    (period : PeriodFrom n i r)
    : p ≤ r := by
  by_contra less
  obtain ⟨q, fits, _, earlier⟩ := scan.least r some (by omega)
  have := scan.block
  have := scan.inside
  refine earlier.ne order ?_
  rw [period (i + r + q) (by omega) (by omega)]
  congr 1
  omega

end

-----------------------------------------------------------------------------------------
-- Critical factorisations
-----------------------------------------------------------------------------------------

/-- A place of a word where every local period is a period of the word, with the period of the suffix
that starts there.
-/
structure Factored (n : List α) (c p : Nat) : Prop where
  pos : 0 < p
  inside : c + p ≤ n.length
  suffix : PeriodFrom n c p
  least (r : Nat) : 0 < r → PeriodFrom n c r → p ≤ r
  long (r : Nat) : 0 < r → LocalPeriod n c r → c < r
  whole (r : Nat) : 0 < r → LocalPeriod n c r → PeriodFrom n 0 r

/-- The later of the suffixes that come last in an order and in its reverse. -/
theorem Scanned.factored (order : StrictOrder lt) {c c' : Nat} (scan : Scanned lt n c n.length p)
    (max' : MaximalAt (fun a b => lt b a) n c') (later : c' ≤ c)
    : Factored n c p := by
  have max := scan.maximal rfl
  have pos := scan.pos
  have block := scan.block
  constructor
  case pos => exact pos
  case inside => exact block
  case suffix => exact scan.period
  case least => exact fun r some period => scan.least_period order some period
  case long => exact fun r some period => period.long order max (by omega) some
  case whole => exact fun r some period => period.period order max (by omega) some max' later

/-- Where the period of the suffix is none of the word, the word has no period that fits into the
suffix.
-/
theorem Factored.no_short_period {c : Nat} (factored : Factored n c p) (other : ¬ PeriodFrom n 0 p)
    (r : Nat) (some : 0 < r) (short : c + r ≤ n.length)
    : ¬ PeriodFrom n 0 r := by
  induction r using Nat.strongRecOn with
  | ind r ih =>
      intro period
      have least := factored.least r some period.mono
      have pos := factored.pos
      rcases Nat.lt_or_eq_of_le least with less | rfl
      · have rest := period.sub factored.suffix less short
        exact ih (r - p) (by omega) (by omega) (by omega) (factored.whole (r - p) (by omega) rest)
      · exact other period

end BSDLibC.Words
