import BSDLibC.Vis.Run

/-! Character references of HTML by name. The decoder goes through the sorted table of names with
an index into it and an index into the names, and compares one letter with the last one matched.
-/

namespace BSDLibC.Vis
open BSDLibC.Ctype

/-- Calls of `unvis` on the characters of a string, up to the first that does not return
`UNVIS_NOCHAR`: the value and the result of that call, and the characters left.
-/
def unvisCalls (flag : Flags) : UInt8 → Astate → List UInt8 → UInt8 × Code × List UInt8
  | cp, _, [] => (cp, .nochar, [])
  | cp, astate, c :: rest =>
      match unvis cp c astate flag with
      | (cp, astate, .nochar) => unvisCalls flag cp astate rest
      | (cp, _, code) => (cp, code, rest)

/-- The search for a character at place `i` of the names, from the entry `ia` on. -/
def search (ia i c : Nat) : Option Nat :=
  findName i (if i = 0 then 0 else nvName ia (i - 1)) c ia (nv.length - ia)

/-- The entry that the decoder comes to from entry `ia` with the characters of a string. -/
def follow : Nat → Nat → List Nat → Option Nat
  | ia, i, [] => search ia i 0
  | ia, i, c :: w => (search ia i c).bind (follow · (i + 1) w)

theorem findName_spec {i lc c ia left r : Nat} (h : findName i lc c ia left = some r)
    : ia ≤ r ∧ r < ia + left ∧ nvName r i = c := by
  induction left generalizing ia with
  | zero => cases h
  | succ left ih =>
      rw [findName] at h
      split at h
      · cases h
      · split at h
        next found =>
          cases h
          exact ⟨Nat.le_refl _, by omega, found⟩
        next =>
          have := ih h
          omega

theorem search_spec {ia i c r : Nat} (h : search ia i c = some r)
    : ia ≤ r ∧ r < nv.length ∧ nvName r i = c := by
  have := findName_spec h
  omega

/-- The entries that the search looks at. -/
def searched (i lc : Nat) : Nat → Nat → List Nat
  | _, 0 => []
  | ia, left + 1 =>
      if i ≠ 0 ∧ nvName ia (i - 1) ≠ lc then [] else ia :: searched i lc (ia + 1) left

theorem findName_searched {i lc c ia left r : Nat} (h : findName i lc c ia left = some r)
    : r ∈ searched i lc ia left := by
  induction left generalizing ia with
  | zero => cases h
  | succ left ih =>
      rw [findName] at h
      split at h
      · cases h
      next same =>
        rw [searched, if_neg same]
        split at h
        next =>
          cases h
          exact List.mem_cons_self
        next => exact List.mem_cons_of_mem _ (ih h)

/-- The entries that some character leads to from an entry. -/
def children (ia i : Nat) : List Nat :=
  (searched i (if i = 0 then 0 else nvName ia (i - 1)) ia (nv.length - ia)).filter fun r =>
    nvName r i ≠ 0 && search ia i (nvName r i) = some r

/-- The strings with which the decoder comes from entry `ia` to the end of a name, with the entry
of the name.
-/
def accepted : Nat → Nat → Nat → List (List Nat × Nat)
  | 0, ia, i => ((search ia i 0).map fun r => ([], r)).toList
  | letters + 1, ia, i =>
      ((search ia i 0).map fun r => ([], r)).toList
        ++ (children ia i).flatMap fun r =>
          (accepted letters r (i + 1)).map fun (w, r') => (nvName r i :: w, r')

theorem nvName_six : ∀ r < nv.length, nvName r 6 = 0 := by decide +kernel

theorem mem_children {ia i r : Nat}
    : r ∈ children ia i ↔ nvName r i ≠ 0 ∧ search ia i (nvName r i) = some r := by
  simp only [children, List.mem_filter, Bool.and_eq_true, decide_eq_true_eq,
    and_iff_right_iff_imp, and_imp]
  intro _ found
  exact findName_searched found

/-- The strings that the decoder follows to a name are the ones listed. -/
theorem follow_eq_some_iff {letters r : Nat} (ia i : Nat) {w : List Nat} (places : i + letters = 6)
    (text : 0 ∉ w)
    : follow ia i w = some r ↔ (w, r) ∈ accepted letters ia i := by
  induction letters generalizing ia i w with
  | zero =>
      cases w with
      | nil => simp [follow, accepted, Option.map_eq_some_iff]
      | cons c w =>
          have none : search ia i c = none := by
            by_contra found
            obtain ⟨r, found⟩ := Option.ne_none_iff_exists'.mp found
            have ⟨_, less, same⟩ := search_spec found
            obtain rfl : i = 6 := places
            rw [nvName_six r less] at same
            exact text (by simp [same])
          simp [follow, accepted, none]
  | succ letters ih =>
      cases w with
      | nil => simp [follow, accepted, Option.map_eq_some_iff]
      | cons c w =>
          rw [List.mem_cons, not_or] at text
          have rest (r' : Nat) := ih r' (i + 1) (by omega) text.2
          simp only [follow, Option.bind_eq_some_iff, accepted, List.mem_append, Option.mem_toList,
            Option.map_eq_some_iff, List.mem_flatMap, List.mem_map, mem_children, Prod.mk.injEq,
            rest]
          constructor
          · rintro ⟨r', found, inside⟩
            have ⟨_, _, same⟩ := search_spec found
            refine Or.inr ⟨r', ⟨?_, ?_⟩, (w, r), inside, ?_⟩
            · rw [same]
              exact Ne.symm text.1
            · rw [same]
              exact found
            · simp [same]
          · rintro (⟨_, _, none, _⟩ | ⟨r', ⟨_, found⟩, ⟨w', r''⟩, inside, ⟨rfl, rfl⟩, rfl⟩)
            · cases none
            · exact ⟨r', found, inside⟩

-----------------------------------------------------------------------------------------
-- The calls
-----------------------------------------------------------------------------------------

/-- The value of an entry. -/
def nvValue (ia : Nat) : UInt8 := (nv.getD ia ("", 0)).2

theorem nv_length : nv.length = 100 := rfl

section

variable (flag : Flags) (ia i : Nat) {w : List UInt8}

/-- A letter goes on with the search, or ends it. -/
theorem unvis_letter (entry : ia < nv.length) {c : UInt8} (letter : c ≠ 0 ∧ c ≠ 0x3b)
    : (∀ r, search ia i c.toNat = some r
        → unvis (UInt8.ofNat ia) c ⟨.string, i⟩ flag
          = (UInt8.ofNat r, ⟨.string, i + 1⟩, .nochar))
      ∧ (search ia i c.toNat = none
        → unvis (UInt8.ofNat ia) c ⟨.string, i⟩ flag = (UInt8.ofNat ia, ss .ground, .synbad)) := by
  rw [nv_length] at entry
  have index : (UInt8.ofNat ia).toNat = ia := by
    rw [UInt8.toNat_ofNat']
    omega
  have semicolon : c.toNat ≠ chr ';' := fun same => letter.2 (UInt8.toNat_inj.mp same)
  have nonzero : c.toNat ≠ 0 := fun same => letter.1 (UInt8.toNat_inj.mp same)
  constructor
  · intro r found
    rw [search] at found
    simp [unvis, unvisString, index, semicolon, found, nonzero]
  · intro none
    rw [search] at none
    simp [unvis, unvisString, index, semicolon, none]

/-- The semicolon ends a name. -/
theorem unvis_semicolon (entry : ia < nv.length)
    : (∀ r, search ia i 0 = some r
        → unvis (UInt8.ofNat ia) 0x3b ⟨.string, i⟩ flag = (nvValue r, ss .ground, .valid))
      ∧ (search ia i 0 = none
        → unvis (UInt8.ofNat ia) 0x3b ⟨.string, i⟩ flag
          = (UInt8.ofNat ia, ss .ground, .synbad)) := by
  rw [nv_length] at entry
  have index : (UInt8.ofNat ia).toNat = ia := by
    rw [UInt8.toNat_ofNat']
    omega
  have semicolon : (0x3b : UInt8).toNat = chr ';' := rfl
  constructor
  · intro r found
    rw [search] at found
    simp [unvis, unvisString, index, semicolon, found, nvValue]
  · intro none
    rw [search] at none
    simp [unvis, unvisString, index, semicolon, none]

/-- The calls on a name and its semicolon follow the name through the table. -/
theorem unvisCalls_follow (entry : ia < nv.length) (letters : ∀ c ∈ w, c ≠ 0 ∧ c ≠ 0x3b)
    : (∀ r, follow ia i (w.map UInt8.toNat) = some r
        → unvisCalls flag (UInt8.ofNat ia) ⟨.string, i⟩ (w ++ [0x3b]) = (nvValue r, .valid, []))
      ∧ (follow ia i (w.map UInt8.toNat) = none
        → (unvisCalls flag (UInt8.ofNat ia) ⟨.string, i⟩ (w ++ [0x3b])).2.1 = .synbad) := by
  induction w generalizing ia i with
  | nil =>
      have ⟨valid, bad⟩ := unvis_semicolon flag ia i entry
      constructor
      · intro r found
        simp [unvisCalls, valid r found]
      · intro none
        simp [unvisCalls, bad none]
  | cons c w ih =>
      have ⟨goes, bad⟩ := unvis_letter flag ia i entry (letters c (by simp))
      simp only [List.map_cons, follow, List.cons_append, unvisCalls]
      cases found : search ia i c.toNat with
      | none => simp [bad found]
      | some r =>
          rw [goes r found]
          exact ih r (i + 1) (search_spec found).2.1 fun c mem => letters c (by simp [mem])

end

-----------------------------------------------------------------------------------------
-- The names
-----------------------------------------------------------------------------------------

def codesOf (name : String) : List Nat := name.toList.map chr

/-- The names of the table with their values. -/
def entities : List (List Nat × UInt8) := nv.map fun (name, value) => (codesOf name, value)

/-- The strings that are not in the table and that the search takes for a name all the same. In each
the search passes on to an entry that shares the last letter but not all letters before it.
-/
def misread : List (List Nat) :=
  ["Aril", "Arilde", "Atil", "Iumlde", "Ogrash", "Otil", "aril", "arilde", "atil", "macro",
    "macrot", "microt", "otil", "plund", "rect"].map codesOf

theorem accepted_names
    : ∀ entry ∈ accepted 6 0 0, entry.1 ∈ misread
      ∨ entry.1 = codesOf (nv.getD entry.2 ("", 0)).1 := by
  decide +kernel

theorem follow_entities
    : ∀ entry ∈ entities, (follow 0 0 entry.1).map nvValue = some entry.2
      ∧ entry.1 ∉ misread := by
  decide +kernel

theorem follow_misread : ∀ w ∈ misread, (follow 0 0 w).isSome := by
  decide +kernel

theorem follow_lt {ia i r : Nat} {w : List Nat} (h : follow ia i w = some r) : r < nv.length := by
  induction w generalizing ia i with
  | nil => exact (search_spec h).2.1
  | cons c w ih =>
      obtain ⟨next, -, rest⟩ := Option.bind_eq_some_iff.mp h
      exact ih rest

/-- The search ends at an entry with the name searched for, or it is one of those misread. -/
theorem follow_some {r : Nat} {w : List Nat} (text : 0 ∉ w) (h : follow 0 0 w = some r)
    : w ∈ misread ∨ (w, nvValue r) ∈ entities := by
  have less := follow_lt h
  rcases accepted_names _ ((follow_eq_some_iff 0 0 rfl text).mp h) with bad | name
  · exact Or.inl bad
  · refine Or.inr (List.mem_map.mpr ⟨nv.getD r ("", 0), ?_, ?_⟩)
    · rw [List.getD_eq_getElem?_getD, List.getElem?_eq_getElem less, Option.getD_some]
      exact List.getElem_mem less
    · simp only at name
      simp [name, nvValue]

/-- `unvis` on a reference by name. -/
def unvisEntity (flag : Flags) (cp : UInt8) (w : List UInt8) : UInt8 × Code × List UInt8 :=
  unvisCalls flag cp (ss .ground) (0x26 :: w ++ [0x3b])

/-- The decoder recognises a name exactly if the table has it. -/
def Exact (flag : Flags) (cp : UInt8) (w : List UInt8) : Prop :=
  (∀ v, unvisEntity flag cp w = (v, .valid, []) ↔ (w.map UInt8.toNat, v) ∈ entities)
  ∧ ((∀ v, (w.map UInt8.toNat, v) ∉ entities) → (unvisEntity flag cp w).2.1 = .synbad)

section

variable {flag : Flags} {w : List UInt8}

/-- After the ampersand the search starts at the first entry. -/
theorem unvisEntity_eq (html : flag.http1866 = true) (cp : UInt8) (letters : 0x23 ∉ w)
    : unvisEntity flag cp w = unvisCalls flag 0 ⟨.string, 0⟩ (w ++ [0x3b]) := by
  have amp : unvis cp 0x26 (ss .ground) flag = (0, ss .amp, .nochar) := by
    simp [unvis, ss, html, chr]
  have first (c : UInt8) (other : c ≠ 0x23)
      : unvis 0 c (ss .amp) flag = unvis 0 c ⟨.string, 0⟩ flag := by
    have hash : c.toNat ≠ chr '#' := fun same => other (UInt8.toNat_inj.mp same)
    simp [unvis, ss, hash]
  rw [unvisEntity, List.cons_append, unvisCalls, amp]
  cases w with
  | nil => simp only [List.nil_append, unvisCalls, first 0x3b (by decide)]
  | cons c w =>
      have other : c ≠ 0x23 := fun same => letters (by simp [same])
      simp only [List.cons_append, unvisCalls, first c other]

/-- The names of the table are recognised, and nothing else but the strings that are misread. -/
theorem exact_iff (html : flag.http1866 = true) (cp : UInt8)
    (letters : 0 ∉ w ∧ 0x23 ∉ w ∧ 0x3b ∉ w)
    : Exact flag cp w ↔ w.map UInt8.toNat ∉ misread := by
  obtain ⟨nul, hash, semicolon⟩ := letters
  have text : 0 ∉ w.map UInt8.toNat := by
    intro mem
    obtain ⟨c, inside, zero⟩ := List.mem_map.mp mem
    obtain rfl : c = 0 := UInt8.toNat_inj.mp zero
    exact nul inside
  have ⟨valid, bad⟩ := unvisCalls_follow flag 0 0 (by decide)
    fun c mem => ⟨fun zero => nul (zero ▸ mem), fun same => semicolon (same ▸ mem)⟩
  rw [Exact, unvisEntity_eq html cp hash]
  constructor
  · rintro ⟨recognised, -⟩ inside
    obtain ⟨r, found⟩ := Option.isSome_iff_exists.mp (follow_misread _ inside)
    exact (follow_entities _ ((recognised _).mp (valid r found))).2 inside
  · intro outside
    cases found : follow 0 0 (w.map UInt8.toNat) with
    | none =>
        have synbad := bad found
        refine ⟨fun v => ⟨fun result => ?_, fun entry => ?_⟩, fun _ => synbad⟩
        · rw [show UInt8.ofNat 0 = 0 from rfl, result] at synbad
          cases synbad
        · have := (follow_entities _ entry).1
          rw [found] at this
          cases this
    | some r =>
        have entry := (follow_some text found).resolve_left outside
        refine ⟨fun v => ?_, fun none => absurd entry (none _)⟩
        rw [show (0 : UInt8) = UInt8.ofNat 0 from rfl, valid r found]
        constructor
        · intro same
          rw [← (Prod.mk.inj same).1]
          exact entry
        · intro other
          have := (follow_entities _ other).1
          rw [found] at this
          rw [Option.some.inj this]

end

/-- The name of the copyright sign. -/
theorem exact_copy
    : Exact { Flags.none with http1866 := true } 0 [0x63, 0x6f, 0x70, 0x79]
      ↔ [0x63, 0x6f, 0x70, 0x79].map UInt8.toNat ∉ misread :=
  exact_iff rfl 0 (by decide)

/-- A string that is no name and that is decoded as the micro sign. -/
theorem unvisEntity_macro
    : (∀ v, (codesOf "macro", v) ∉ entities)
      ∧ unvisEntity { Flags.none with http1866 := true } 0 [0x6d, 0x61, 0x63, 0x72, 0x6f]
        = (181, .valid, []) := by
  constructor
  · intro v mem
    have inside : codesOf "macro" ∈ misread := by decide +kernel
    exact (follow_entities _ mem).2 inside
  · decide +kernel

end BSDLibC.Vis
