import BSDLibC.Env.Store

/-! The environment as a list of strings. The first string of a name decides its value, so the
list is a finite map from names to values.
-/

namespace BSDLibC.Env

variable {name other text value : List UInt8} {texts : List (List UInt8)}

/-- A name that `setenv` accepts. -/
structure ValidName (name : List UInt8) : Prop where
  nonempty : name ≠ []
  plain : equalSign ∉ name

/-- The string of a variable. -/
def variableText (name value : List UInt8) : List UInt8 := name ++ equalSign :: value

/-- A string sets the variable with this name. -/
def Sets (name text : List UInt8) : Bool := isVariable text name name.length

theorem sets_iff : Sets name text ↔ ∃ value, text = variableText name value := by
  simp only [Sets, isVariable, List.take_length, Bool.and_eq_true, decide_eq_true_eq,
    variableText]
  constructor
  · rintro ⟨same, sign⟩
    obtain ⟨inside, at_end⟩ := List.getElem?_eq_some_iff.mp sign
    refine ⟨text.drop (name.length + 1), ?_⟩
    rw [← at_end, List.getElem_cons_drop]
    nth_rewrite 1 [← same]
    exact (List.take_append_drop _ _).symm
  · rintro ⟨value, rfl⟩
    simp

theorem sets_variableText (name value : List UInt8) : Sets name (variableText name value) :=
  sets_iff.mpr ⟨value, rfl⟩

theorem variableText_inj {value' : List UInt8} (valid : equalSign ∉ name)
    (valid' : equalSign ∉ other) (same : variableText name value = variableText other value')
    : name = other ∧ value = value' := by
  have first : (variableText name value).takeWhile (· ≠ equalSign) = name := by
    rw [variableText, List.takeWhile_append_of_pos]
    · simp
    · intro c member
      simpa using ne_of_mem_of_not_mem member valid
  have second : (variableText other value').takeWhile (· ≠ equalSign) = other := by
    rw [variableText, List.takeWhile_append_of_pos]
    · simp
    · intro c member
      simpa using ne_of_mem_of_not_mem member valid'
  have names : name = other := by rw [← first, same, second]
  subst names
  simpa [variableText] using same

/-- A string sets at most one variable. -/
theorem sets_unique (valid : ValidName name) (valid' : ValidName other) (sets : Sets name text)
    (sets' : Sets other text)
    : name = other := by
  obtain ⟨value, rfl⟩ := sets_iff.mp sets
  obtain ⟨value', same⟩ := sets_iff.mp sets'
  exact (variableText_inj valid.plain valid'.plain same).1

/-- The value of a name. -/
def valueOf (texts : List (List UInt8)) (name : List UInt8) : Option (List UInt8) :=
  (texts.find? (Sets name)).map (List.drop (name.length + 1))

/-- The position of the first string of a name, or the end of the list. -/
def position (texts : List (List UInt8)) (name : List UInt8) : Nat := texts.findIdx (Sets name)

/-- The strings of all other names. -/
def others (texts : List (List UInt8)) (name : List UInt8) : List (List UInt8) :=
  texts.filter (fun text => !Sets name text)

/-- A new value for a name. -/
def assign (texts : List (List UInt8)) (name value : List UInt8) : List (List UInt8) :=
  if position texts name < texts.length then
    texts.set (position texts name) (variableText name value)
  else
    texts ++ [variableText name value]

theorem position_le : position texts name ≤ texts.length := List.findIdx_le_length

theorem valueOf_eq_none (absent : ∀ text ∈ texts, ¬ Sets name text) : valueOf texts name = none := by
  rw [valueOf, List.find?_eq_none.mpr absent, Option.map_none]

/-- The list around the first string of a name. -/
theorem split_position (texts : List (List UInt8)) (name : List UInt8)
    : (∃ before after value, texts = before ++ variableText name value :: after
        ∧ position texts name = before.length ∧ ∀ text ∈ before, ¬ Sets name text)
      ∨ (position texts name = texts.length ∧ ∀ text ∈ texts, ¬ Sets name text) := by
  induction texts with
  | nil => exact Or.inr ⟨rfl, by simp⟩
  | cons head tail ih =>
      by_cases sets : Sets name head
      · obtain ⟨value, rfl⟩ := sets_iff.mp sets
        refine Or.inl ⟨[], tail, value, rfl, ?_, by simp⟩
        simp [position, List.findIdx_cons, sets]
      · have next : position (head :: tail) name = position tail name + 1 := by
          simp [position, List.findIdx_cons, sets]
        rcases ih with ⟨before, after, value, rfl, at_before, none⟩ | ⟨at_end, none⟩
        · refine Or.inl ⟨head :: before, after, value, rfl, ?_, ?_⟩
          · rw [next, at_before, List.length_cons]
          · simpa [sets] using none
        · refine Or.inr ⟨?_, ?_⟩
          · rw [next, at_end, List.length_cons]
          · simpa [sets] using none

/-- `assign` replaces the first string of the name or appends one. -/
theorem assign_split (texts : List (List UInt8)) (name value : List UInt8)
    : (∃ before after old, texts = before ++ variableText name old :: after
        ∧ assign texts name value = before ++ variableText name value :: after
        ∧ ∀ text ∈ before, ¬ Sets name text)
      ∨ (assign texts name value = texts ++ [variableText name value]
        ∧ ∀ text ∈ texts, ¬ Sets name text) := by
  rcases split_position texts name with ⟨before, after, old, rfl, at_before, none⟩ | ⟨at_end, none⟩
  · refine Or.inl ⟨before, after, old, rfl, ?_, none⟩
    rw [assign, if_pos (by rw [at_before]; simp), at_before]
    simp
  · refine Or.inr ⟨?_, none⟩
    rw [assign, if_neg (by omega)]

theorem valueOf_append_cons {before after : List (List UInt8)} (none : ∀ text ∈ before, ¬ Sets name text)
    : valueOf (before ++ variableText name value :: after) name = some value := by
  rw [valueOf, List.find?_append, List.find?_eq_none.mpr none, Option.none_or, List.find?_cons,
    sets_variableText]
  simp [variableText]

/-- A string of another name does not matter. -/
theorem valueOf_other {before after : List (List UInt8)} (different : ¬ Sets other text)
    : valueOf (before ++ text :: after) other = valueOf (before ++ after) other := by
  simp [valueOf, List.find?_append, different]

theorem valueOf_assign (texts : List (List UInt8)) (name value : List UInt8)
    : valueOf (assign texts name value) name = some value := by
  rcases assign_split texts name value with ⟨before, after, old, -, same, none⟩ | ⟨same, none⟩
  · rw [same, valueOf_append_cons none]
  · rw [same, valueOf_append_cons none]

theorem valueOf_assign_other (valid : ValidName name) (valid' : ValidName other)
    (different : other ≠ name) (texts : List (List UInt8)) (value : List UInt8)
    : valueOf (assign texts name value) other = valueOf texts other := by
  have apart (value : List UInt8) : ¬ Sets other (variableText name value) :=
    fun sets => different (sets_unique valid' valid sets (sets_variableText name value))
  rcases assign_split texts name value with ⟨before, after, old, rfl, same, -⟩ | ⟨same, -⟩
  · rw [same, valueOf_other (apart value), valueOf_other (apart old)]
  · rw [same, valueOf_other (apart value), List.append_nil]

theorem others_assign (texts : List (List UInt8)) (name value : List UInt8)
    : others (assign texts name value) name = others texts name := by
  rcases assign_split texts name value with ⟨before, after, old, rfl, same, -⟩ | ⟨same, -⟩
  · simp [same, others, sets_variableText]
  · simp [same, others, sets_variableText]

theorem valueOf_others (texts : List (List UInt8)) (name : List UInt8)
    : valueOf (others texts name) name = none := by
  refine valueOf_eq_none ?_
  intro text member
  simpa using (List.mem_filter.mp member).2

theorem valueOf_others_other (valid : ValidName name) (valid' : ValidName other)
    (different : other ≠ name) (texts : List (List UInt8))
    : valueOf (others texts name) other = valueOf texts other := by
  rw [valueOf, valueOf, others, List.find?_filter]
  congr 2
  funext text
  cases sets : Sets other text with
  | false => simp
  | true =>
      have apart : Sets name text = false := by
        rw [Bool.eq_false_iff]
        exact fun sets' => different (sets_unique valid' valid sets sets')
      simp [apart]

theorem others_idem (texts : List (List UInt8)) (name : List UInt8)
    : others (others texts name) name = others texts name := by
  simp [others]

end BSDLibC.Env
