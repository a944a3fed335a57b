import BSDLibC.Btree.Filters

/-! The fields of a well-formed page: they are inside of it, and no two have a byte in common. -/

namespace BSDLibC.Btree

open Bytes

variable {big : Bool} {page : List UInt8}

theorem header_apart : headerPlaces.Pairwise Place.Apart := by
  simp only [headerPlaces, flagsPlace, lowerPlace, List.pairwise_cons, List.mem_cons, List.not_mem_nil,
    or_false, forall_eq_or_imp, forall_eq, Place.Apart]
  simp

theorem header_before {p : Place} (member : p ∈ headerPlaces) : p.off + p.width ≤ 20 := by
  simp only [headerPlaces, flagsPlace, lowerPlace, List.mem_cons, List.not_mem_nil, or_false] at member
  rcases member with rfl | rfl | rfl | rfl | rfl | rfl <;> decide

/-- The number of bytes of a reference, and where the sizes, the flags and the references are. -/
theorem WellFormedPage.size (wf : WellFormedPage big page) {i : Nat} (lt : i < itemCount big page)
    : 9 + itemKsize big page i ≤ (itemPlace big page i).width
      ∧ (hasBigkey big page i → itemKsize big page i = 8)
      ∧ (hasBigdata big page i
        → 9 + itemKsize big page i + 8 ≤ (itemPlace big page i).width) := by
  refine ⟨?_, wf.bigkey i lt, fun bigdata => ?_⟩
  · rw [itemPlace]
    simp only
    split_ifs <;> omega
  · have dsize := wf.bigdata i lt bigdata
    rw [itemPlace]
    simp only
    rw [if_pos bigdata.1, dsize]
    omega

/-- The fields of an item are in its place. -/
theorem WellFormedPage.within (wf : WellFormedPage big page) {i : Nat} (lt : i < itemCount big page)
    {p : Place} (member : p ∈ itemPlaces big page i)
    : p.Within (itemPlace big page i) := by
  obtain ⟨width, bigkey, bigdata⟩ := wf.size lt
  have off : (itemPlace big page i).off = itemOff big page i := rfl
  simp only [itemPlaces, List.cons_append, List.nil_append, List.mem_cons, List.mem_append] at member
  rcases member with rfl | rfl | key | data
  · exact ⟨by rw [off], by rw [off]; simp only; omega⟩
  · exact ⟨by rw [off]; simp only; omega, by rw [off]; simp only; omega⟩
  · split_ifs at key with here
    · have := bigkey here
      simp only [List.mem_cons, List.not_mem_nil, or_false] at key
      rcases key with rfl | rfl
      · exact ⟨by rw [off]; simp only; omega, by rw [off]; simp only; omega⟩
      · exact ⟨by rw [off]; simp only; omega, by rw [off]; simp only; omega⟩
    · cases key
  · split_ifs at data with here
    · have := bigdata here
      simp only [List.mem_cons, List.not_mem_nil, or_false] at data
      rcases data with rfl | rfl
      · exact ⟨by rw [off]; simp only; omega, by rw [off]; simp only; omega⟩
      · exact ⟨by rw [off]; simp only; omega, by rw [off]; simp only; omega⟩
    · cases data

/-- The fields of an item are apart from each other, and from its flags. -/
theorem WellFormedPage.item_apart (wf : WellFormedPage big page) {i : Nat}
    (lt : i < itemCount big page)
    : (itemPlaces big page i).Pairwise Place.Apart
      ∧ ∀ p ∈ itemPlaces big page i, p.Apart ⟨itemOff big page i + 8, 1⟩ := by
  have bigkey := wf.bigkey i lt
  simp only [itemPlaces]
  by_cases key : hasBigkey big page i
  · have := bigkey key
    by_cases data : hasBigdata big page i
    · simp [key, data, Place.Apart]
      omega
    · simp [key, data, Place.Apart]
  · by_cases data : hasBigdata big page i
    · simp [key, data, Place.Apart]
      omega
    · simp [key, data, Place.Apart]

/-- An index entry and the fields of its item. -/
def entryPlaces (big : Bool) (page : List UInt8) (i : Nat) : List Place :=
  linpPlace i :: itemPlaces big page i

theorem WellFormedPage.behind (wf : WellFormedPage big page) {i : Nat} (lt : i < itemCount big page)
    {p : Place} (member : p ∈ itemPlaces big page i)
    : 20 + 2 * itemCount big page ≤ p.off :=
  (wf.inside i lt).1.trans (wf.within lt member).1

theorem WellFormedPage.entries_apart (wf : WellFormedPage big page) {i j : Nat}
    (lt : i < itemCount big page) (lt' : j < itemCount big page) (other : i ≠ j)
    {p q : Place} (member : p ∈ entryPlaces big page i) (member' : q ∈ entryPlaces big page j)
    : p.Apart q := by
  rcases List.mem_cons.mp member with rfl | item
  · rcases List.mem_cons.mp member' with rfl | item'
    · simp only [Place.Apart, linpPlace]
      omega
    · have := wf.behind lt' item'
      exact Or.inl (by simp only [linpPlace]; omega)
  · rcases List.mem_cons.mp member' with rfl | item'
    · have := wf.behind lt item
      exact Or.inr (by simp only [linpPlace]; omega)
    · exact (wf.apart i lt j lt' other).mono (wf.within lt item) (wf.within lt' item')

theorem WellFormedPage.entry_apart (wf : WellFormedPage big page) {i : Nat}
    (lt : i < itemCount big page)
    : (entryPlaces big page i).Pairwise Place.Apart := by
  refine List.pairwise_cons.mpr ⟨fun p item => ?_, (wf.item_apart lt).1⟩
  have := wf.behind lt item
  exact Or.inl (by simp only [linpPlace]; omega)

/-- The entries are apart from the header. -/
theorem WellFormedPage.header_apart_entry (wf : WellFormedPage big page) {i : Nat}
    (lt : i < itemCount big page) {p q : Place} (member : p ∈ headerPlaces)
    (member' : q ∈ entryPlaces big page i)
    : p.Apart q := by
  have before := header_before member
  rcases List.mem_cons.mp member' with rfl | item
  · exact Or.inl (by simp only [linpPlace]; omega)
  · have := wf.behind lt item
    exact Or.inl (by omega)

theorem fields_eq (big : Bool) (page : List UInt8)
    : fields big page
      = headerPlaces ++ (List.range (itemCount big page)).flatMap (entryPlaces big page) := rfl

theorem WellFormedPage.fields_apart (wf : WellFormedPage big page)
    : (fields big page).Pairwise Place.Apart := by
  rw [fields_eq, List.pairwise_append, List.pairwise_flatMap]
  refine ⟨header_apart, ⟨fun i member => wf.entry_apart (List.mem_range.mp member), ?_⟩, ?_⟩
  · refine List.pairwise_lt_range.imp_of_mem fun member member' lt p inside q inside' => ?_
    exact wf.entries_apart (List.mem_range.mp member) (List.mem_range.mp member') lt.ne inside inside'
  · intro p member q member'
    obtain ⟨i, inRange, inside⟩ := List.mem_flatMap.mp member'
    exact wf.header_apart_entry (List.mem_range.mp inRange) member inside

theorem WellFormedPage.fields_inside (wf : WellFormedPage big page) {p : Place}
    (member : p ∈ fields big page)
    : p.Inside page := by
  have length := wf.header
  rw [fields_eq, List.mem_append, List.mem_flatMap] at member
  rcases member with header | ⟨i, inRange, inside⟩
  · have := header_before header
    rw [Place.Inside]
    omega
  · have lt := List.mem_range.mp inRange
    rcases List.mem_cons.mp inside with rfl | item
    · simp only [Place.Inside, linpPlace]
      omega
    · exact (wf.within lt item).2.trans (wf.inside i lt).2

/-- The place of the flags of an item, which are not swapped. -/
def itemFlagsPlace (big : Bool) (page : List UInt8) (i : Nat) : Place := ⟨itemOff big page i + 8, 1⟩

theorem WellFormedPage.flags_within (wf : WellFormedPage big page) {i : Nat}
    (lt : i < itemCount big page)
    : (itemFlagsPlace big page i).Within (itemPlace big page i) := by
  have := (wf.size lt).1
  exact ⟨Nat.le_add_right _ _, by simp only [itemFlagsPlace, itemPlace] at *; omega⟩

theorem WellFormedPage.flags_inside (wf : WellFormedPage big page) {i : Nat}
    (lt : i < itemCount big page)
    : (itemFlagsPlace big page i).Inside page :=
  (wf.flags_within lt).2.trans (wf.inside i lt).2

theorem WellFormedPage.flags_apart (wf : WellFormedPage big page) {i : Nat}
    (lt : i < itemCount big page) {p : Place} (member : p ∈ fields big page)
    : p.Apart (itemFlagsPlace big page i) := by
  have behind := (wf.inside i lt).1
  have flags := wf.flags_within lt
  rw [fields_eq, List.mem_append, List.mem_flatMap] at member
  rcases member with header | ⟨j, inRange, inside⟩
  · have := header_before header
    exact Or.inl (by simp only [itemFlagsPlace]; omega)
  · have lt' := List.mem_range.mp inRange
    rcases List.mem_cons.mp inside with rfl | item
    · exact Or.inl (by simp only [itemFlagsPlace, linpPlace]; omega)
    · by_cases same : j = i
      · subst same
        exact (wf.item_apart lt).2 p item
      · have here : (itemPlace big page j).Apart (itemPlace big page i) := wf.apart j lt' i lt same
        exact here.mono (wf.within lt' item) flags

/-- Behind the references of an item with overflow key and overflow data no field begins where the item
ends.
-/
theorem WellFormedPage.not_field (wf : WellFormedPage big page) {i : Nat}
    (lt : i < itemCount big page) (key : hasBigkey big page i) (data : hasBigdata big page i)
    : ⟨itemOff big page i + 25, 4⟩ ∉ fields big page := by
  have width : (itemPlace big page i).width = 28 := by
    rw [itemPlace]
    simp only
    rw [if_pos data.1, wf.bigkey i lt key, wf.bigdata i lt data]
  have behind := (wf.inside i lt).1
  have off : (itemPlace big page i).off = itemOff big page i := rfl
  intro member
  rw [fields_eq, List.mem_append, List.mem_flatMap] at member
  rcases member with header | ⟨j, inRange, inside⟩
  · have := header_before header
    simp only at this
    omega
  · have lt' := List.mem_range.mp inRange
    rcases List.mem_cons.mp inside with entry | item
    · have := congrArg Place.width entry
      cases this
    · obtain ⟨low, high⟩ := wf.within lt' item
      simp only at low high
      by_cases same : j = i
      · subst same
        omega
      · rcases wf.apart j lt' i lt same with before | after <;> omega

end BSDLibC.Btree
