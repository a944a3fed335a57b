import Mathlib.Algebra.Order.Ring.Nat
import Mathlib.Data.List.Perm.Basic
import Mathlib.Tactic.Common

/-! Places of a list that are reversed, as the bytes of numbers are when their order is changed. -/

namespace BSDLibC.Bytes

/-- The elements from an offset on. -/
structure Place where
  off : Nat
  width : Nat
deriving DecidableEq, Repr

/-- Two places have no element in common. -/
def Place.Apart (p q : Place) : Prop := p.off + p.width ≤ q.off ∨ q.off + q.width ≤ p.off

def Place.Within (p q : Place) : Prop := q.off ≤ p.off ∧ p.off + p.width ≤ q.off + q.width

theorem Place.Apart.symm {p q : Place} (apart : p.Apart q) : q.Apart p := Or.symm apart

theorem Place.Apart.mono {p q p' q' : Place} (apart : p.Apart q) (inside : p'.Within p)
    (inside' : q'.Within q)
    : p'.Apart q' := by
  rcases apart with before | after
  · exact Or.inl (by have := inside.2; have := inside'.1; omega)
  · exact Or.inr (by have := inside.1; have := inside'.2; omega)

section

variable {α : Type} {xs : List α} {p q : Place}

def slice (p : Place) (xs : List α) : List α := (xs.drop p.off).take p.width

def reverseAt (p : Place) (xs : List α) : List α :=
  xs.take p.off ++ (slice p xs).reverse ++ xs.drop (p.off + p.width)

/-- Places are reversed one after the other. -/
def reverseAll (places : List Place) (xs : List α) : List α :=
  places.foldl (fun xs p => reverseAt p xs) xs

def Place.Inside (p : Place) (xs : List α) : Prop := p.off + p.width ≤ xs.length

@[simp]
theorem length_reverseAt (inside : p.Inside xs) : (reverseAt p xs).length = xs.length := by
  rw [Place.Inside] at inside
  simp only [reverseAt, slice, List.length_append, List.length_take, List.length_reverse,
    List.length_drop]
  omega

theorem getElem?_reverseAt (inside : p.Inside xs) (k : Nat)
    : (reverseAt p xs)[k]?
      = if p.off ≤ k ∧ k < p.off + p.width then xs[2 * p.off + p.width - 1 - k]? else xs[k]? := by
  rw [Place.Inside] at inside
  have first : (xs.take p.off).length = p.off := by
    rw [List.length_take]
    omega
  have second : (slice p xs).length = p.width := by
    rw [slice, List.length_take, List.length_drop]
    omega
  rw [reverseAt, List.append_assoc]
  by_cases before : k < p.off
  · rw [List.getElem?_append_left (by omega), if_neg (by omega), List.getElem?_take_of_lt before]
  rw [List.getElem?_append_right (by omega), first]
  by_cases after : p.off + p.width ≤ k
  · rw [List.getElem?_append_right (by rw [List.length_reverse]; omega), if_neg (by omega),
      List.length_reverse, second, List.getElem?_drop]
    congr 1
    omega
  · rw [List.getElem?_append_left (by rw [List.length_reverse]; omega), if_pos (by omega),
      List.getElem?_reverse (by omega), second, slice, List.getElem?_take_of_lt (by omega),
      List.getElem?_drop]
    congr 1
    omega

theorem reverseAt_reverseAt (inside : p.Inside xs) : reverseAt p (reverseAt p xs) = xs := by
  have inside' : p.Inside (reverseAt p xs) := by
    rw [Place.Inside, length_reverseAt inside]
    exact inside
  refine List.ext_getElem? fun k => ?_
  rw [getElem?_reverseAt inside', getElem?_reverseAt inside, getElem?_reverseAt inside]
  split_ifs with here there
  · congr 1
    omega
  · omega
  · rfl

theorem reverseAt_comm (apart : p.Apart q) (inside : p.Inside xs) (inside' : q.Inside xs)
    : reverseAt p (reverseAt q xs) = reverseAt q (reverseAt p xs) := by
  have later : p.Inside (reverseAt q xs) := by
    rw [Place.Inside, length_reverseAt inside']
    exact inside
  have later' : q.Inside (reverseAt p xs) := by
    rw [Place.Inside, length_reverseAt inside]
    exact inside'
  rw [Place.Apart] at apart
  refine List.ext_getElem? fun k => ?_
  simp only [getElem?_reverseAt later, getElem?_reverseAt later', getElem?_reverseAt inside,
    getElem?_reverseAt inside']
  split_ifs <;> first | rfl | omega

/-- What is apart from a place stays as it is. -/
theorem slice_reverseAt (apart : p.Apart q) (inside : p.Inside xs)
    : slice q (reverseAt p xs) = slice q xs := by
  rw [Place.Apart] at apart
  refine List.ext_getElem? fun k => ?_
  simp only [slice, List.getElem?_take, List.getElem?_drop, getElem?_reverseAt inside]
  split_ifs <;> first | rfl | omega

variable {places more : List Place}

theorem length_reverseAll (inside : ∀ p ∈ places, p.Inside xs)
    : (reverseAll places xs).length = xs.length := by
  induction places generalizing xs with
  | nil => rfl
  | cons p places ih =>
      have here := length_reverseAt (inside p List.mem_cons_self)
      rw [reverseAll, List.foldl_cons, ← reverseAll, ih, here]
      intro q among
      rw [Place.Inside, here]
      exact inside q (List.mem_cons_of_mem _ among)

theorem reverseAll_append : reverseAll (places ++ more) xs = reverseAll more (reverseAll places xs) :=
  List.foldl_append

theorem reverseAll_concat : reverseAll (places ++ [p]) xs = reverseAt p (reverseAll places xs) :=
  reverseAll_append

theorem Place.Inside.reverseAll (inside : q.Inside xs) (all : ∀ p ∈ places, p.Inside xs)
    : q.Inside (reverseAll places xs) := by
  rw [Place.Inside, length_reverseAll all]
  exact inside

theorem slice_reverseAll (apart : ∀ p ∈ places, p.Apart q) (inside : ∀ p ∈ places, p.Inside xs)
    : slice q (reverseAll places xs) = slice q xs := by
  induction places generalizing xs with
  | nil => rfl
  | cons p places ih =>
      have first := inside p List.mem_cons_self
      rw [reverseAll, List.foldl_cons, ← reverseAll, ih, slice_reverseAt (apart p List.mem_cons_self) first]
      · exact fun p among => apart p (List.mem_cons_of_mem _ among)
      · intro q among
        rw [Place.Inside, length_reverseAt first]
        exact inside q (List.mem_cons_of_mem _ among)

theorem reverseAt_reverseAll (apart : ∀ q ∈ places, p.Apart q) (inside : p.Inside xs)
    (all : ∀ p ∈ places, p.Inside xs)
    : reverseAt p (reverseAll places xs) = reverseAll places (reverseAt p xs) := by
  induction places generalizing xs with
  | nil => rfl
  | cons q places ih =>
      have first := all q List.mem_cons_self
      have same := length_reverseAt first
      rw [reverseAll, reverseAll, List.foldl_cons, List.foldl_cons, ← reverseAll, ← reverseAll, ih,
        reverseAt_comm (apart q List.mem_cons_self) inside first]
      · exact fun q among => apart q (List.mem_cons_of_mem _ among)
      · rwa [Place.Inside, same]
      · intro p among
        rw [Place.Inside, same]
        exact all p (List.mem_cons_of_mem _ among)

/-- The first places are reversed back. -/
theorem reverseAll_cancel (apart : (places ++ more).Pairwise Place.Apart)
    (inside : ∀ p ∈ places ++ more, p.Inside xs)
    : reverseAll places (reverseAll (places ++ more) xs) = reverseAll more xs := by
  induction places generalizing xs with
  | nil => rfl
  | cons p places ih =>
      rw [List.cons_append] at apart inside
      obtain ⟨others, apart⟩ := List.pairwise_cons.mp apart
      have first := inside p List.mem_cons_self
      have rest : ∀ q ∈ places ++ more, q.Inside xs := fun q among =>
        inside q (List.mem_cons_of_mem _ among)
      have same := length_reverseAt first
      have back : reverseAt p (reverseAll (p :: (places ++ more)) xs)
          = reverseAll (places ++ more) xs := by
        rw [reverseAll, List.foldl_cons, ← reverseAll, ← reverseAt_reverseAll others first rest,
          reverseAt_reverseAt (first.reverseAll rest)]
      rw [List.cons_append, reverseAll, List.foldl_cons, ← reverseAll, back, ih apart rest]

/-- The order of places that are apart does not count. -/
theorem reverseAll_perm (same : places.Perm more) (apart : places.Pairwise Place.Apart)
    (inside : ∀ p ∈ places, p.Inside xs)
    : reverseAll places xs = reverseAll more xs := by
  induction same generalizing xs with
  | nil => rfl
  | cons p same ih =>
      obtain ⟨-, apart⟩ := List.pairwise_cons.mp apart
      have length := length_reverseAt (inside p List.mem_cons_self)
      rw [reverseAll, reverseAll, List.foldl_cons, List.foldl_cons]
      refine ih apart fun q among => ?_
      rw [Place.Inside, length]
      exact inside q (List.mem_cons_of_mem _ among)
  | swap p q places =>
      obtain ⟨others, -⟩ := List.pairwise_cons.mp apart
      have comm := reverseAt_comm (others p List.mem_cons_self) (inside q List.mem_cons_self)
        (inside p (by simp))
      rw [reverseAll, reverseAll, List.foldl_cons, List.foldl_cons, List.foldl_cons, List.foldl_cons,
        comm]
  | trans first second ih ih' =>
      rw [ih apart inside, ih' (first.pairwise apart Place.Apart.symm)]
      exact fun p among => inside p (first.mem_iff.mpr among)

end

end BSDLibC.Bytes
