import BSDLibC.Tls.Static

/-! Runs of the linker: the layout of static thread-local storage stays right as long as no
object loaded later asks for a larger alignment than the area was sized for, and sizes do not
wrap.
-/

namespace BSDLibC.Tls

open BSDLibC.Bitops

/-- What the callers and the allocator see to: the initial allocation happens once, before any
other thread is made, and a block that `imalloc` gives lies in the address space.
-/
def Orderly (rtld : Rtld) : Op → Prop
  | .initialAllocation mem =>
      rtld.staticSpace = 0
        ∧ mem.toNat + xmallocSize
            (roundup2 ((rtld.staticOffset + reservation) % 2 ^ 64) rtld.staticMaxAlign + tcbSize)
            rtld.staticMaxAlign < 2 ^ 64
  | .allocate mem =>
      rtld.staticSpace ≠ 0
        ∧ mem.toNat + xmallocSize (rtld.staticSpace + tcbSize) rtld.staticMaxAlign < 2 ^ 64
  | _ => True

/-- The condition under which a step keeps the layout: the sums of sizes stay words, and an
object that gets a block after the initial allocation asks for no larger alignment than the
largest one so far.
-/
def Fits (rtld : Rtld) : Op → Prop
  | .offsetAllocate i => ∀ obj, rtld.objlist[i]? = some obj → obj.tlsStatic = false →
      obj.tlsDynamic = false → obj.tlssize ≠ 0 →
      rtld.staticOffset + obj.tlssize + obj.tlsalign ≤ 2 ^ 64
        ∧ (rtld.staticSpace ≠ 0 → obj.tlsinitsize = 0 →
          roundup2 (rtld.staticOffset + obj.tlssize) obj.tlsalign ≤ rtld.staticSpace →
          obj.tlsalign ≤ rtld.staticMaxAlign)
  | .initialAllocation _ =>
      rtld.staticOffset + reservation + tcbSize + 2 * rtld.staticMaxAlign + overheadSize ≤ 2 ^ 64
  | .allocate _ =>
      rtld.staticSpace + tcbSize + rtld.staticMaxAlign + overheadSize < 2 ^ 64
  | _ => True

/-- What holds of the linker's state between two steps. -/
structure Sized (rtld : Rtld) : Prop where
  maxAlign : ∃ k, 4 ≤ k ∧ k < 64 ∧ rtld.staticMaxAlign = 2 ^ k
  power : ∀ obj ∈ rtld.objlist, ∃ k, k < 64 ∧ obj.tlsalign = 2 ^ k
  placed : ∀ obj ∈ rtld.objlist, obj.HasBlock →
    obj.tlssize ≤ obj.tlsoffset ∧ obj.tlsoffset ≤ rtld.staticOffset
      ∧ obj.tlsalign ∣ obj.tlsoffset ∧ obj.tlsalign ∣ rtld.staticMaxAlign
  apart : ∀ (i j : Nat) (obj other : Obj), i ≠ j → rtld.objlist[i]? = some obj →
    rtld.objlist[j]? = some other → obj.HasBlock → other.HasBlock →
    obj.tlsoffset + other.tlssize ≤ other.tlsoffset
      ∨ other.tlsoffset + obj.tlssize ≤ obj.tlsoffset
  space : rtld.staticSpace ≠ 0 →
    rtld.staticOffset ≤ rtld.staticSpace ∧ rtld.staticMaxAlign ∣ rtld.staticSpace
  threads : ∀ tcb ∈ rtld.threads,
    rtld.staticSpace ≠ 0 ∧ rtld.staticSpace ≤ tcb ∧ rtld.staticMaxAlign ∣ tcb

theorem sized_initial : Sized {} := by
  refine ⟨⟨4, by decide, by decide, rfl⟩, by simp, by simp, ?_, by simp, by simp⟩
  intro i j obj other _ here
  simp at here

/-- A state that is sized is laid out as it should be. -/
theorem Sized.laid {rtld : Rtld} (sized : Sized rtld) : Laid rtld := by
  refine ⟨?_, ?_, ?_, ?_⟩
  · intro tcb thread obj listed block
    obtain ⟨allocated, below, -⟩ := sized.threads tcb thread
    obtain ⟨size, offset, -, -⟩ := sized.placed obj listed block
    have room := (sized.space allocated).1
    simp only [blockStart]
    omega
  · intro tcb thread obj listed block
    obtain ⟨-, -, multiple⟩ := sized.threads tcb thread
    obtain ⟨-, -, offset, align⟩ := sized.placed obj listed block
    exact Nat.dvd_sub (align.trans multiple) offset
  · intro tcb thread i j obj other differ here there block block'
    obtain ⟨allocated, below, -⟩ := sized.threads tcb thread
    have room := (sized.space allocated).1
    have first := sized.placed obj (List.mem_of_getElem? here) block
    have second := sized.placed other (List.mem_of_getElem? there) block'
    have apart := sized.apart i j obj other differ here there block block'
    simp only [blockStart]
    omega
  · intro tcb thread
    obtain ⟨k, least, -, power⟩ := sized.maxAlign
    have eight : tcbAlign ∣ rtld.staticMaxAlign := by
      rw [power, tcbAlign]
      exact pow_dvd_pow 2 (by omega : 3 ≤ k)
    exact eight.trans (sized.threads tcb thread).2.2

/-- Changing one object keeps what holds of the others. -/
theorem getElem?_set_cases {objlist : List Obj} {i j : Nat} {new obj : Obj}
    (here : (objlist.set i new)[j]? = some obj)
    : (j = i ∧ obj = new) ∨ (j ≠ i ∧ objlist[j]? = some obj) := by
  rw [List.getElem?_set] at here
  split at here
  · next same =>
    split at here
    · cases here
      exact .inl ⟨same.symm, rfl⟩
    · cases here
  · next differ => exact .inr ⟨fun same => differ same.symm, here⟩

theorem dvd_of_pow_le {j k : Nat} (le : 2 ^ j ≤ 2 ^ k) : 2 ^ j ∣ 2 ^ k :=
  pow_dvd_pow 2 ((Nat.pow_le_pow_iff_right (by decide)).mp le)

/-- An object is replaced by one whose block, if it has one, lies behind all blocks so far. -/
theorem Sized.update {rtld : Rtld} (sized : Sized rtld) (i : Nat) {new : Obj}
    {offset maxAlign : Nat} (power : ∃ k, k < 64 ∧ new.tlsalign = 2 ^ k)
    (largest : ∃ k, 4 ≤ k ∧ k < 64 ∧ maxAlign = 2 ^ k) (grows : rtld.staticMaxAlign ∣ maxAlign)
    (up : rtld.staticOffset ≤ offset)
    (block : new.HasBlock → rtld.staticOffset + new.tlssize ≤ new.tlsoffset
      ∧ new.tlsoffset ≤ offset ∧ new.tlsalign ∣ new.tlsoffset ∧ new.tlsalign ∣ maxAlign)
    (later : rtld.staticSpace ≠ 0 → offset ≤ rtld.staticSpace ∧ maxAlign = rtld.staticMaxAlign)
    : Sized { rtld with
        staticMaxAlign := maxAlign
        staticOffset := offset
        objlist := rtld.objlist.set i new } := by
  refine ⟨largest, ?_, ?_, ?_, ?_, ?_⟩
  · intro obj listed
    rcases List.mem_or_eq_of_mem_set listed with old | rfl
    · exact sized.power obj old
    · exact power
  · intro obj listed has
    rcases List.mem_or_eq_of_mem_set listed with old | rfl
    · obtain ⟨size, below, aligned, multiple⟩ := sized.placed obj old has
      exact ⟨size, below.trans up, aligned, multiple.trans grows⟩
    · obtain ⟨size, below, aligned, multiple⟩ := block has
      exact ⟨by omega, below, aligned, multiple⟩
  · intro j k obj other differ here there has has'
    rcases getElem?_set_cases here with ⟨rfl, rfl⟩ | ⟨-, old⟩
    · rcases getElem?_set_cases there with ⟨rfl, rfl⟩ | ⟨-, old'⟩
      · exact absurd rfl differ
      · have := block has
        have := sized.placed other (List.mem_of_getElem? old') has'
        right
        omega
    · rcases getElem?_set_cases there with ⟨rfl, rfl⟩ | ⟨-, old'⟩
      · have := block has'
        have := sized.placed obj (List.mem_of_getElem? old) has
        left
        omega
      · exact sized.apart j k obj other differ old old' has has'
  · intro allocated
    obtain ⟨room, same⟩ := later allocated
    refine ⟨room, ?_⟩
    simp only
    rw [same]
    exact (sized.space allocated).2
  · intro tcb thread
    obtain ⟨allocated, below, multiple⟩ := sized.threads tcb thread
    refine ⟨allocated, below, ?_⟩
    simp only
    rw [(later allocated).2]
    exact multiple

/-- Replacing an object by one without a block moves nothing. -/
theorem Sized.update_blockless {rtld : Rtld} (sized : Sized rtld) (i : Nat) {new : Obj}
    (power : ∃ k, k < 64 ∧ new.tlsalign = 2 ^ k) (blockless : ¬ new.HasBlock)
    : Sized { rtld with objlist := rtld.objlist.set i new } :=
  sized.update i power sized.maxAlign dvd_rfl le_rfl (fun has => absurd has blockless)
    (fun allocated => ⟨(sized.space allocated).1, rfl⟩)

theorem sized_load {rtld : Rtld} (sized : Sized rtld) (tlssize : UInt64) (alignBits : Fin 64)
    (tlsinitsize : UInt64)
    : Sized (step rtld (.load tlssize alignBits tlsinitsize)) := by
  have cases_of {j : Nat} {obj : Obj}
      (here : (step rtld (.load tlssize alignBits tlsinitsize)).objlist[j]? = some obj)
      (has : obj.HasBlock)
      : rtld.objlist[j]? = some obj := by
    simp only [step, List.getElem?_append] at here
    split at here
    · exact here
    · have := List.mem_of_getElem? here
      rw [List.mem_singleton] at this
      rw [this] at has
      exact absurd has.1 (by simp)
  refine ⟨sized.maxAlign, ?_, ?_, ?_, sized.space, sized.threads⟩
  · intro obj listed
    simp only [step, List.mem_append, List.mem_singleton] at listed
    rcases listed with old | rfl
    · exact sized.power obj old
    · exact ⟨alignBits, alignBits.isLt, rfl⟩
  · intro obj listed has
    obtain ⟨j, here⟩ := List.getElem?_of_mem listed
    exact sized.placed obj (List.mem_of_getElem? (cases_of here has)) has
  · intro i j obj other differ here there has has'
    exact sized.apart i j obj other differ (cases_of here has) (cases_of there has') has has'

theorem sized_offsetAllocate {rtld : Rtld} (sized : Sized rtld) {i : Nat}
    (fits : Fits rtld (.offsetAllocate i))
    : Sized (offsetAllocate rtld i).2 := by
  rw [offsetAllocate]
  cases found : rtld.objlist[i]? with
  | none => exact sized
  | some obj =>
      simp only
      split
      · exact sized
      next notDynamic =>
      split
      · exact sized
      next notStatic =>
      have power := sized.power obj (List.mem_of_getElem? found)
      split
      · next empty => exact sized.update_blockless i power (fun has => has.2 empty)
      next nonempty =>
      split
      · exact sized
      next uninitialised =>
      split
      · exact sized
      next room =>
      obtain ⟨small, alignment⟩ := fits obj found (by simpa using notStatic)
        (by simpa using notDynamic) nonempty
      obtain ⟨k, width, align⟩ := power
      obtain ⟨l, least, most, largest⟩ := sized.maxAlign
      have positive := Nat.two_pow_pos k
      have sum : (rtld.staticOffset + obj.tlssize) % 2 ^ 64 = rtld.staticOffset + obj.tlssize :=
        Nat.mod_eq_of_lt (by omega)
      have rounded := roundup2_spec (x := rtld.staticOffset + obj.tlssize) (k := k) (by omega)
        (by omega)
      rw [← align, ← sum] at rounded
      have le_max : obj.tlsalign ∣ (if obj.tlsalign > rtld.staticMaxAlign then obj.tlsalign
          else rtld.staticMaxAlign) := by
        split
        · exact dvd_rfl
        · next small => exact align ▸ largest ▸ dvd_of_pow_le (by omega)
      refine sized.update i ⟨k, width, align⟩ ?_ ?_ (by omega) ?_ ?_
      · split
        · next larger =>
          simp only [align, largest] at larger
          have := (Nat.pow_lt_pow_iff_right (by decide : 1 < 2)).mp larger
          exact ⟨k, by omega, width, align⟩
        · exact sized.maxAlign
      · split
        · next larger => exact align ▸ largest ▸ dvd_of_pow_le (by omega)
        · exact dvd_rfl
      · intro has
        exact ⟨by simp only; omega, le_rfl, rounded.1, le_max⟩
      · intro allocated
        have below : roundup2 (rtld.staticOffset + obj.tlssize) obj.tlsalign
            ≤ rtld.staticSpace := by
          rw [sum] at room
          omega
        refine ⟨by omega, if_neg ?_⟩
        have := alignment allocated (by omega) below
        omega

/-- A new thread's control block lies behind its static area, aligned as the area is sized. -/
theorem sized_allocateLocked {rtld : Rtld} (sized : Sized rtld) (allocated : rtld.staticSpace ≠ 0)
    {mem : Nat}
    (words : rtld.staticSpace + tcbSize + rtld.staticMaxAlign + overheadSize < 2 ^ 64)
    (inside : mem + xmallocSize (rtld.staticSpace + tcbSize) rtld.staticMaxAlign < 2 ^ 64)
    : Sized (allocateLocked rtld mem) := by
  obtain ⟨k, least, most, largest⟩ := sized.maxAlign
  have positive := Nat.two_pow_pos k
  have bucket : max rtld.staticMaxAlign firstBucketSize = 2 ^ k := by
    have : 2 ^ 3 ≤ 2 ^ k := Nat.pow_le_pow_right (by decide) (by omega)
    rw [largest, firstBucketSize]
    omega
  rw [xmallocSize, bucket, Nat.mod_eq_of_lt (by omega)] at inside
  simp only [tcbSize, overheadSize] at words inside
  have rounded := roundup2_spec (x := mem + 8) (k := k) (by omega) (by omega)
  have p_eq : xmallocAligned rtld.staticMaxAlign mem = roundup2 (mem + 8) (2 ^ k) := by
    rw [xmallocAligned, bucket, overheadSize, Nat.mod_eq_of_lt (by omega)]
  refine ⟨sized.maxAlign, sized.power, sized.placed, sized.apart, sized.space, ?_⟩
  intro tcb thread
  simp only [allocateLocked, List.mem_cons] at thread
  rcases thread with rfl | old
  · rw [p_eq, Nat.mod_eq_of_lt (by omega)]
    refine ⟨allocated, Nat.le_add_left _ _, ?_⟩
    simp only [allocateLocked]
    rw [largest]
    exact Nat.dvd_add rounded.1 (largest ▸ (sized.space allocated).2)
  · exact sized.threads tcb old

/-- The initial allocation sizes the area for the blocks so far and the reservation. -/
theorem sized_initialAllocation {rtld : Rtld} (sized : Sized rtld) {mem : UInt64}
    (orderly : Orderly rtld (.initialAllocation mem))
    (fits : Fits rtld (.initialAllocation mem))
    : Sized (initialAllocation rtld mem.toNat) := by
  obtain ⟨first, inside⟩ := orderly
  obtain ⟨k, least, most, largest⟩ := sized.maxAlign
  have positive := Nat.two_pow_pos k
  simp only [Fits, reservation, tcbSize, overheadSize] at fits
  have sum : (rtld.staticOffset + reservation) % 2 ^ 64 = rtld.staticOffset + 64 := by
    rw [reservation]
    omega
  have rounded := roundup2_spec (x := rtld.staticOffset + 64) (k := k) (by omega) (by omega)
  rw [← largest] at rounded
  rw [sum] at inside
  have sized' : Sized { rtld with
      staticSpace := roundup2 (rtld.staticOffset + 64) rtld.staticMaxAlign } := by
    refine ⟨sized.maxAlign, sized.power, sized.placed, sized.apart, fun _ => ?_, ?_⟩
    · exact ⟨by simp only; omega, rounded.1⟩
    · intro tcb thread
      exact absurd first (sized.threads tcb thread).1
  rw [initialAllocation, sum]
  refine sized_allocateLocked sized' (by simp only; omega) ?_ inside
  simp only [tcbSize, overheadSize]
  omega

theorem sized_moduleAllocate {rtld : Rtld} (sized : Sized rtld) (i : Nat)
    : Sized (moduleAllocate rtld i) := by
  rw [moduleAllocate]
  cases found : rtld.objlist[i]? with
  | none => exact sized
  | some obj =>
      simp only
      split
      · exact sized
      next notStatic =>
      exact sized.update_blockless i (sized.power obj (List.mem_of_getElem? found))
        (fun has => notStatic has.1)

/-- A step that meets the condition keeps the layout. -/
theorem sized_step {rtld : Rtld} (sized : Sized rtld) {op : Op} (orderly : Orderly rtld op)
    (fits : Fits rtld op)
    : Sized (step rtld op) := by
  cases op with
  | load tlssize alignBits tlsinitsize => exact sized_load sized tlssize alignBits tlsinitsize
  | offsetAllocate i => exact sized_offsetAllocate sized fits
  | initialAllocation mem => exact sized_initialAllocation sized orderly fits
  | allocate mem => exact sized_allocateLocked sized orderly.1 fits orderly.2
  | moduleAllocate i => exact sized_moduleAllocate sized i

/-- All steps of a run are orderly and meet the condition. -/
def Regular : Rtld → List Op → Prop
  | _, [] => True
  | rtld, op :: ops => Orderly rtld op ∧ Fits rtld op ∧ Regular (step rtld op) ops

theorem sized_foldl {ops : List Op}
    : ∀ {rtld : Rtld}, Sized rtld → Regular rtld ops → Sized (ops.foldl step rtld) := by
  induction ops with
  | nil => exact fun sized _ => sized
  | cons op ops ih =>
      intro rtld sized regular
      exact ih (sized_step sized regular.1 regular.2.1) regular.2.2

/-- In every state of a run whose steps meet the condition, the blocks of all threads are laid
out as they should be.
-/
theorem laid_of_regular {ops : List Op} (regular : Regular {} ops) : Laid (run ops) :=
  (sized_foldl sized_initial regular).laid

/-- One object from the start, one loaded later, and two threads. -/
theorem laid_of_regular_two
    : Laid (run [.load 40 5 8, .offsetAllocate 0, .initialAllocation 0x10000, .load 16 3 0,
      .offsetAllocate 1, .allocate 0x20000]) := by
  refine laid_of_regular ?_
  refine ⟨trivial, trivial, trivial, ?_, ?_, ?_, trivial, trivial, trivial, ?_, ?_, ?_, trivial⟩
  · intro obj found _ _ _
    cases (found : some _ = some obj)
    decide +kernel
  · exact ⟨by decide +kernel, by decide +kernel⟩
  · show _ + _ ≤ _
    decide +kernel
  · intro obj found _ _ _
    cases (found : some _ = some obj)
    decide +kernel
  · exact ⟨by decide +kernel, by decide +kernel⟩
  · show _ + _ < _
    decide +kernel

/-- All steps of a run are orderly. -/
def Ordered : Rtld → List Op → Prop
  | _, [] => True
  | rtld, op :: ops => Orderly rtld op ∧ Ordered (step rtld op) ops

/-- An object loaded later with a larger alignment than the area was sized for. -/
theorem later_alignment_breaks
    : Ordered {} [.load 8 3 0, .offsetAllocate 0, .initialAllocation 0x10000, .load 8 6 0,
        .offsetAllocate 1]
      ∧ ¬ Laid (run [.load 8 3 0, .offsetAllocate 0, .initialAllocation 0x10000, .load 8 6 0,
        .offsetAllocate 1]) := by
  refine ⟨⟨trivial, trivial, ⟨by decide +kernel, by decide +kernel⟩, trivial, trivial, trivial⟩,
    fun laid => ?_⟩
  have aligned := laid.aligned 0x10060 (by decide +kernel) ⟨8, 64, 0, 64, true, false⟩
    (by decide +kernel) ⟨rfl, by decide⟩
  exact absurd aligned (by decide +kernel)

end BSDLibC.Tls
