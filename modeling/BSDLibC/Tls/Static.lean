import BSDLibC.Bitops.RoundUp

/-! Static thread-local storage of the run-time linker (`ld.elf_so/tls.c`) where the blocks lie
below the thread control block. Sizes and addresses are 64-bit words.
-/

namespace BSDLibC.Tls

open BSDLibC.Bitops

/-- The fields of `Obj_Entry` that the layout reads and writes. -/
structure Obj where
  tlssize : Nat
  tlsalign : Nat
  tlsinitsize : Nat
  tlsoffset : Nat := 0
  tlsStatic : Bool := false
  tlsDynamic : Bool := false
deriving DecidableEq, Repr

/-- `sizeof(struct tls_tcb)` -/
def tcbSize : Nat := 24

/-- `alignof(struct tls_tcb)` -/
def tcbAlign : Nat := 8

/-- `alignof(max_align_t)` -/
def maxAlignT : Nat := 16

/-- `RTLD_STATIC_TLS_RESERVATION` -/
def reservation : Nat := 64

/-- `sizeof(union overhead)` of the linker's allocator. -/
def overheadSize : Nat := 8

/-- `FIRST_BUCKET_SIZE` of the linker's allocator. -/
def firstBucketSize : Nat := 8

/-- The linker's static variables for thread-local storage, its objects, and the control blocks
of the threads.
-/
structure Rtld where
  staticSpace : Nat := 0
  staticOffset : Nat := 0
  staticMaxAlign : Nat := max maxAlignT tcbAlign
  objlist : List Obj := []
  threads : List Nat := []
deriving DecidableEq, Repr

/-- `_rtld_tls_offset_allocate` -/
def offsetAllocate (rtld : Rtld) (i : Nat) : Int × Rtld :=
  match rtld.objlist[i]? with
  | none => (-1, rtld)
  | some obj =>
      if obj.tlsDynamic then
        (-1, rtld)
      else if obj.tlsStatic then
        (0, rtld)
      else if obj.tlssize = 0 then
        let obj := { obj with tlsoffset := 0, tlsStatic := true }
        (0, { rtld with objlist := rtld.objlist.set i obj })
      else
        let offset := roundup2 ((rtld.staticOffset + obj.tlssize) % 2 ^ 64) obj.tlsalign
        if rtld.staticSpace ≠ 0 ∧ obj.tlsinitsize ≠ 0 then
          (-1, rtld)
        else if rtld.staticSpace ≠ 0 ∧ offset > rtld.staticSpace then
          (-1, rtld)
        else
          let obj := { obj with tlsoffset := offset, tlsStatic := true }
          (0, { rtld with
                staticMaxAlign :=
                  if obj.tlsalign > rtld.staticMaxAlign then obj.tlsalign
                  else rtld.staticMaxAlign
                staticOffset := offset
                objlist := rtld.objlist.set i obj })

/-- The number of bytes `xmalloc_aligned` asks `imalloc` for. -/
def xmallocSize (size align : Nat) : Nat :=
  (size + max align firstBucketSize + overheadSize) % 2 ^ 64

/-- `xmalloc_aligned` with offset 0, where `imalloc` gave the block at `mem`. -/
def xmallocAligned (align mem : Nat) : Nat :=
  roundup2 ((mem + overheadSize) % 2 ^ 64) (max align firstBucketSize)

/-- `_rtld_tls_allocate_locked`: the control block of a new thread, whose memory `imalloc` gave
at `mem`.
-/
def allocateLocked (rtld : Rtld) (mem : Nat) : Rtld :=
  let p := xmallocAligned rtld.staticMaxAlign mem
  { rtld with threads := (p + rtld.staticSpace) % 2 ^ 64 :: rtld.threads }

/-- `_rtld_tls_initial_allocation` -/
def initialAllocation (rtld : Rtld) (mem : Nat) : Rtld :=
  let space := (rtld.staticOffset + reservation) % 2 ^ 64
  allocateLocked { rtld with staticSpace := roundup2 space rtld.staticMaxAlign } mem

/-- `_rtld_tls_module_allocate` as far as the layout goes: an object without a static block
turns to dynamic storage.
-/
def moduleAllocate (rtld : Rtld) (i : Nat) : Rtld :=
  match rtld.objlist[i]? with
  | none => rtld
  | some obj =>
      if obj.tlsStatic then
        rtld
      else
        { rtld with objlist := rtld.objlist.set i { obj with tlsDynamic := true } }

/-- What the program and the linker do with thread-local storage. An object is mapped with its
segment's size, the exponent of its alignment and the size of its initialised part.
-/
inductive Op where
  | load (tlssize : UInt64) (alignBits : Fin 64) (tlsinitsize : UInt64)
  | offsetAllocate (i : Nat)
  | initialAllocation (mem : UInt64)
  | allocate (mem : UInt64)
  | moduleAllocate (i : Nat)
deriving DecidableEq, Repr

/-- One operation. -/
def step (rtld : Rtld) : Op → Rtld
  | .load tlssize alignBits tlsinitsize =>
      { rtld with
        objlist := rtld.objlist
          ++ [⟨tlssize.toNat, 2 ^ alignBits.val, tlsinitsize.toNat, 0, false, false⟩] }
  | .offsetAllocate i => (offsetAllocate rtld i).2
  | .initialAllocation mem => initialAllocation rtld mem.toNat
  | .allocate mem => allocateLocked rtld mem.toNat
  | .moduleAllocate i => moduleAllocate rtld i

/-- The linker's state after a sequence of operations. -/
def run (ops : List Op) : Rtld := ops.foldl step {}

/-- Where the block of an object begins in the thread with the control block at `tcb`. -/
def blockStart (tcb : Nat) (obj : Obj) : Nat := tcb - obj.tlsoffset

/-- The objects that have a block in every thread. -/
def Obj.HasBlock (obj : Obj) : Prop := obj.tlsStatic = true ∧ obj.tlssize ≠ 0

/-- In every thread the blocks lie in the static area below the control block, aligned and
without overlap, and the control block is aligned.
-/
structure Laid (rtld : Rtld) : Prop where
  inside : ∀ tcb ∈ rtld.threads, ∀ obj ∈ rtld.objlist, obj.HasBlock →
    rtld.staticSpace ≤ tcb ∧ tcb - rtld.staticSpace ≤ blockStart tcb obj
      ∧ blockStart tcb obj + obj.tlssize ≤ tcb
  aligned : ∀ tcb ∈ rtld.threads, ∀ obj ∈ rtld.objlist, obj.HasBlock →
    obj.tlsalign ∣ blockStart tcb obj
  disjoint : ∀ tcb ∈ rtld.threads, ∀ (i j : Nat) (obj other : Obj), i ≠ j → rtld.objlist[i]? = some obj →
    rtld.objlist[j]? = some other → obj.HasBlock → other.HasBlock →
    blockStart tcb obj + obj.tlssize ≤ blockStart tcb other
      ∨ blockStart tcb other + other.tlssize ≤ blockStart tcb obj
  control : ∀ tcb ∈ rtld.threads, tcbAlign ∣ tcb

end BSDLibC.Tls
