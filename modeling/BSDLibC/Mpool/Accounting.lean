import BSDLibC.Mpool.Queues

/-! Runs of a pool and its accounting. The counter of buckets only grows, so that it is the
length of the queue exactly as long as no bucket was deleted or lost in a failed read.
-/

namespace BSDLibC.Mpool

/-- What a user of a pool does; a page is named by the address of its bucket. -/
inductive Op (α : Type) where
  | newf (request : Option Nat)
  | get (pgno : Nat) (ignorePin : Bool)
  | put (b : Nat) (dirty : Bool)
  | delete (b : Nat)
  | sync
  | store (b : Nat) (page : α)

/-- An operation with the answers of the system during it. -/
structure Call (α : Type) where
  op : Op α
  env : Env := {}

variable {α : Type}

/-- One operation. A page can only be put, deleted or changed while the pool holds it; `none` is
the abort of `mpool_newf`.
-/
def step (filter : Filter α) (pool : Pool α) (call : Call α) : Option (Pool α) :=
  match call.op with
  | .newf request => (mpoolNewf filter call.env pool request).map Prod.snd
  | .get pgno ignorePin => some (mpoolGet filter call.env pool pgno ignorePin).2
  | .put b dirty => some (if b ∈ pool.lqh then mpoolPut pool b dirty else pool)
  | .delete b => some (if b ∈ pool.lqh then mpoolDelete pool b else pool)
  | .sync => some (mpoolSync filter call.env pool).2
  | .store b page =>
      some (if b ∈ pool.lqh then pool.setBkt b { pool.bkt b with page := page } else pool)

/-- The state after a sequence of operations. -/
def run (filter : Filter α) : List (Call α) → Pool α → Option (Pool α)
  | [], pool => some pool
  | call :: calls, pool => do run filter calls (← step filter pool call)

/-- The counter is the length of the queue, the queue and the chains hold the same buckets, and
a pool larger than asked for was last grown when every bucket was pinned.
-/
structure Accounted (pool : Pool α) : Prop where
  counter : pool.curcache = pool.lqh.length
  nodup : pool.lqh.Nodup
  chains : ∀ b, b ∈ pool.lqh ↔ ∃ k, b ∈ pool.hqh k
  grown : pool.maxcache < pool.curcache → pool.grown = true

/-- Whether `mpool_bkt` gets a bucket: a new one, or one that it need not write or can write. -/
def Obtains (env : Env) (pool : Pool α) : Prop :=
  if pool.curcache < pool.maxcache then
    env.allocOk = true
  else
    match pool.lqh.find? (fun b => !(pool.bkt b).pinned) with
    | none => env.allocOk = true
    | some b => (pool.bkt b).dirty = true → env.writeOk (pool.bkt b).pgno = true

/-- The steps that lose a bucket: a deletion, and a failed read into a bucket just taken. -/
def Loses (pool : Pool α) (call : Call α) : Prop :=
  match call.op with
  | .delete b => b ∈ pool.lqh
  | .get pgno _ =>
      pgno < pool.npages ∧ mpoolLook pool pgno = none ∧ Obtains call.env pool
        ∧ call.env.readOk = false
  | _ => False

/-- What holds between two operations; `lost` counts the lost buckets. -/
structure Counted (pool : Pool α) (lost : Nat) : Prop where
  linked : Linked pool
  counter : pool.curcache = pool.lqh.length + lost
  grown : pool.maxcache < pool.curcache → pool.grown = true

/-- The accounting is right exactly if no bucket was lost. -/
theorem Counted.iff_lossless {pool : Pool α} {lost : Nat} (counted : Counted pool lost)
    : Accounted pool ↔ lost = 0 := by
  constructor
  · intro accounted
    have := counted.counter
    have := accounted.counter
    omega
  · rintro rfl
    refine ⟨by simpa using counted.counter, counted.linked.nodup, fun b => ?_, counted.grown⟩
    constructor
    · exact fun queued => ⟨_, (counted.linked.chain _ b).mpr ⟨queued, rfl⟩⟩
    · rintro ⟨k, chained⟩
      exact ((counted.linked.chain k b).mp chained).1

theorem counted_open (filter : Filter α) (maxcache npages : Nat) (file : Nat → α)
    : Counted (mpoolOpen filter maxcache npages file) 0 := by
  refine ⟨⟨List.nodup_nil, ?_, fun _ => List.nodup_nil, ?_⟩, rfl, fun _ => rfl⟩
  · intro k c
    simp [mpoolOpen]
  · intro c queued
    simp [mpoolOpen] at queued

section

variable {filter : Filter α} {env : Env} {pool : Pool α} {lost b : Nat}

/-- Changes that touch neither the queues nor the counter keep the accounting. -/
theorem Counted.of_same (counted : Counted pool lost) {other : Pool α} (linked : Linked other)
    (lqh : other.lqh = pool.lqh) (curcache : other.curcache = pool.curcache)
    (maxcache : other.maxcache = pool.maxcache) (grown : other.grown = pool.grown)
    : Counted other lost := by
  refine ⟨linked, ?_, ?_⟩
  · rw [lqh, curcache]
    exact counted.counter
  · rw [maxcache, curcache, grown]
    exact counted.grown

/-- After `mpool_bkt` one bucket more is counted than is on the queue, if it gave one. -/
theorem Taken.counted {result : Option Nat × Pool α} (taken : Taken filter env pool result)
    (counted : Counted pool lost)
    : Counted result.2 (if result.1.isSome then lost + 1 else lost) := by
  have linked := (taken.linked counted.linked).1
  have counter := counted.counter
  cases taken with
  | noMemory => exact counted
  | noWrite b failed => exact counted.of_same linked rfl rfl rfl rfl
  | new reason =>
      refine ⟨linked, ?_, fun larger => ?_⟩
      · show pool.curcache + 1 = pool.lqh.length + (lost + 1)
        omega
      · show pool.lqh.all (fun b => (pool.bkt b).pinned) = true
        rcases reason with room | pinned
        · have : pool.maxcache < pool.curcache + 1 := larger
          omega
        · simpa using pinned
  | clean b queued free clean =>
      refine ⟨linked, ?_, counted.grown⟩
      show pool.curcache = (pool.lqh.erase b).length + (lost + 1)
      have := List.length_pos_of_mem queued
      rw [List.length_erase_of_mem queued]
      omega
  | flushed b queued free dirty =>
      refine ⟨linked, ?_, counted.grown⟩
      show pool.curcache = (pool.lqh.erase b).length + (lost + 1)
      have := List.length_pos_of_mem queued
      rw [List.length_erase_of_mem queued]
      omega

/-- Putting a bucket in hand on the queues makes up for it. -/
theorem Counted.insert (counted : Counted pool (lost + 1)) (off : b ∉ pool.lqh)
    (old : b < pool.fresh)
    : Counted (pool.insert b) lost := by
  refine ⟨counted.linked.insert off old, ?_, counted.grown⟩
  have := counted.counter
  show pool.curcache = (pool.lqh ++ [b]).length + lost
  simp only [List.length_append, List.length_singleton]
  omega

theorem Counted.setBkt (counted : Counted pool lost) (b : Nat) (bkt : Bkt α)
    (keeps : b ∈ pool.lqh → bkt.pgno = (pool.bkt b).pgno)
    : Counted (pool.setBkt b bkt) lost :=
  counted.of_same (counted.linked.setBkt b bkt keeps) rfl rfl rfl rfl

/-- Taking a bucket off the queues loses it. -/
theorem Counted.remove (counted : Counted pool lost) (queued : b ∈ pool.lqh)
    : Counted (pool.remove b) (lost + 1) := by
  refine ⟨counted.linked.remove b, ?_, counted.grown⟩
  have := counted.counter
  have := List.length_pos_of_mem queued
  show pool.curcache = (pool.lqh.erase b).length + (lost + 1)
  rw [List.length_erase_of_mem queued]
  omega

/-- Whether `mpool_bkt` gives a bucket can be told beforehand. -/
theorem mpoolBkt_isSome_iff
    : (mpoolBkt filter env pool).1.isSome = true ↔ Obtains env pool := by
  have fresh : (mpoolNewBkt filter env pool).1.isSome = true ↔ env.allocOk = true := by
    rw [mpoolNewBkt]
    split <;> simp_all
  rw [mpoolBkt, Obtains]
  split
  · exact fresh
  cases pool.lqh.find? (fun b => !(pool.bkt b).pinned) with
  | none => exact fresh
  | some b =>
      simp only [mpoolWrite_eq]
      split
      · next dirty =>
        by_cases ok : env.writeOk (pool.bkt b).pgno <;> simp [ok, dirty]
      · next clean => simp [clean]

theorem counted_newf (counted : Counted pool lost) {request : Option Nat}
    {result : Option Nat × Pool α} (done : mpoolNewf filter env pool request = some result)
    : Counted result.2 lost := by
  have taken := mpoolBkt_taken filter env pool
  have next := taken.counted counted
  have off := (taken.linked counted.linked).2
  rw [mpoolNewf] at done
  split at done
  · cases done
  generalize mpoolBkt filter env pool = answer at next off done
  obtain ⟨_ | b, pool'⟩ := answer
  · cases done
    simpa using next
  · obtain ⟨unqueued, old⟩ := off b rfl
    cases done
    have held : Counted pool' (lost + 1) := by simpa using next
    have numbered : Counted { pool' with npages := pool'.npages + 1 } (lost + 1) :=
      held.of_same
        ⟨held.linked.nodup, held.linked.chain, held.linked.single, held.linked.old⟩ rfl rfl rfl rfl
    exact (numbered.setBkt _ _ (fun queued => absurd queued unqueued)).insert unqueued old

/-- A `get` keeps the accounting unless it reads in vain into a bucket just taken. -/
theorem counted_get (filter : Filter α) (env : Env) (counted : Counted pool lost) (pgno : Nat) (ignorePin : Bool)
    : ∃ more, Counted (mpoolGet filter env pool pgno ignorePin).2 (lost + more)
      ∧ (more = 0 ↔ ¬ (pgno < pool.npages ∧ mpoolLook pool pgno = none
        ∧ (mpoolBkt filter env pool).1.isSome = true ∧ env.readOk = false)) := by
  rw [mpoolGet]
  split
  · next outside => exact ⟨0, counted, iff_of_true rfl (fun h => by omega)⟩
  next inside =>
  cases look : mpoolLook pool pgno with
  | some b =>
      have queued := (mpoolLook_some counted.linked look).1
      have moved := (counted.remove queued).insert counted.linked.nodup.not_mem_erase
        (counted.linked.old b queued)
      refine ⟨0, moved.setBkt _ _ (fun _ => ?_), iff_of_true rfl (fun h => by cases h.2.1)⟩
      split <;> rfl
  | none =>
      have taken := mpoolBkt_taken filter env pool
      have next := taken.counted counted
      have off := (taken.linked counted.linked).2
      generalize mpoolBkt filter env pool = answer at next off
      obtain ⟨_ | b, pool'⟩ := answer
      · exact ⟨0, by simpa using next, iff_of_true rfl (fun h => by cases h.2.2.1)⟩
      · obtain ⟨unqueued, old⟩ := off b rfl
        have held : Counted pool' (lost + 1) := by simpa using next
        cases read : env.readOk with
        | false =>
            refine ⟨1, by simpa [read] using held, iff_of_false (by simp) (fun h => h ?_)⟩
            exact ⟨by omega, rfl, rfl, rfl⟩
        | true =>
            have put := (held.setBkt b
              { (if ignorePin then pool'.bkt b
                  else { pool'.bkt b with dirty := false, pinned := true }) with
                page := pool'.file pgno
                pgno := pgno
                inuse := true } (fun queued => absurd queued unqueued)).insert unqueued old
            exact ⟨0, put.setBkt _ _ (fun _ => by simp),
              iff_of_true rfl (fun h => by cases h.2.2.2)⟩

theorem counted_sync_loop (queue : List Nat)
    : ∀ {pool : Pool α}, Counted pool lost →
      Counted (mpoolSync.loop filter env queue pool).2 lost := by
  induction queue with
  | nil => exact fun counted => counted
  | cons b queue ih =>
      intro pool counted
      rw [mpoolSync.loop]
      split
      · rw [mpoolWrite_eq]
        by_cases ok : env.writeOk (pool.bkt b).pgno
        · simp only [ok, if_true]
          exact ih (counted.of_same (counted.linked.written b) rfl rfl rfl rfl)
        · simp only [ok, Bool.false_eq_true, if_false]
          exact counted.of_same (counted.linked.unwritten b) rfl rfl rfl rfl
      · exact ih counted

end

/-- One operation, and whether it loses a bucket. -/
theorem counted_step {filter : Filter α} {pool next : Pool α} {lost : Nat}
    (counted : Counted pool lost) {call : Call α} (stepped : step filter pool call = some next)
    : ∃ more, Counted next (lost + more) ∧ (more = 0 ↔ ¬ Loses pool call) := by
  obtain ⟨op, env⟩ := call
  cases op with
  | newf request =>
      rw [step] at stepped
      obtain ⟨result, done, rfl⟩ := Option.map_eq_some_iff.mp stepped
      exact ⟨0, counted_newf counted done, iff_of_true rfl id⟩
  | get pgno ignorePin =>
      cases stepped
      obtain ⟨more, kept, loses⟩ := counted_get filter env counted pgno ignorePin
      refine ⟨more, kept, ?_⟩
      simp only [mpoolBkt_isSome_iff] at loses
      exact loses
  | put b dirty =>
      cases stepped
      refine ⟨0, ?_, iff_of_true rfl id⟩
      split
      · exact counted.setBkt _ _ (fun _ => rfl)
      · exact counted
  | delete b =>
      cases stepped
      by_cases queued : b ∈ pool.lqh
      · refine ⟨1, ?_, iff_of_false (by simp) (fun h => h queued)⟩
        simp only [if_pos queued]
        exact counted.remove queued
      · refine ⟨0, ?_, iff_of_true rfl queued⟩
        simp only [if_neg queued]
        exact counted
  | sync =>
      cases stepped
      exact ⟨0, counted_sync_loop pool.lqh counted, iff_of_true rfl id⟩
  | store b page =>
      cases stepped
      refine ⟨0, ?_, iff_of_true rfl id⟩
      split
      · exact counted.setBkt _ _ (fun _ => rfl)
      · exact counted

/-- No step of a run loses a bucket. -/
def Lossless (filter : Filter α) : List (Call α) → Pool α → Prop
  | [], _ => True
  | call :: calls, pool =>
      ¬ Loses pool call ∧ ∀ next, step filter pool call = some next → Lossless filter calls next

theorem counted_run {filter : Filter α} (calls : List (Call α))
    : ∀ {pool final : Pool α} {lost : Nat}, Counted pool lost →
      run filter calls pool = some final →
      ∃ more, Counted final (lost + more) ∧ (more = 0 ↔ Lossless filter calls pool) := by
  induction calls with
  | nil =>
      intro pool final lost counted ran
      cases ran
      exact ⟨0, counted, iff_of_true rfl trivial⟩
  | cons call calls ih =>
      intro pool final lost counted ran
      rw [run] at ran
      obtain ⟨next, stepped, rest⟩ := Option.bind_eq_some_iff.mp ran
      obtain ⟨more, kept, loses⟩ := counted_step counted stepped
      obtain ⟨further, kept', loses'⟩ := ih kept rest
      refine ⟨more + further, by rwa [← Nat.add_assoc], ?_⟩
      rw [Nat.add_eq_zero_iff, loses, loses', Lossless]
      refine and_congr_right fun _ => ⟨fun lossless next' stepped' => ?_, fun h => h next stepped⟩
      rw [stepped] at stepped'
      cases stepped'
      exact lossless

/-- Pages of one number, stored as they are. -/
def plain : Filter Nat := { zero := 0, pgin := fun _ page => page, pgout := fun _ page => page }

end BSDLibC.Mpool
