import BSDLibC.Mpool.Pool

/-! The queues of a pool under its operations: a bucket is on the queue exactly if it is on the
hash chain of its page, and what `mpool_bkt` can do is said once.
-/

namespace BSDLibC.Mpool

variable {α : Type} {filter : Filter α} {env : Env} {pool : Pool α} {b : Nat}

/-- The queue and the hash chains hold the same buckets, each once. -/
structure Linked (pool : Pool α) : Prop where
  nodup : pool.lqh.Nodup
  chain : ∀ k c, c ∈ pool.hqh k ↔ c ∈ pool.lqh ∧ hashKey (pool.bkt c).pgno = k
  single : ∀ k, (pool.hqh k).Nodup
  old : ∀ c ∈ pool.lqh, c < pool.fresh

section

variable (pool : Pool α) (b c : Nat) (bkt : Bkt α)

@[simp]
theorem setBkt_lqh : (pool.setBkt b bkt).lqh = pool.lqh := rfl

@[simp]
theorem setBkt_hqh : (pool.setBkt b bkt).hqh = pool.hqh := rfl

@[simp]
theorem setBkt_file : (pool.setBkt b bkt).file = pool.file := rfl

@[simp]
theorem setBkt_same : (pool.setBkt b bkt).bkt b = bkt := Function.update_self ..

theorem setBkt_other {c : Nat} (differ : c ≠ b) : (pool.setBkt b bkt).bkt c = pool.bkt c :=
  Function.update_of_ne differ ..

@[simp]
theorem remove_lqh : (pool.remove b).lqh = pool.lqh.erase b := rfl

@[simp]
theorem remove_bkt : (pool.remove b).bkt = pool.bkt := rfl

@[simp]
theorem remove_file : (pool.remove b).file = pool.file := rfl

theorem remove_hqh_same
    : (pool.remove b).hqh (hashKey (pool.bkt b).pgno)
      = (pool.hqh (hashKey (pool.bkt b).pgno)).erase b :=
  Function.update_self ..

theorem remove_hqh_other {k : Nat} (differ : k ≠ hashKey (pool.bkt b).pgno)
    : (pool.remove b).hqh k = pool.hqh k :=
  Function.update_of_ne differ ..

theorem insert_hqh_same
    : (pool.insert b).hqh (hashKey (pool.bkt b).pgno)
      = b :: pool.hqh (hashKey (pool.bkt b).pgno) :=
  Function.update_self ..

theorem insert_hqh_other {k : Nat} (differ : k ≠ hashKey (pool.bkt b).pgno)
    : (pool.insert b).hqh k = pool.hqh k :=
  Function.update_of_ne differ ..

@[simp]
theorem insert_lqh : (pool.insert b).lqh = pool.lqh ++ [b] := rfl

@[simp]
theorem insert_bkt : (pool.insert b).bkt = pool.bkt := rfl

@[simp]
theorem insert_file : (pool.insert b).file = pool.file := rfl

end

/-- Changing a bucket keeps the queues if the bucket is on none or keeps its page number. -/
theorem Linked.setBkt (linked : Linked pool) (b : Nat) (bkt : Bkt α)
    (keeps : b ∈ pool.lqh → bkt.pgno = (pool.bkt b).pgno)
    : Linked (pool.setBkt b bkt) := by
  refine ⟨linked.nodup, fun k c => ?_, linked.single, linked.old⟩
  rw [setBkt_hqh, setBkt_lqh, linked.chain]
  refine and_congr_right fun queued => ?_
  by_cases same : c = b
  · subst same
    rw [setBkt_same, keeps queued]
  · rw [setBkt_other pool b bkt same]

/-- Taking a bucket off its queues. -/
theorem Linked.remove (linked : Linked pool) (b : Nat) : Linked (pool.remove b) := by
  refine ⟨linked.nodup.erase b, fun k c => ?_, fun k => ?_, fun c queued => ?_⟩
  · rw [remove_lqh, remove_bkt, linked.nodup.mem_erase_iff]
    by_cases key : k = hashKey (pool.bkt b).pgno
    · rw [key, remove_hqh_same, (linked.single _).mem_erase_iff, linked.chain, and_assoc]
    · rw [remove_hqh_other pool b key, linked.chain]
      constructor
      · rintro ⟨queued, same⟩
        refine ⟨⟨?_, queued⟩, same⟩
        rintro rfl
        exact key same.symm
      · rintro ⟨⟨-, queued⟩, same⟩
        exact ⟨queued, same⟩
  · by_cases key : k = hashKey (pool.bkt b).pgno
    · rw [key, remove_hqh_same]
      exact (linked.single _).erase b
    · rw [remove_hqh_other pool b key]
      exact linked.single k
  · exact linked.old c (List.mem_of_mem_erase queued)

/-- Putting a bucket on its queues. -/
theorem Linked.insert (linked : Linked pool) (off : b ∉ pool.lqh) (old : b < pool.fresh)
    : Linked (pool.insert b) := by
  refine ⟨?_, fun k c => ?_, fun k => ?_, fun c queued => ?_⟩
  · rw [insert_lqh, List.nodup_append]
    refine ⟨linked.nodup, List.nodup_singleton b, fun c queued d same => ?_⟩
    rw [List.mem_singleton] at same
    rintro rfl
    exact off (same ▸ queued)
  · rw [insert_lqh, insert_bkt, List.mem_append, List.mem_singleton]
    by_cases key : k = hashKey (pool.bkt b).pgno
    · rw [key, insert_hqh_same, List.mem_cons, linked.chain]
      constructor
      · rintro (rfl | ⟨queued, same⟩)
        · exact ⟨.inr rfl, rfl⟩
        · exact ⟨.inl queued, same⟩
      · rintro ⟨queued | rfl, same⟩
        · exact .inr ⟨queued, same⟩
        · exact .inl rfl
    · rw [insert_hqh_other pool b key, linked.chain]
      constructor
      · rintro ⟨queued, same⟩
        exact ⟨.inl queued, same⟩
      · rintro ⟨queued | rfl, same⟩
        · exact ⟨queued, same⟩
        · exact absurd same.symm key
  · by_cases key : k = hashKey (pool.bkt b).pgno
    · rw [key, insert_hqh_same, List.nodup_cons]
      exact ⟨fun chained => off ((linked.chain _ _).mp chained).1, linked.single _⟩
    · rw [insert_hqh_other pool b key]
      exact linked.single k
  · rw [insert_lqh, List.mem_append, List.mem_singleton] at queued
    rcases queued with queued | rfl
    · exact linked.old c queued
    · exact old

/-- A bucket found by `mpool_look` is on the queue and has the page. -/
theorem mpoolLook_some (linked : Linked pool) {pgno : Nat} (found : mpoolLook pool pgno = some b)
    : b ∈ pool.lqh ∧ (pool.bkt b).pgno = pgno := by
  have here := List.find?_some found
  have chained := List.mem_of_find?_eq_some found
  exact ⟨((linked.chain _ _).mp chained).1, by simpa using here⟩

/-- A page `mpool_look` does not find has no bucket. -/
theorem mpoolLook_none (linked : Linked pool) {pgno : Nat} (absent : mpoolLook pool pgno = none)
    {c : Nat} (queued : c ∈ pool.lqh)
    : (pool.bkt c).pgno ≠ pgno := by
  intro same
  have chained := (linked.chain (hashKey pgno) c).mpr ⟨queued, by rw [same]⟩
  simpa [same] using List.find?_eq_none.mp absent c chained

/-- The pool after a successful write of a bucket. -/
def written (filter : Filter α) (pool : Pool α) (b : Nat) : Pool α :=
  let bkt := pool.bkt b
  let out := filter.pgout bkt.pgno bkt.page
  { pool.setBkt b { bkt with page := filter.pgin bkt.pgno out, dirty := false } with
    file := Function.update pool.file bkt.pgno out }

/-- The pool after a failed write of a bucket. -/
def unwritten (filter : Filter α) (pool : Pool α) (b : Nat) : Pool α :=
  let bkt := pool.bkt b
  pool.setBkt b { bkt with page := filter.pgout bkt.pgno bkt.page }

theorem mpoolWrite_eq (filter : Filter α) (env : Env) (pool : Pool α) (b : Nat)
    : mpoolWrite filter env pool b
      = if env.writeOk (pool.bkt b).pgno then (true, written filter pool b)
        else (false, unwritten filter pool b) := rfl

theorem Linked.written (linked : Linked pool) (b : Nat) : Linked (written filter pool b) := by
  have set := linked.setBkt b
    { pool.bkt b with
      page := filter.pgin (pool.bkt b).pgno (filter.pgout (pool.bkt b).pgno (pool.bkt b).page)
      dirty := false } (fun _ => rfl)
  exact ⟨set.nodup, set.chain, set.single, set.old⟩

theorem Linked.unwritten (linked : Linked pool) (b : Nat) : Linked (unwritten filter pool b) :=
  linked.setBkt _ _ (fun _ => rfl)

/-- The pool with one more bucket, not yet on a queue. -/
def allocated (filter : Filter α) (pool : Pool α) : Pool α :=
  { pool.setBkt pool.fresh ⟨filter.zero, 0, false, false, false⟩ with
    fresh := pool.fresh + 1
    curcache := pool.curcache + 1
    grown := pool.lqh.all (fun b => (pool.bkt b).pinned) }

theorem Linked.allocated (linked : Linked pool) : Linked (allocated filter pool) := by
  have set := linked.setBkt pool.fresh ⟨filter.zero, 0, false, false, false⟩
    (fun queued => absurd (linked.old _ queued) (Nat.lt_irrefl _))
  refine ⟨set.nodup, set.chain, set.single, fun c queued => ?_⟩
  have : c < pool.fresh := linked.old c queued
  exact Nat.lt_succ_of_lt this

/-- The ways in which `mpool_bkt` can end. -/
inductive Taken (filter : Filter α) (env : Env) (pool : Pool α) : Option Nat × Pool α → Prop where
  | noMemory : Taken filter env pool (none, pool)
  | noWrite (b : Nat) (failed : env.writeOk (pool.bkt b).pgno = false)
      : Taken filter env pool (none, unwritten filter pool b)
  | new (reason : pool.curcache < pool.maxcache ∨ ∀ c ∈ pool.lqh, (pool.bkt c).pinned = true)
      : Taken filter env pool (some pool.fresh, allocated filter pool)
  | clean (b : Nat) (queued : b ∈ pool.lqh) (free : (pool.bkt b).pinned = false)
      (clean : (pool.bkt b).dirty = false)
      : Taken filter env pool (some b, pool.remove b)
  | flushed (b : Nat) (queued : b ∈ pool.lqh) (free : (pool.bkt b).pinned = false)
      (dirty : (pool.bkt b).dirty = true)
      : Taken filter env pool (some b, (written filter pool b).remove b)

theorem mpoolNewBkt_taken
    (reason : pool.curcache < pool.maxcache ∨ ∀ c ∈ pool.lqh, (pool.bkt c).pinned = true)
    : Taken filter env pool (mpoolNewBkt filter env pool) := by
  rw [mpoolNewBkt]
  split
  · exact .new reason
  · exact .noMemory

/-- Everything `mpool_bkt` can do. -/
theorem mpoolBkt_taken (filter : Filter α) (env : Env) (pool : Pool α)
    : Taken filter env pool (mpoolBkt filter env pool) := by
  rw [mpoolBkt]
  split
  · next room => exact mpoolNewBkt_taken (.inl room)
  cases found : pool.lqh.find? (fun b => !(pool.bkt b).pinned) with
  | none =>
      refine mpoolNewBkt_taken (.inr fun c queued => ?_)
      simpa using List.find?_eq_none.mp found c queued
  | some b =>
      have queued := List.mem_of_find?_eq_some found
      have free : (pool.bkt b).pinned = false := by simpa using List.find?_some found
      simp only [mpoolWrite_eq]
      split
      · next dirty =>
        by_cases ok : env.writeOk (pool.bkt b).pgno
        · simp only [ok, if_true]
          exact .flushed b queued free dirty
        · simp only [ok, Bool.false_eq_true, if_false]
          exact .noWrite b (by simpa using ok)
      · next clean => exact .clean b queued free (by simpa using clean)

/-- What `mpool_bkt` leaves: linked queues, and a bucket that is on none of them. -/
theorem Taken.linked {result : Option Nat × Pool α} (taken : Taken filter env pool result)
    (linked : Linked pool)
    : Linked result.2 ∧ ∀ c, result.1 = some c → c ∉ result.2.lqh ∧ c < result.2.fresh := by
  cases taken with
  | noMemory => exact ⟨linked, by simp⟩
  | noWrite b failed => exact ⟨linked.unwritten b, by simp⟩
  | new reason =>
      refine ⟨linked.allocated, ?_⟩
      rintro c ⟨⟩
      exact ⟨fun queued => Nat.lt_irrefl _ (linked.old _ queued), Nat.lt_succ_self _⟩
  | clean b queued free clean =>
      refine ⟨linked.remove b, ?_⟩
      rintro c ⟨⟩
      exact ⟨linked.nodup.not_mem_erase, linked.old b queued⟩
  | flushed b queued free dirty =>
      refine ⟨(linked.written b).remove b, ?_⟩
      rintro c ⟨⟩
      exact ⟨linked.nodup.not_mem_erase, linked.old b queued⟩

end BSDLibC.Mpool
