import BSDLibC.Mpool.Accounting

/-! A pool as a transparent cache of its file. The pages as their users left them are followed
beside the pool: a page put dirty takes its new content, and a page deleted falls back to what
the file has.
-/

namespace BSDLibC.Mpool

variable {α : Type}

/-- A pool together with the contents its users have put. -/
structure Seen (α : Type) where
  pool : Pool α
  view : Nat → α

/-- The content of a page as the file has it. -/
def stored (filter : Filter α) (pool : Pool α) (pgno : Nat) : α :=
  filter.pgin pgno (pool.file pgno)

/-- What an operation does to the contents put by the users. -/
def nextView (filter : Filter α) (seen : Seen α) : Op α → Nat → α
  | .put b true =>
      if b ∈ seen.pool.lqh then
        Function.update seen.view (seen.pool.bkt b).pgno (seen.pool.bkt b).page
      else
        seen.view
  | .delete b =>
      if b ∈ seen.pool.lqh then
        Function.update seen.view (seen.pool.bkt b).pgno
          (stored filter seen.pool (seen.pool.bkt b).pgno)
      else
        seen.view
  | _ => seen.view

/-- One operation on the pool and on what its users have put. -/
def seenStep (filter : Filter α) (seen : Seen α) (call : Call α) : Option (Seen α) :=
  (step filter seen.pool call).map
    (fun pool => { pool := pool, view := nextView filter seen call.op })

/-- A pool just opened shows what its file has. -/
def seenOpen (filter : Filter α) (maxcache npages : Nat) (file : Nat → α) : Seen α :=
  { pool := mpoolOpen filter maxcache npages file
    view := fun pgno => filter.pgin pgno (file pgno) }

/-- The page in a bucket is as it was last put. -/
def Settled (seen : Seen α) (b : Nat) : Prop :=
  (seen.pool.bkt b).page = seen.view (seen.pool.bkt b).pgno

/-- Reads and writes succeed. -/
def Env.Reliable (env : Env) : Prop := env.readOk = true ∧ ∀ pgno, env.writeOk pgno = true

/-- How a pool is meant to be used: a new page is not asked for under a number that has a
bucket, a page is changed only while it is pinned and then put dirty, and the pool is synced
while no dirty page is being changed.
-/
def Disciplined (seen : Seen α) (call : Call α) : Prop :=
  call.env.Reliable ∧
  match call.op with
  | .newf request => mpoolLook seen.pool (request.getD seen.pool.npages) = none
  | .get _ _ => True
  | .put b false => b ∈ seen.pool.lqh → Settled seen b
  | .put _ true => True
  | .delete _ => True
  | .sync => ∀ b ∈ seen.pool.lqh, (seen.pool.bkt b).dirty = true → Settled seen b
  | .store b _ => (seen.pool.bkt b).pinned = true

/-- What holds between two operations. -/
structure Coherent (filter : Filter α) (seen : Seen α) : Prop where
  linked : Linked seen.pool
  unique : ∀ b ∈ seen.pool.lqh, ∀ c ∈ seen.pool.lqh,
    (seen.pool.bkt b).pgno = (seen.pool.bkt c).pgno → b = c
  free : ∀ b ∈ seen.pool.lqh, (seen.pool.bkt b).pinned = false → Settled seen b
  clean : ∀ b ∈ seen.pool.lqh, (seen.pool.bkt b).dirty = false →
    stored filter seen.pool (seen.pool.bkt b).pgno = seen.view (seen.pool.bkt b).pgno
  absent : ∀ pgno, (∀ b ∈ seen.pool.lqh, (seen.pool.bkt b).pgno ≠ pgno) →
    stored filter seen.pool pgno = seen.view pgno

theorem coherent_open (filter : Filter α) (maxcache npages : Nat) (file : Nat → α)
    : Coherent filter (seenOpen filter maxcache npages file) := by
  refine ⟨(counted_open filter maxcache npages file).linked, ?_, ?_, ?_, fun _ _ => rfl⟩
  all_goals
    intro b queued
    simp [seenOpen, mpoolOpen] at queued

section

variable {filter : Filter α} {env : Env} {pool : Pool α} {view : Nat → α} {b : Nat}

/-- A bucket taken off the queues: its page is what the file has. -/
theorem Coherent.drop (coherent : Coherent filter ⟨pool, view⟩) (b : Nat)
    (queued : b ∈ pool.lqh)
    : Coherent filter
        ⟨pool.remove b, Function.update view (pool.bkt b).pgno
          (stored filter pool (pool.bkt b).pgno)⟩ := by
  have still {c : Nat} (h : c ∈ pool.lqh.erase b) : c ∈ pool.lqh := List.mem_of_mem_erase h
  have unseen {c : Nat} (h : c ∈ pool.lqh.erase b) : (pool.bkt c).pgno ≠ (pool.bkt b).pgno := by
    intro same
    have := coherent.unique c (still h) b queued same
    exact coherent.linked.nodup.not_mem_erase (this ▸ h)
  refine ⟨coherent.linked.remove b, ?_, ?_, ?_, ?_⟩
  · exact fun c hc d hd => coherent.unique c (still hc) d (still hd)
  · intro c hc unpinned
    rw [Settled]
    simp only [remove_bkt, Function.update_of_ne (unseen hc)]
    exact coherent.free c (still hc) unpinned
  · intro c hc notDirty
    simp only [remove_bkt, Function.update_of_ne (unseen hc)]
    exact coherent.clean c (still hc) notDirty
  · intro pgno none
    by_cases own : pgno = (pool.bkt b).pgno
    · subst own
      simp only [Function.update_self]
      rfl
    · simp only [Function.update_of_ne own]
      refine coherent.absent pgno fun c hc => ?_
      by_cases same : c = b
      · rw [same]
        exact fun h => own h.symm
      · exact none c ((List.mem_erase_of_ne same).mpr hc)

/-- A bucket whose page is in the file taken off the queues. -/
theorem Coherent.remove (coherent : Coherent filter ⟨pool, view⟩) (queued : b ∈ pool.lqh)
    (saved : stored filter pool (pool.bkt b).pgno = view (pool.bkt b).pgno)
    : Coherent filter ⟨pool.remove b, view⟩ := by
  have dropped := coherent.drop b queued
  rwa [saved, Function.update_eq_self] at dropped

/-- The order of the queue does not matter. -/
theorem Coherent.of_same (coherent : Coherent filter ⟨pool, view⟩) {other : Pool α}
    (linked : Linked other) (lqh : ∀ c, c ∈ other.lqh ↔ c ∈ pool.lqh)
    (bkt : other.bkt = pool.bkt) (file : other.file = pool.file)
    : Coherent filter ⟨other, view⟩ := by
  have free := coherent.free
  have clean := coherent.clean
  have absent := coherent.absent
  simp only [Settled, stored] at free clean absent
  refine ⟨linked, ?_, ?_, ?_, ?_⟩
  · simp only [lqh, bkt]
    exact coherent.unique
  · simp only [lqh, bkt, Settled]
    exact free
  · simp only [lqh, bkt, stored, file]
    exact clean
  · simp only [lqh, bkt, stored, file]
    exact absent

/-- A bucket on no queue may be changed. -/
theorem Coherent.setBkt_off (coherent : Coherent filter ⟨pool, view⟩) (off : b ∉ pool.lqh)
    (bkt : Bkt α)
    : Coherent filter ⟨pool.setBkt b bkt, view⟩ := by
  have other {c : Nat} (queued : c ∈ pool.lqh) : (pool.setBkt b bkt).bkt c = pool.bkt c :=
    setBkt_other _ _ _ (fun same => off (same ▸ queued))
  refine ⟨coherent.linked.setBkt b bkt (fun queued => absurd queued off), ?_, ?_, ?_, ?_⟩
  · intro c hc d hd
    simp only [other hc, other hd]
    exact coherent.unique c hc d hd
  · intro c hc unpinned
    rw [Settled]
    simp only [other hc] at unpinned ⊢
    exact coherent.free c hc unpinned
  · intro c hc notDirty
    simp only [other hc] at notDirty ⊢
    exact coherent.clean c hc notDirty
  · intro pgno none
    refine coherent.absent pgno fun c hc => ?_
    have := none c hc
    simpa only [other hc] using this

/-- A bucket on the queue changed, and with it what the users see of its page. -/
theorem Coherent.assign (coherent : Coherent filter ⟨pool, view⟩) (queued : b ∈ pool.lqh)
    {bkt : Bkt α} {page : α} (number : bkt.pgno = (pool.bkt b).pgno)
    (free : bkt.pinned = false → bkt.page = page)
    (clean : bkt.dirty = false → stored filter pool (pool.bkt b).pgno = page)
    : Coherent filter
        ⟨pool.setBkt b bkt, Function.update view (pool.bkt b).pgno page⟩ := by
  have other {c : Nat} (differ : c ≠ b) : (pool.setBkt b bkt).bkt c = pool.bkt c :=
    setBkt_other _ _ _ differ
  have numbers (c : Nat) : ((pool.setBkt b bkt).bkt c).pgno = (pool.bkt c).pgno := by
    by_cases same : c = b
    · rw [same, setBkt_same, number]
    · rw [other same]
  have apart {c : Nat} (hc : c ∈ pool.lqh) (differ : c ≠ b)
      : (pool.bkt c).pgno ≠ (pool.bkt b).pgno :=
    fun same => differ (coherent.unique c hc b queued same)
  refine ⟨coherent.linked.setBkt b bkt (fun _ => number), ?_, ?_, ?_, ?_⟩
  · intro c hc d hd
    simp only [numbers]
    exact coherent.unique c hc d hd
  · intro c hc unpinned
    rw [Settled]
    simp only [numbers]
    by_cases same : c = b
    · subst same
      simp only [setBkt_same, Function.update_self] at unpinned ⊢
      exact free unpinned
    · simp only [other same, Function.update_of_ne (apart hc same)] at unpinned ⊢
      exact coherent.free c hc unpinned
  · intro c hc notDirty
    simp only [numbers]
    by_cases same : c = b
    · subst same
      simp only [setBkt_same, Function.update_self] at notDirty ⊢
      exact clean notDirty
    · simp only [other same, Function.update_of_ne (apart hc same)] at notDirty ⊢
      exact coherent.clean c hc notDirty
  · intro pgno none
    simp only [numbers] at none
    have differ : pgno ≠ (pool.bkt b).pgno := fun h => none b queued h.symm
    simp only [Function.update_of_ne differ]
    exact coherent.absent pgno none

/-- A bucket on the queue changed as its users see it. -/
theorem Coherent.setBkt (coherent : Coherent filter ⟨pool, view⟩) (queued : b ∈ pool.lqh)
    {bkt : Bkt α} (number : bkt.pgno = (pool.bkt b).pgno)
    (free : bkt.pinned = false → bkt.page = view (pool.bkt b).pgno)
    (clean : bkt.dirty = false → (pool.bkt b).dirty = false)
    : Coherent filter ⟨pool.setBkt b bkt, view⟩ := by
  have assigned := coherent.assign queued number free
    (fun notDirty => coherent.clean b queued (clean notDirty))
  rwa [Function.update_eq_self] at assigned

/-- A bucket with a page that has none put on the queues. -/
theorem Coherent.insert (coherent : Coherent filter ⟨pool, view⟩) (off : b ∉ pool.lqh)
    (old : b < pool.fresh) (new : ∀ c ∈ pool.lqh, (pool.bkt c).pgno ≠ (pool.bkt b).pgno)
    (free : (pool.bkt b).pinned = false → (pool.bkt b).page = view (pool.bkt b).pgno)
    : Coherent filter ⟨pool.insert b, view⟩ := by
  have queue {c : Nat} : c ∈ (pool.insert b).lqh ↔ c ∈ pool.lqh ∨ c = b := by
    simp
  refine ⟨coherent.linked.insert off old, ?_, ?_, ?_, ?_⟩
  · intro c hc d hd same
    simp only [insert_bkt] at same
    rcases queue.mp hc with inC | isC <;> rcases queue.mp hd with inD | isD
    · exact coherent.unique c inC d inD same
    · exact absurd (isD ▸ same) (new c inC)
    · exact absurd (isC ▸ same.symm) (new d inD)
    · rw [isC, isD]
  · intro c hc unpinned
    rcases queue.mp hc with hc | rfl
    · exact coherent.free c hc unpinned
    · exact free unpinned
  · intro c hc notDirty
    rcases queue.mp hc with hc | rfl
    · exact coherent.clean c hc notDirty
    · exact coherent.absent _ new
  · intro pgno none
    exact coherent.absent pgno fun c hc => none c (queue.mpr (.inl hc))

theorem written_pgno (filter : Filter α) (pool : Pool α) (b c : Nat)
    : ((written filter pool b).bkt c).pgno = (pool.bkt c).pgno := by
  by_cases same : c = b
  · rw [same, written]
    simp
  · exact congrArg Bkt.pgno (setBkt_other _ _ _ same)

/-- A settled page written to the file. -/
theorem Coherent.written (inverse : ∀ n page, filter.pgin n (filter.pgout n page) = page)
    (coherent : Coherent filter ⟨pool, view⟩) (queued : b ∈ pool.lqh)
    (settled : Settled ⟨pool, view⟩ b)
    : Coherent filter ⟨written filter pool b, view⟩ := by
  have page_eq : (pool.bkt b).page = view (pool.bkt b).pgno := settled
  have same : (BSDLibC.Mpool.written filter pool b).bkt b
      = { pool.bkt b with dirty := false } := by
    rw [BSDLibC.Mpool.written]
    simp only [inverse]
    exact setBkt_same ..
  have other {c : Nat} (differ : c ≠ b)
      : (BSDLibC.Mpool.written filter pool b).bkt c = pool.bkt c := setBkt_other _ _ _ differ
  have number := written_pgno filter pool b
  have file_same : stored filter (BSDLibC.Mpool.written filter pool b) (pool.bkt b).pgno
      = view (pool.bkt b).pgno := by
    rw [stored, BSDLibC.Mpool.written]
    simp only [Function.update_self, inverse]
    exact page_eq
  have file_other {pgno : Nat} (differ : pgno ≠ (pool.bkt b).pgno)
      : stored filter (BSDLibC.Mpool.written filter pool b) pgno = stored filter pool pgno := by
    rw [stored, BSDLibC.Mpool.written]
    simp only [Function.update_of_ne differ]
    rfl
  refine ⟨coherent.linked.written b, ?_, ?_, ?_, ?_⟩
  · intro c hc d hd
    simp only [number]
    exact coherent.unique c hc d hd
  · intro c hc unpinned
    by_cases h : c = b
    · subst h
      rw [Settled]
      simp only [same]
      exact page_eq
    · simp only [other h] at unpinned
      rw [Settled]
      simp only [other h]
      exact coherent.free c hc unpinned
  · intro c hc notDirty
    simp only [number]
    by_cases own : (pool.bkt c).pgno = (pool.bkt b).pgno
    · rw [own]
      exact file_same
    · have differ : c ≠ b := fun h => own (by rw [h])
      simp only [other differ] at notDirty
      rw [file_other own]
      exact coherent.clean c hc notDirty
  · intro pgno none
    have differ : pgno ≠ (pool.bkt b).pgno := fun h => none b queued (by simp only [number]; exact h.symm)
    rw [file_other differ]
    refine coherent.absent pgno fun c hc => ?_
    have := none c hc
    simpa only [number] using this

/-- A bucket from `mpool_bkt` when reads and writes succeed. -/
theorem Taken.coherent (inverse : ∀ n page, filter.pgin n (filter.pgout n page) = page)
    (reliable : env.Reliable) {result : Option Nat × Pool α}
    (taken : Taken filter env pool result) (coherent : Coherent filter ⟨pool, view⟩)
    : Coherent filter ⟨result.2, view⟩ ∧ (∀ c ∈ result.2.lqh, c ∈ pool.lqh)
      ∧ (∀ c ∈ result.2.lqh, (result.2.bkt c).pgno = (pool.bkt c).pgno)
      ∧ result.2.npages = pool.npages
      ∧ ∀ c, result.1 = some c →
        (result.2.bkt c).pinned = false ∧ (result.2.bkt c).dirty = false := by
  cases taken with
  | noMemory => exact ⟨coherent, fun _ h => h, fun _ _ => rfl, rfl, by simp⟩
  | noWrite b failed => simp [reliable.2] at failed
  | new reason =>
      have off : pool.fresh ∉ pool.lqh :=
        fun queued => Nat.lt_irrefl _ (coherent.linked.old _ queued)
      have changed := coherent.setBkt_off off ⟨filter.zero, 0, false, false, false⟩
      refine ⟨changed.of_same coherent.linked.allocated (fun _ => Iff.rfl) rfl rfl, ?_, ?_, rfl, ?_⟩
      · exact fun _ h => h
      · intro c queued
        show ((pool.setBkt pool.fresh ⟨filter.zero, 0, false, false, false⟩).bkt c).pgno = _
        rw [setBkt_other]
        rintro rfl
        exact off queued
      · rintro c ⟨⟩
        show ((pool.setBkt pool.fresh ⟨filter.zero, 0, false, false, false⟩).bkt _).pinned = _ ∧
          ((pool.setBkt pool.fresh ⟨filter.zero, 0, false, false, false⟩).bkt _).dirty = _
        rw [setBkt_same]
        exact ⟨rfl, rfl⟩
  | clean b queued free clean =>
      refine ⟨coherent.remove queued (coherent.clean b queued clean),
        fun _ => List.mem_of_mem_erase, fun _ _ => rfl, rfl, ?_⟩
      rintro c ⟨⟩
      exact ⟨free, clean⟩
  | flushed b queued free dirty =>
      have saved := coherent.written inverse queued (coherent.free b queued free)
      have same : ((BSDLibC.Mpool.written filter pool b).bkt b).dirty = false
          ∧ ((BSDLibC.Mpool.written filter pool b).bkt b).pinned = (pool.bkt b).pinned := by
        simp [BSDLibC.Mpool.written]
      refine ⟨saved.remove queued (saved.clean b queued same.1), fun _ => List.mem_of_mem_erase,
        fun c _ => ?_, rfl, ?_⟩
      · exact written_pgno filter pool b c
      · rintro c ⟨⟩
        exact ⟨same.2.trans free, same.1⟩

end

end BSDLibC.Mpool
