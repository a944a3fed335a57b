import BSDLibC.Mpool.Cache

/-! Whole runs of a pool whose users keep to its rules: the pool is a transparent cache of the
file in every state reached.
-/

namespace BSDLibC.Mpool

variable {α : Type}

section

variable {filter : Filter α} {env : Env} {pool : Pool α} {view : Nat → α} {b : Nat}

theorem coherent_newf (inverse : ∀ n page, filter.pgin n (filter.pgout n page) = page)
    (reliable : env.Reliable) (coherent : Coherent filter ⟨pool, view⟩) {request : Option Nat}
    (unused : mpoolLook pool (request.getD pool.npages) = none)
    {result : Option Nat × Pool α} (done : mpoolNewf filter env pool request = some result)
    : Coherent filter ⟨result.2, view⟩ := by
  have taken := mpoolBkt_taken filter env pool
  have off := (taken.linked coherent.linked).2
  have next := taken.coherent inverse reliable coherent
  rw [mpoolNewf] at done
  split at done
  · cases done
  generalize mpoolBkt filter env pool = answer at next off done
  obtain ⟨kept, fewer, numbers, npages, -⟩ := next
  obtain ⟨_ | b, pool'⟩ := answer
  · cases done
    exact kept
  · obtain ⟨unqueued, old⟩ := off b rfl
    cases done
    have longer : Coherent filter ⟨{ pool' with npages := pool'.npages + 1 }, view⟩ :=
      kept.of_same ⟨kept.linked.nodup, kept.linked.chain, kept.linked.single, kept.linked.old⟩
        (fun _ => Iff.rfl) rfl rfl
    refine (longer.setBkt_off unqueued _).insert unqueued old ?_ (by simp)
    intro c queued
    have differ : c ≠ b := fun same => unqueued (same ▸ queued)
    have number : ((pool'.bkt c).pgno) = (pool.bkt c).pgno := numbers c queued
    rw [setBkt_same, setBkt_other _ _ _ differ]
    show (pool'.bkt c).pgno ≠ request.getD pool'.npages
    rw [number, show pool'.npages = pool.npages from npages]
    exact mpoolLook_none coherent.linked unused (fewer c queued)

/-- A bucket may be changed before it is put on the queues or after. -/
theorem insert_setBkt (pool : Pool α) (b : Nat) {early late : Bkt α}
    (number : early.pgno = late.pgno)
    : ((pool.setBkt b early).insert b).setBkt b late = (pool.setBkt b late).insert b := by
  simp [Pool.insert, Pool.setBkt, number]

/-- A page got is the one asked for, as it was last put unless it is being changed. -/
theorem coherent_get (inverse : ∀ n page, filter.pgin n (filter.pgout n page) = page)
    (reliable : env.Reliable) (coherent : Coherent filter ⟨pool, view⟩) (pgno : Nat)
    (ignorePin : Bool) {result : Option Nat × Pool α}
    (done : mpoolGet filter env pool pgno ignorePin = result)
    : Coherent filter ⟨result.2, view⟩
      ∧ ∀ b, result.1 = some b →
        (∀ c ∈ pool.lqh, (pool.bkt c).pgno = pgno → Settled ⟨pool, view⟩ c) →
        (result.2.bkt b).pgno = pgno ∧ (result.2.bkt b).page = view pgno := by
  subst done
  rw [mpoolGet]
  split
  · exact ⟨coherent, by simp⟩
  cases look : mpoolLook pool pgno with
  | some b =>
      obtain ⟨queued, number⟩ := mpoolLook_some coherent.linked look
      have linked := (coherent.linked.remove b).insert coherent.linked.nodup.not_mem_erase
        (coherent.linked.old b queued)
      have lqh (c : Nat) : c ∈ ((pool.remove b).insert b).lqh ↔ c ∈ pool.lqh := by
        rw [insert_lqh, remove_lqh, List.mem_append, List.mem_singleton,
          coherent.linked.nodup.mem_erase_iff]
        constructor
        · rintro (⟨-, h⟩ | rfl)
          · exact h
          · exact queued
        · intro h
          by_cases same : c = b
          · exact .inr same
          · exact .inl ⟨same, h⟩
      have moved := coherent.of_same linked lqh rfl rfl
      refine ⟨moved.setBkt ((lqh b).mpr queued) (by split <;> rfl) ?_ ?_, ?_⟩
      · intro unpinned
        cases ignorePin with
        | false => cases unpinned
        | true => exact coherent.free b queued unpinned
      · intro notDirty
        cases ignorePin <;> exact notDirty
      · rintro c ⟨⟩ settled
        have page : (pool.bkt b).page = view (pool.bkt b).pgno := settled b queued number
        rw [number] at page
        simp only [setBkt_same]
        cases ignorePin <;> exact ⟨number, page⟩
  | none =>
      have taken := mpoolBkt_taken filter env pool
      have off := (taken.linked coherent.linked).2
      have next := taken.coherent inverse reliable coherent
      generalize mpoolBkt filter env pool = answer at next off
      obtain ⟨kept, fewer, numbers, -, -⟩ := next
      obtain ⟨_ | b, pool'⟩ := answer
      · exact ⟨kept, by simp⟩
      · obtain ⟨unqueued, old⟩ := off b rfl
        simp only [reliable.1, if_true]
        have absent (c : Nat) (queued : c ∈ pool'.lqh) : (pool'.bkt c).pgno ≠ pgno := by
          rw [show (pool'.bkt c).pgno = (pool.bkt c).pgno from numbers c queued]
          exact mpoolLook_none coherent.linked look (fewer c queued)
        have content : filter.pgin pgno (pool'.file pgno) = view pgno := kept.absent pgno absent
        generalize chosen : (if ignorePin then pool'.bkt b
          else { pool'.bkt b with dirty := false, pinned := true }) = bkt
        refine ⟨?_, ?_⟩
        · rw [insert_setBkt]
          swap
          · rfl
          refine (kept.setBkt_off unqueued _).insert unqueued old ?_ ?_
          · intro c queued
            have differ : c ≠ b := fun same => unqueued (same ▸ queued)
            rw [setBkt_same, setBkt_other _ _ _ differ]
            exact absent c queued
          · rw [setBkt_same]
            exact fun _ => content
        · rintro c ⟨⟩ -
          simp only [setBkt_same]
          exact ⟨trivial, content⟩

/-- What the loop of `mpool_sync` does when no dirty page is being changed. -/
theorem coherent_sync_loop (inverse : ∀ n page, filter.pgin n (filter.pgout n page) = page)
    (reliable : env.Reliable) (queue : List Nat)
    : ∀ {pool : Pool α}, Coherent filter ⟨pool, view⟩ → (∀ b ∈ queue, b ∈ pool.lqh) →
      (∀ b ∈ queue, (pool.bkt b).dirty = true → Settled ⟨pool, view⟩ b) →
      ∃ next, mpoolSync.loop filter env queue pool = (true, next)
        ∧ Coherent filter ⟨next, view⟩ ∧ next.lqh = pool.lqh
        ∧ ∀ c, c ∈ queue ∨ (pool.bkt c).dirty = false → (next.bkt c).dirty = false := by
  induction queue with
  | nil =>
      intro pool coherent _ _
      exact ⟨pool, rfl, coherent, rfl, fun c h => h.resolve_left (List.not_mem_nil)⟩
  | cons b queue ih =>
      intro pool coherent queued settled
      have rest : ∀ c ∈ queue, c ∈ pool.lqh := fun c h => queued c (List.mem_cons_of_mem b h)
      rw [mpoolSync.loop]
      split
      · next dirty =>
        have here := queued b List.mem_cons_self
        have saved := coherent.written inverse here (settled b List.mem_cons_self dirty)
        have same : (written filter pool b).bkt b = { pool.bkt b with dirty := false } := by
          simp [written, inverse]
        have other {c : Nat} (differ : c ≠ b) : (written filter pool b).bkt c = pool.bkt c :=
          setBkt_other _ _ _ differ
        rw [mpoolWrite_eq, if_pos (reliable.2 _)]
        obtain ⟨next, done, kept, lqh, clean⟩ := ih saved rest (fun c h dirty' => by
          have differ : c ≠ b := by
            rintro rfl
            rw [same] at dirty'
            cases dirty'
          rw [other differ] at dirty'
          have before := settled c (List.mem_cons_of_mem b h) dirty'
          rw [Settled] at before ⊢
          simp only [other differ]
          exact before)
        refine ⟨next, done, kept, lqh, fun c h => clean c ?_⟩
        by_cases isB : c = b
        · exact .inr (by rw [isB, same])
        · rw [other isB]
          simpa [isB] using h
      · next notDirty =>
        obtain ⟨next, done, kept, lqh, clean⟩ :=
          ih coherent rest (fun c h => settled c (List.mem_cons_of_mem b h))
        refine ⟨next, done, kept, lqh, fun c h => clean c ?_⟩
        by_cases isB : c = b
        · exact .inr (by simpa [isB] using notDirty)
        · simpa [isB] using h

/-- After a sync the file has every page as it was last put. -/
theorem coherent_sync (inverse : ∀ n page, filter.pgin n (filter.pgout n page) = page)
    (reliable : env.Reliable) (coherent : Coherent filter ⟨pool, view⟩)
    (settled : ∀ b ∈ pool.lqh, (pool.bkt b).dirty = true → Settled ⟨pool, view⟩ b)
    : ∃ next, mpoolSync filter env pool = (true, next) ∧ Coherent filter ⟨next, view⟩
      ∧ ∀ pgno, stored filter next pgno = view pgno := by
  obtain ⟨next, done, kept, lqh, clean⟩ :=
    coherent_sync_loop inverse reliable pool.lqh coherent (fun _ h => h) settled
  refine ⟨next, done, kept, fun pgno => ?_⟩
  by_cases present : ∃ b ∈ next.lqh, (next.bkt b).pgno = pgno
  · obtain ⟨b, queued, rfl⟩ := present
    exact kept.clean b queued (clean b (.inl (lqh ▸ queued)))
  · exact kept.absent pgno fun b queued same => present ⟨b, queued, same⟩

/-- One operation of users who keep to the rules. -/
theorem coherent_step (inverse : ∀ n page, filter.pgin n (filter.pgout n page) = page)
    {seen next : Seen α} (coherent : Coherent filter seen) {call : Call α}
    (disciplined : Disciplined seen call) (stepped : seenStep filter seen call = some next)
    : Coherent filter next := by
  obtain ⟨op, env⟩ := call
  obtain ⟨pool, view⟩ := seen
  obtain ⟨reliable, rules⟩ := disciplined
  rw [seenStep] at stepped
  obtain ⟨pool', done, rfl⟩ := Option.map_eq_some_iff.mp stepped
  cases op with
  | newf request =>
      rw [step] at done
      obtain ⟨result, made, rfl⟩ := Option.map_eq_some_iff.mp done
      exact coherent_newf inverse reliable coherent rules made
  | get pgno ignorePin =>
      cases done
      exact (coherent_get inverse reliable coherent pgno ignorePin rfl).1
  | put b dirty =>
      cases done
      by_cases queued : b ∈ pool.lqh
      · cases dirty with
        | false =>
            simp only [if_pos queued]
            refine coherent.setBkt queued rfl (fun _ => rules queued) ?_
            intro notDirty
            simpa using notDirty
        | true =>
            simp only [if_pos queued, nextView]
            refine coherent.assign queued rfl (fun _ => rfl) ?_
            intro notDirty
            simp at notDirty
      · cases dirty <;> simpa only [nextView, if_neg queued] using coherent
  | delete b =>
      cases done
      by_cases queued : b ∈ pool.lqh
      · simp only [if_pos queued, nextView]
        exact coherent.drop b queued
      · simpa only [nextView, if_neg queued] using coherent
  | sync =>
      cases done
      obtain ⟨next, synced, kept, -⟩ := coherent_sync inverse reliable coherent rules
      simp only [synced]
      exact kept
  | store b page =>
      cases done
      by_cases queued : b ∈ pool.lqh
      · simp only [if_pos queued]
        refine coherent.setBkt queued rfl (fun unpinned => ?_) id
        have pinned : (pool.bkt b).pinned = true := rules
        simp [pinned] at unpinned
      · simp only [if_neg queued]
        exact coherent

/-- A pinned bucket is not taken by `mpool_bkt`. -/
theorem Taken.held {result : Option Nat × Pool α} (taken : Taken filter env pool result)
    (linked : Linked pool) (queued : b ∈ pool.lqh) (pinned : (pool.bkt b).pinned = true)
    : b ∈ result.2.lqh ∧ (result.2.bkt b).pgno = (pool.bkt b).pgno := by
  cases taken with
  | noMemory => exact ⟨queued, rfl⟩
  | noWrite c failed =>
      refine ⟨queued, ?_⟩
      by_cases same : b = c
      · subst same
        simp [unwritten]
      · exact congrArg Bkt.pgno (setBkt_other _ _ _ same)
  | new reason =>
      have differ : b ≠ pool.fresh := Nat.ne_of_lt (linked.old b queued)
      exact ⟨queued, congrArg Bkt.pgno (setBkt_other _ _ _ differ)⟩
  | clean c queued' free clean =>
      have differ : b ≠ c := by
        rintro rfl
        simp [pinned] at free
      exact ⟨(List.mem_erase_of_ne differ).mpr queued, rfl⟩
  | flushed c queued' free dirty =>
      have differ : b ≠ c := by
        rintro rfl
        simp [pinned] at free
      exact ⟨(List.mem_erase_of_ne differ).mpr queued, written_pgno filter pool c b⟩

theorem held_sync_loop (filter : Filter α) (env : Env) (queue : List Nat)
    : ∀ pool : Pool α, (mpoolSync.loop filter env queue pool).2.lqh = pool.lqh
      ∧ ∀ c, ((mpoolSync.loop filter env queue pool).2.bkt c).pgno = (pool.bkt c).pgno := by
  induction queue with
  | nil => exact fun pool => ⟨rfl, fun _ => rfl⟩
  | cons b queue ih =>
      intro pool
      rw [mpoolSync.loop]
      split
      · rw [mpoolWrite_eq]
        by_cases ok : env.writeOk (pool.bkt b).pgno
        · simp only [ok, if_true]
          obtain ⟨lqh, numbers⟩ := ih (written filter pool b)
          exact ⟨lqh, fun c => (numbers c).trans (written_pgno filter pool b c)⟩
        · simp only [ok, Bool.false_eq_true, if_false]
          refine ⟨rfl, fun c => ?_⟩
          by_cases same : c = b
          · subst same
            simp [unwritten]
          · exact congrArg Bkt.pgno (setBkt_other _ _ _ same)
      · exact ih pool

theorem held_newf (linked : Linked pool) (queued : b ∈ pool.lqh)
    (pinned : (pool.bkt b).pinned = true) {request : Option Nat}
    {result : Option Nat × Pool α} (done : mpoolNewf filter env pool request = some result)
    : b ∈ result.2.lqh ∧ (result.2.bkt b).pgno = (pool.bkt b).pgno := by
  have taken := mpoolBkt_taken filter env pool
  have off := (taken.linked linked).2
  have held := taken.held linked queued pinned
  rw [mpoolNewf] at done
  split at done
  · cases done
  generalize mpoolBkt filter env pool = answer at held off done
  obtain ⟨still, number⟩ := held
  obtain ⟨_ | c, pool'⟩ := answer
  · cases done
    exact ⟨still, number⟩
  · cases done
    have differ : b ≠ c := by
      rintro rfl
      exact (off b rfl).1 still
    exact ⟨List.mem_append_left _ still,
      (congrArg Bkt.pgno (setBkt_other _ _ _ differ)).trans number⟩

theorem held_get (linked : Linked pool) (queued : b ∈ pool.lqh)
    (pinned : (pool.bkt b).pinned = true) (pgno : Nat) (ignorePin : Bool)
    {result : Option Nat × Pool α} (done : mpoolGet filter env pool pgno ignorePin = result)
    : b ∈ result.2.lqh ∧ (result.2.bkt b).pgno = (pool.bkt b).pgno := by
  subst done
  rw [mpoolGet]
  split
  · exact ⟨queued, rfl⟩
  cases look : mpoolLook pool pgno with
  | some c =>
      by_cases same : b = c
      · subst same
        refine ⟨List.mem_append_right _ (List.mem_singleton.mpr rfl), ?_⟩
        simp only [setBkt_same]
        split <;> rfl
      · exact ⟨List.mem_append_left _ ((List.mem_erase_of_ne same).mpr queued),
          congrArg Bkt.pgno (setBkt_other _ _ _ same)⟩
  | none =>
      have taken := mpoolBkt_taken filter env pool
      have off := (taken.linked linked).2
      have held := taken.held linked queued pinned
      generalize mpoolBkt filter env pool = answer at held off
      obtain ⟨still, number⟩ := held
      obtain ⟨_ | c, pool'⟩ := answer
      · exact ⟨still, number⟩
      · have differ : b ≠ c := by
          rintro rfl
          exact (off b rfl).1 still
        by_cases read : env.readOk = true
        · simp only [read, if_true]
          refine ⟨List.mem_append_left _ still, ?_⟩
          rw [setBkt_other _ _ _ differ, insert_bkt, setBkt_other _ _ _ differ]
          exact number
        · simp only [read, Bool.false_eq_true, if_false]
          exact ⟨still, number⟩

/-- Only its own deletion takes a pinned page out of the pool. -/
theorem held_step (linked : Linked pool) (queued : b ∈ pool.lqh)
    (pinned : (pool.bkt b).pinned = true) {call : Call α} {next : Pool α}
    (stepped : step filter pool call = some next) (own : call.op ≠ .delete b)
    : b ∈ next.lqh ∧ (next.bkt b).pgno = (pool.bkt b).pgno := by
  have assigned (c : Nat) (bkt : Bkt α) (number : bkt.pgno = (pool.bkt c).pgno)
      : b ∈ (pool.setBkt c bkt).lqh ∧ ((pool.setBkt c bkt).bkt b).pgno = (pool.bkt b).pgno := by
    refine ⟨queued, ?_⟩
    by_cases same : b = c
    · subst same
      rw [setBkt_same, number]
    · rw [setBkt_other _ _ _ same]
  obtain ⟨op, env⟩ := call
  cases op with
  | newf request =>
      rw [step] at stepped
      obtain ⟨result, made, rfl⟩ := Option.map_eq_some_iff.mp stepped
      exact held_newf linked queued pinned made
  | get pgno ignorePin =>
      cases stepped
      exact held_get linked queued pinned pgno ignorePin rfl
  | put c dirty =>
      cases stepped
      split
      · exact assigned c _ rfl
      · exact ⟨queued, rfl⟩
  | delete c =>
      cases stepped
      split
      · have differ : b ≠ c := fun same => own (by rw [same])
        exact ⟨(List.mem_erase_of_ne differ).mpr queued, rfl⟩
      · exact ⟨queued, rfl⟩
  | sync =>
      cases stepped
      obtain ⟨lqh, numbers⟩ := held_sync_loop filter env pool.lqh pool
      refine ⟨?_, numbers b⟩
      rw [mpoolSync, lqh]
      exact queued
  | store c page =>
      cases stepped
      split
      · exact assigned c _ rfl
      · exact ⟨queued, rfl⟩

/-- A page below the end of the pool is got whenever there is memory. -/
theorem mpoolGet_isSome (filter : Filter α) (reliable : env.Reliable) (memory : env.allocOk = true) {pgno : Nat}
    (inside : pgno < pool.npages) (ignorePin : Bool)
    : (mpoolGet filter env pool pgno ignorePin).1.isSome = true := by
  have obtains : Obtains env pool := by
    rw [Obtains]
    split
    · exact memory
    cases pool.lqh.find? (fun b => !(pool.bkt b).pinned) with
    | none => exact memory
    | some b => exact fun _ => reliable.2 _
  have taken : (mpoolBkt filter env pool).1.isSome = true := mpoolBkt_isSome_iff.mpr obtains
  rw [mpoolGet, if_neg (by omega)]
  cases mpoolLook pool pgno with
  | some b => rfl
  | none =>
      generalize mpoolBkt filter env pool = answer at taken
      obtain ⟨_ | b, pool'⟩ := answer
      · cases taken
      · simp [reliable.1]

end

/-- What a user of the pool can rely on: every page of the pool can be got, and is as it was last
put unless someone has it pinned and changed; a page number has one bucket; a pinned page stays
until it is deleted; and a sync brings every page to the file unless a dirty page is changed.
-/
structure Transparent (filter : Filter α) (seen : Seen α) : Prop where
  got : ∀ (env : Env) (pgno : Nat) (ignorePin : Bool), env.Reliable → env.allocOk = true →
    pgno < seen.pool.npages →
    (∀ c ∈ seen.pool.lqh, (seen.pool.bkt c).pgno = pgno →
      (seen.pool.bkt c).pinned = true → Settled seen c) →
    ∃ b next, mpoolGet filter env seen.pool pgno ignorePin = (some b, next)
      ∧ (next.bkt b).pgno = pgno ∧ (next.bkt b).page = seen.view pgno
  single : ∀ k l b c, b ∈ seen.pool.hqh k → c ∈ seen.pool.hqh l →
    (seen.pool.bkt b).pgno = (seen.pool.bkt c).pgno → b = c
  nodup : ∀ k, (seen.pool.hqh k).Nodup
  held : ∀ b ∈ seen.pool.lqh, (seen.pool.bkt b).pinned = true →
    ∀ (call : Call α) (next : Pool α), step filter seen.pool call = some next →
    call.op ≠ .delete b →
    b ∈ next.lqh ∧ (next.bkt b).pgno = (seen.pool.bkt b).pgno
  synced : ∀ env : Env, env.Reliable →
    (∀ b ∈ seen.pool.lqh, (seen.pool.bkt b).dirty = true → Settled seen b) →
    ∃ next, mpoolSync filter env seen.pool = (true, next)
      ∧ ∀ pgno, stored filter next pgno = seen.view pgno

theorem Coherent.transparent {filter : Filter α} {seen : Seen α}
    (inverse : ∀ n page, filter.pgin n (filter.pgout n page) = page)
    (coherent : Coherent filter seen)
    : Transparent filter seen := by
  have linked := coherent.linked
  refine ⟨?_, ?_, linked.single, ?_, ?_⟩
  · intro env pgno ignorePin reliable memory inside settled
    obtain ⟨b, found⟩ := Option.isSome_iff_exists.mp
      (mpoolGet_isSome filter reliable memory inside ignorePin)
    obtain ⟨-, content⟩ := coherent_get inverse reliable coherent pgno ignorePin rfl
    refine ⟨b, _, Prod.ext found rfl, content b found fun c queued number => ?_⟩
    cases pinned : (seen.pool.bkt c).pinned with
    | false => exact coherent.free c queued pinned
    | true => exact settled c queued number pinned
  · intro k l b c inK inL same
    exact coherent.unique b ((linked.chain k b).mp inK).1 c ((linked.chain l c).mp inL).1 same
  · intro b queued pinned call next stepped own
    exact held_step linked queued pinned stepped own
  · intro env reliable settled
    obtain ⟨next, done, -, content⟩ := coherent_sync inverse reliable coherent settled
    exact ⟨next, done, content⟩

/-- The state after a sequence of operations. -/
def seenRun (filter : Filter α) : List (Call α) → Seen α → Option (Seen α)
  | [], seen => some seen
  | call :: calls, seen => do seenRun filter calls (← seenStep filter seen call)

/-- Every step of a run keeps to the rules. -/
def Obeys (filter : Filter α) : List (Call α) → Seen α → Prop
  | [], _ => True
  | call :: calls, seen =>
      Disciplined seen call ∧
      ∀ next, seenStep filter seen call = some next → Obeys filter calls next

theorem coherent_run {filter : Filter α}
    (inverse : ∀ n page, filter.pgin n (filter.pgout n page) = page) (calls : List (Call α))
    : ∀ {seen final : Seen α}, Coherent filter seen → Obeys filter calls seen →
      seenRun filter calls seen = some final → Coherent filter final := by
  induction calls with
  | nil =>
      intro seen final coherent _ ran
      cases ran
      exact coherent
  | cons call calls ih =>
      intro seen final coherent obeys ran
      rw [seenRun] at ran
      obtain ⟨next, stepped, rest⟩ := Option.bind_eq_some_iff.mp ran
      exact ih (coherent_step inverse coherent obeys.1 stepped) (obeys.2 next stepped) rest

/-- A pool whose users keep to its rules is transparent after every run. -/
theorem run_transparent {filter : Filter α}
    (inverse : ∀ n page, filter.pgin n (filter.pgout n page) = page) {maxcache npages : Nat}
    {file : Nat → α} {calls : List (Call α)} {final : Seen α}
    (obeys : Obeys filter calls (seenOpen filter maxcache npages file))
    (ran : seenRun filter calls (seenOpen filter maxcache npages file) = some final)
    : Transparent filter final :=
  (coherent_run inverse calls (coherent_open filter maxcache npages file) obeys ran).transparent
    inverse

/-- A new page filled and put, in a pool for one page. -/
theorem run_transparent_filled
    : ∃ final, seenRun plain [⟨.newf none, {}⟩, ⟨.store 0 7, {}⟩, ⟨.put 0 true, {}⟩]
        (seenOpen plain 1 0 (fun _ => 0)) = some final
      ∧ final.view 0 = 7 ∧ Transparent plain final := by
  obtain ⟨final, ran, shown⟩
      : ∃ final, seenRun plain [⟨.newf none, {}⟩, ⟨.store 0 7, {}⟩, ⟨.put 0 true, {}⟩]
        (seenOpen plain 1 0 (fun _ => 0)) = some final ∧ final.view 0 = 7 := ⟨_, rfl, rfl⟩
  refine ⟨final, ran, shown, run_transparent (fun _ _ => rfl) ?_ ran⟩
  refine ⟨⟨⟨rfl, fun _ => rfl⟩, rfl⟩, ?_⟩
  rintro next ⟨⟩
  refine ⟨⟨⟨rfl, fun _ => rfl⟩, rfl⟩, ?_⟩
  rintro next ⟨⟩
  exact ⟨⟨⟨rfl, fun _ => rfl⟩, trivial⟩, fun _ _ => trivial⟩

/-- What `mpool_get` returns of a page. -/
def gotten (filter : Filter α) (pool : Pool α) (pgno : Nat) : Option α :=
  let result := mpoolGet filter {} pool pgno false
  result.1.map (fun b => (result.2.bkt b).page)

/-- A new page in a bucket used before shows the old page when it is put clean and got again, and
a page asked for twice has two buckets.
-/
theorem new_page_not_transparent
    : (∃ final, seenRun plain
          [⟨.newf none, {}⟩, ⟨.store 0 7, {}⟩, ⟨.put 0 true, {}⟩, ⟨.newf none, {}⟩,
            ⟨.put 0 false, {}⟩]
          (seenOpen plain 1 0 (fun _ => 0)) = some final
        ∧ gotten plain final.pool 1 = some 7 ∧ final.view 1 = 0)
      ∧ ∃ final, seenRun plain [⟨.newf (some 3), {}⟩, ⟨.newf (some 3), {}⟩]
          (seenOpen plain 2 0 (fun _ => 0)) = some final
        ∧ final.pool.lqh = [0, 1] ∧ (final.pool.bkt 0).pgno = (final.pool.bkt 1).pgno := by
  refine ⟨⟨_, rfl, ?_, rfl⟩, _, rfl, rfl, rfl⟩
  decide +kernel

end BSDLibC.Mpool
