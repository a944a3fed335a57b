import Mathlib.Algebra.Order.Ring.Nat
import Mathlib.Data.List.Basic
import Mathlib.Data.List.Nodup
import Mathlib.Tactic.Common

/-! The memory pool of `db/mpool/mpool.c`: pages of a file kept in buckets, each on a hash chain
and on the queue of least recent use. The queues are lists of bucket addresses; the content of
a page is of any type.
-/

namespace BSDLibC.Mpool

/-- `HASHSIZE` -/
def hashSize : Nat := 128

/-- `HASHKEY`, on 32-bit page numbers. -/
@[irreducible]
def hashKey (pgno : Nat) : Nat := (pgno + 2 ^ 32 - 1) % 2 ^ 32 % hashSize

/-- `MAX_PAGE_NUMBER` -/
def maxPageNumber : Nat := 0xffffffff

/-- `BKT`, with its flags apart. -/
structure Bkt (α : Type) where
  page : α
  pgno : Nat
  dirty : Bool
  pinned : Bool
  inuse : Bool

/-- The page filters of a pool and the content of a cleared page. -/
structure Filter (α : Type) where
  zero : α
  pgin : Nat → α → α
  pgout : Nat → α → α

/-- `MPOOL` with its buckets in memory and its file. What lies behind the end of the file reads
as zero. `grown` remembers whether every bucket on the queue was pinned when the last one was
allocated; no function reads it.
-/
structure Pool (α : Type) where
  lqh : List Nat
  hqh : Nat → List Nat
  bkt : Nat → Bkt α
  curcache : Nat
  maxcache : Nat
  npages : Nat
  file : Nat → α
  fresh : Nat
  grown : Bool

/-- What the system answers during one call: to `calloc`, to `pread`, and to `pwrite` for a page
number.
-/
structure Env where
  allocOk : Bool := true
  readOk : Bool := true
  writeOk : Nat → Bool := fun _ => true

section

variable {α : Type}

/-- An assignment to a bucket. -/
def Pool.setBkt (pool : Pool α) (b : Nat) (bkt : Bkt α) : Pool α :=
  { pool with bkt := Function.update pool.bkt b bkt }

/-- `TAILQ_REMOVE` from the hash chain of a bucket's page and from the queue. -/
def Pool.remove (pool : Pool α) (b : Nat) : Pool α :=
  let key := hashKey (pool.bkt b).pgno
  { pool with
    hqh := Function.update pool.hqh key ((pool.hqh key).erase b)
    lqh := pool.lqh.erase b }

/-- `TAILQ_INSERT_HEAD` into the hash chain of a bucket's page and `TAILQ_INSERT_TAIL` into the
queue.
-/
def Pool.insert (pool : Pool α) (b : Nat) : Pool α :=
  let key := hashKey (pool.bkt b).pgno
  { pool with
    hqh := Function.update pool.hqh key (b :: pool.hqh key)
    lqh := pool.lqh ++ [b] }

/-- `mpool_look` -/
def mpoolLook (pool : Pool α) (pgno : Nat) : Option Nat :=
  (pool.hqh (hashKey pgno)).find? (fun b => (pool.bkt b).pgno = pgno)

/-- `mpool_write`; a failed write leaves the page as `pgout` made it. -/
def mpoolWrite (filter : Filter α) (env : Env) (pool : Pool α) (b : Nat) : Bool × Pool α :=
  let bkt := pool.bkt b
  let out := filter.pgout bkt.pgno bkt.page
  if env.writeOk bkt.pgno then
    (true,
      { pool.setBkt b { bkt with page := filter.pgin bkt.pgno out, dirty := false } with
        file := Function.update pool.file bkt.pgno out })
  else
    (false, pool.setBkt b { bkt with page := out })

/-- The end of `mpool_bkt`: a cleared bucket from `calloc`. -/
def mpoolNewBkt (filter : Filter α) (env : Env) (pool : Pool α) : Option Nat × Pool α :=
  if env.allocOk then
    (some pool.fresh,
      { pool.setBkt pool.fresh ⟨filter.zero, 0, false, false, false⟩ with
        fresh := pool.fresh + 1
        curcache := pool.curcache + 1
        grown := pool.lqh.all (fun b => (pool.bkt b).pinned) })
  else
    (none, pool)

/-- `mpool_bkt` -/
def mpoolBkt (filter : Filter α) (env : Env) (pool : Pool α) : Option Nat × Pool α :=
  if pool.curcache < pool.maxcache then
    mpoolNewBkt filter env pool
  else
    match pool.lqh.find? (fun b => !(pool.bkt b).pinned) with
    | none => mpoolNewBkt filter env pool
    | some b =>
        if (pool.bkt b).dirty then
          match mpoolWrite filter env pool b with
          | (false, pool) => (none, pool)
          | (true, pool) => (some b, pool.remove b)
        else
          (some b, pool.remove b)

/-- `mpool_newf`: with a page number for `MPOOL_PAGE_REQUEST`, else for the next page. The result
is the address of the bucket; past the last page number the process is aborted.
-/
def mpoolNewf (filter : Filter α) (env : Env) (pool : Pool α) (request : Option Nat)
    : Option (Option Nat × Pool α) :=
  if pool.npages = maxPageNumber then
    none
  else
    match mpoolBkt filter env pool with
    | (none, pool) => some (none, pool)
    | (some b, pool) =>
        let pgno := request.getD pool.npages
        let bkt := pool.bkt b
        let pool := { pool with npages := pool.npages + 1 }
        let pool := pool.setBkt b
          { bkt with pgno := pgno, dirty := false, pinned := true, inuse := true }
        some (some b, pool.insert b)

/-- `mpool_delete` of the page in a bucket. -/
def mpoolDelete (pool : Pool α) (b : Nat) : Pool α := pool.remove b

/-- `mpool_get` -/
def mpoolGet (filter : Filter α) (env : Env) (pool : Pool α) (pgno : Nat) (ignorePin : Bool)
    : Option Nat × Pool α :=
  if pgno ≥ pool.npages then
    (none, pool)
  else
    match mpoolLook pool pgno with
    | some b =>
        let pool := (pool.remove b).insert b
        let bkt := pool.bkt b
        (some b, pool.setBkt b (if ignorePin then bkt else { bkt with pinned := true }))
    | none =>
        match mpoolBkt filter env pool with
        | (none, pool) => (none, pool)
        | (some b, pool) =>
            if env.readOk then
              let bkt := pool.bkt b
              let bkt :=
                if ignorePin then bkt else { bkt with dirty := false, pinned := true }
              let bkt := { bkt with page := pool.file pgno, pgno := pgno, inuse := true }
              let pool := (pool.setBkt b bkt).insert b
              (some b, pool.setBkt b { bkt with page := filter.pgin pgno bkt.page })
            else
              (none, pool)

/-- `mpool_put` of the page in a bucket. -/
def mpoolPut (pool : Pool α) (b : Nat) (dirty : Bool) : Pool α :=
  let bkt := pool.bkt b
  pool.setBkt b { bkt with pinned := false, dirty := bkt.dirty || dirty }

/-- The loop of `mpool_sync` over the buckets of the queue. -/
def mpoolSync.loop (filter : Filter α) (env : Env) : List Nat → Pool α → Bool × Pool α
  | [], pool => (true, pool)
  | b :: rest, pool =>
      if (pool.bkt b).dirty then
        match mpoolWrite filter env pool b with
        | (false, pool) => (false, pool)
        | (true, pool) => mpoolSync.loop filter env rest pool
      else
        mpoolSync.loop filter env rest pool

/-- `mpool_sync`; whether `fsync` succeeds changes nothing in the pool. -/
def mpoolSync (filter : Filter α) (env : Env) (pool : Pool α) : Bool × Pool α :=
  mpoolSync.loop filter env pool.lqh pool

/-- `mpool_open` on a file of `npages` pages. -/
def mpoolOpen (filter : Filter α) (maxcache npages : Nat) (file : Nat → α) : Pool α :=
  { lqh := []
    hqh := fun _ => []
    bkt := fun _ => ⟨filter.zero, 0, false, false, false⟩
    curcache := 0
    maxcache := maxcache
    npages := npages
    file := file
    fresh := 0
    grown := true }

end

end BSDLibC.Mpool
