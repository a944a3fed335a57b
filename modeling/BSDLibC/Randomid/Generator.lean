import Mathlib.Algebra.Order.Ring.Nat
import Mathlib.Data.Nat.Bitwise
import BSDLibC.Lcg.FullPeriod

/-! The identifier generator of `gen/randomid.c`: a linear congruential generator picks the
exponents of a generator of the residues modulo a prime. All values are 32-bit words; the
random words and the clock are streams the caller cannot choose.
-/

namespace BSDLibC.Randomid

/-- `struct randomconf` -/
structure Conf where
  bits : Nat
  max : Nat
  gen : Nat
  n : Nat
  agen : Nat
  m : Nat
  pfacts : List Nat
  skip : Nat
deriving DecidableEq, Repr

/-- `randomconf[]`, without the entry that ends it. -/
def randomconf : List Conf :=
  [ { bits := 32
      max := 1000000000
      gen := 2
      n := 2147483629
      agen := 7
      m := 1836660096
      pfacts := [2, 3, 59652323]
      skip := 3 },
    { bits := 20
      max := 200000
      gen := 2
      n := 524269
      agen := 7
      m := 279936
      pfacts := [2, 3, 14563]
      skip := 3 },
    { bits := 16
      max := 30000
      gen := 2
      n := 32749
      agen := 7
      m := 31104
      pfacts := [2, 3, 2729]
      skip := 0 } ]

/-- `struct randomid_ctx`; the fields after `out` are the ones `memset` clears. -/
structure Ctx where
  conf : Conf
  out : Int
  counter : Nat := 0
  msb : Nat := 0
  x : Nat := 0
  seed : Nat := 0
  seed2 : Nat := 0
  a : Nat := 0
  b : Nat := 0
  g : Nat := 0
  reseed : Int := 0
deriving DecidableEq, Repr

/-- The outside of the generator: the words `arc4random` gives, the seconds `gettimeofday`
gives, how many of each were taken, and how often `initid` has run.
-/
structure World where
  random : Nat → UInt32
  clock : Nat → Int
  drawn : Nat := 0
  asked : Nat := 0
  inits : Nat := 0

/-- `arc4random` -/
def World.arc4random (world : World) : Nat × World :=
  ((world.random world.drawn).toNat, { world with drawn := world.drawn + 1 })

/-- `gettimeofday`, of which only the seconds are read. -/
def World.gettimeofday (world : World) : Int × World :=
  (world.clock world.asked, { world with asked := world.asked + 1 })

/-- The loop of `pmod` over 64-bit words, for as many rounds as the exponent has bits. -/
def pmod.loop (mod : Nat) : Nat → Nat → Nat → Nat → Nat
  | 0, s, _, _ => s
  | rounds + 1, s, t, u =>
      if u = 0 then
        s
      else
        let s := if u &&& 1 = 1 then (s * t) % 2 ^ 64 % mod else s
        pmod.loop mod rounds s ((t * t) % 2 ^ 64 % mod) (u >>> 1)

/-- `pmod`; the exponent has 32 bits. -/
def pmod (gen expo mod : Nat) : Nat := pmod.loop mod 32 1 gen expo % 2 ^ 32

/-- The loop of `initid` that steps `b` off the multiples of three. -/
def initid.increment : Nat → Nat → Option Nat
  | 0, _ => none
  | rounds + 1, b =>
      if b % 3 = 0 then
        initid.increment rounds ((b + 2) % 2 ^ 32)
      else
        some b

/-- The loop of `initid` that looks for an exponent without a factor in `pfacts`. -/
def initid.exponent (conf : Conf) : Nat → Nat → Option Nat
  | 0, _ => none
  | rounds + 1, j =>
      if conf.pfacts.any (fun factor => j % factor = 0) then
        initid.exponent conf rounds ((j + 1) % conf.n)
      else
        some j

/-- `~0U >> (32 - bits)` -/
def mask (bits : Nat) : Nat := (2 ^ 32 - 1) >>> (32 - bits)

/-- `initid`; the result is `none` if one of its two loops did not come to an end. -/
def initid (p : Ctx) (world : World) : Option (Ctx × World) := do
  let conf := p.conf
  let (x, world) := world.arc4random
  let (seed, world) := world.arc4random
  let (seed2, world) := world.arc4random
  let (b, world) := world.arc4random
  let (a, world) := world.arc4random
  let b ← initid.increment conf.n ((b &&& mask conf.bits) ||| 1)
  let (j, world) := world.arc4random
  let j ← initid.exponent conf (conf.n + 2) (j % conf.n)
  let (seconds, world) := world.gettimeofday
  some
    ({ p with
        x := x % conf.m
        seed := seed &&& mask (conf.bits - 1)
        seed2 := seed2 &&& mask (conf.bits - 1)
        b := b
        a := pmod conf.agen ((a &&& mask conf.bits) &&& (2 ^ 32 - 2)) conf.m
        g := pmod conf.gen j conf.n
        counter := 0
        reseed := seconds + p.out
        msb := if p.msb = 0 then 1 <<< (conf.bits - 1) else 0 },
      { world with inits := world.inits + 1 })

/-- `RANDOMID_TIMEO_MIN` -/
def timeoMin : Int := 60

/-- `randomid_new`, the allocation succeeding. -/
def randomidNew (bits : Int) (timeo : Int) : Option Ctx :=
  if timeo < timeoMin then
    none
  else
    (randomconf.find? (fun conf => bits = conf.bits)).map
      (fun conf => { conf := conf, out := timeo })

/-- The step of the linear congruential generator in `randomid`, over 64-bit words. -/
def randomid.step (p : Ctx) (x : Nat) : Nat :=
  (p.a * x + p.b) % 2 ^ 64 % p.conf.m

/-- The part of `randomid` behind the two tests: the steps over the skipped values and the
id itself.
-/
def randomid.emit (n : Nat) (p : Ctx) : Nat × Ctx :=
  let p :=
    { p with
      x := (randomid.step p)^[n + 1] p.x
      counter := (p.counter + (n + 1)) % 2 ^ 32 }
  ((p.seed ^^^ pmod p.g ((p.seed2 + p.x) % 2 ^ 32) p.conf.n) ||| p.msb, p)

/-- `randomid` -/
def randomid (p : Ctx) (world : World) : Option (Nat × Ctx × World) := do
  let (seconds, world) := world.gettimeofday
  let (p, world) ←
    if p.counter ≥ p.conf.max ∨ seconds > p.reseed then initid p world else some (p, world)
  if p.conf.skip ≠ 0 then
    let (word, world) := world.arc4random
    let n := word &&& p.conf.skip
    let (p, world) ←
      if (p.counter + n) % 2 ^ 32 ≥ p.conf.max then initid p world else some (p, world)
    let (id, p) := randomid.emit n p
    some (id, p, world)
  else
    let (id, p) := randomid.emit 0 p
    some (id, p, world)

/-- An id together with the number of times `initid` had run when it was returned. -/
structure Issued where
  id : Nat
  epoch : Nat
deriving DecidableEq, Repr

/-- The ids of a number of successive calls of `randomid`. -/
def run : Nat → Ctx → World → Option (List Issued)
  | 0, _, _ => some []
  | calls + 1, p, world => do
      let (id, p, world) ← randomid p world
      let later ← run calls p world
      some (⟨id, world.inits⟩ :: later)

end BSDLibC.Randomid
