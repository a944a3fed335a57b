import BSDLibC.Randomid.Cycle

/-! Runs of `randomid`: two ids with no `initid` between them differ, one `initid` flips the top
bit, and all ids have the bits of their configuration. A fresh context has not seen `initid`
and relies on the clock being past 0 at its first or second call.
-/

namespace BSDLibC.Randomid

/-- The top bit is one of its two values. -/
def TopBit (p : Ctx) : Prop := p.msb = 0 ∨ p.msb = 2 ^ (p.conf.bits - 1)

theorem mask_eq {bits : Nat} (width : bits ≤ 32) : mask bits = 2 ^ bits - 1 := by
  interval_cases bits <;> rfl

theorem and_mask_lt {bits : Nat} (width : bits ≤ 32) (x : Nat) : x &&& mask bits < 2 ^ bits := by
  rw [mask_eq width]
  exact Nat.and_lt_two_pow x (Nat.sub_lt (Nat.two_pow_pos bits) Nat.one_pos)

/-- What a run of `initid` leaves. -/
structure Initialised (p : Ctx) (world : World) (q : Ctx) (after : World) : Prop where
  conf : q.conf = p.conf
  counter : q.counter = 0
  ready : Ready q q.x
  msb : q.msb = if p.msb = 0 then 2 ^ (p.conf.bits - 1) else 0
  inits : after.inits = world.inits + 1

/-- `initid` always comes to its end. -/
theorem initid_spec {p : Ctx} (sound : p.conf.Sound) (world : World)
    : ∃ q after, initid p world = some (q, after) ∧ Initialised p world q after := by
  have max := sound.max
  have m := sound.m
  have n := sound.n_lt
  have bits := sound.bits
  have word (width : p.conf.bits ≤ 32) (x : Nat) : x &&& mask p.conf.bits < 2 ^ 32 :=
    lt_of_lt_of_le (and_mask_lt width x) (Nat.pow_le_pow_right (by omega) width)
  obtain ⟨b, increment, odd, three, small⟩ := increment_spec p.conf.n
    (((world.random (world.drawn + 3)).toNat &&& mask p.conf.bits) ||| 1) (by omega)
    (or_one_mod_two _) (Nat.or_lt_two_pow (word bits.2 _) (by decide))
  obtain ⟨j, exponent, coprime, below⟩ := exponent_spec sound (p.conf.n + 2)
    (j := (world.random (world.drawn + 5)).toNat % p.conf.n) (Nat.mod_lt _ (by omega))
    (by split <;> omega)
  simp only [initid, World.arc4random, World.gettimeofday, increment, exponent, Option.bind_eq_bind,
    Option.bind_some]
  refine ⟨_, _, rfl, rfl, rfl, ?_, ?_, rfl⟩
  · have even := and_even_mod_two ((world.random (world.drawn + 4)).toNat &&& mask p.conf.bits)
    have expo : ((world.random (world.drawn + 4)).toNat &&& mask p.conf.bits) &&& (2 ^ 32 - 2)
        < 2 ^ 32 := Nat.and_lt_two_pow _ (by decide)
    have seven : p.conf.agen < 2 ^ 32 := by
      rw [sound.agen]
      decide
    refine ⟨fullPeriod_of_choice sound even expo odd three, ⟨?_, small⟩, Nat.mod_lt _ (by omega),
      rfl, by simp, ⟨and_mask_lt (by omega) _, and_mask_lt (by omega) _⟩, ?_⟩
    · simp only
      rw [pmod_eq seven expo (by omega) (by omega)]
      exact lt_of_lt_of_le (Nat.mod_lt _ (by omega)) (by omega)
    · simp only
      rw [pmod_eq sound.gen.1 (by omega) (by omega) (by omega)]
      refine ⟨Nat.mod_lt _ (by omega), ?_⟩
      rw [ZMod.natCast_mod, Nat.cast_pow, Nat.Coprime.orderOf_pow]
      · exact sound.gen.2
      · rwa [sound.gen.2]
  · simp [Nat.one_shiftLeft]

/-- The step of the loop in `randomid` is the step of the generator. -/
theorem step_eq_next {p : Ctx} {start : Nat} (sound : p.conf.Sound) (ready : Ready p start)
    {x : Nat} (small : x < p.conf.m)
    : randomid.step p x = Lcg.next p.a p.b p.conf.m x := by
  have m := sound.m.2
  have n := sound.n_lt
  have product : p.a * x < 2 ^ 32 * 2 ^ 31 :=
    Nat.mul_lt_mul'' ready.words.1 (by omega)
  have b := ready.words.2
  rw [randomid.step, Nat.mod_eq_of_lt (by omega : p.a * x + p.b < 2 ^ 64), Lcg.next]

theorem iterate_step_eq {p : Ctx} {start : Nat} (sound : p.conf.Sound) (ready : Ready p start)
    (steps : Nat)
    : (randomid.step p)^[steps] p.x
      = (Lcg.next p.a p.b p.conf.m)^[p.counter + steps] start := by
  induction steps with
  | zero => exact ready.x
  | succ steps ih =>
      rw [Function.iterate_succ_apply', ih, step_eq_next sound ready (iterate_lt ready _),
        ← Function.iterate_succ_apply' (Lcg.next _ _ _)]
      rfl

/-- The context after the steps of one call. -/
def Ctx.advance (p : Ctx) (start n : Nat) : Ctx :=
  { p with
    x := (Lcg.next p.a p.b p.conf.m)^[p.counter + (n + 1)] start
    counter := p.counter + (n + 1) }

/-- The id of one call, as the generator's position in its cycle gives it. -/
theorem emit_spec {p : Ctx} {start n : Nat} (sound : p.conf.Sound) (ready : Ready p start)
    (within : p.counter + n < p.conf.max)
    : randomid.emit n p
        = (cycleId p start (p.counter + (n + 1)) ||| p.msb, p.advance start n)
      ∧ Ready (p.advance start n) start := by
  have max := sound.max
  have m := sound.m.2
  have size := sound.n_lt
  constructor
  · simp only [randomid.emit, iterate_step_eq sound ready]
    rw [Nat.mod_eq_of_lt (exponent_lt sound ready _),
      Nat.mod_eq_of_lt (by omega : p.counter + (n + 1) < 2 ^ 32)]
    rfl
  · exact ⟨ready.full, ready.words, ready.started, rfl, by simp only [Ctx.advance]; omega,
      ready.seeds, ready.g⟩

/-- The call of `initid` in the model's first test, over the world after the clock was read. -/
theorem randomid_reseeds {p : Ctx} (sound : p.conf.Sound) {world : World}
    (test : p.counter ≥ p.conf.max ∨ world.clock world.asked > p.reseed)
    : ∃ q n between after, Initialised p world q between ∧ after.inits = between.inits ∧ n < 4
      ∧ randomid p world
        = some (cycleId q q.x (n + 1) ||| q.msb, q.advance q.x n, after) := by
  obtain ⟨q, between, ran, initialised⟩ :=
    initid_spec sound { world with asked := world.asked + 1 }
  have soundQ : q.conf.Sound := initialised.conf ▸ sound
  have max := soundQ.max.1
  have zero := initialised.counter
  have emitted (n : Nat) (short : n < 4) : randomid.emit n q
      = (cycleId q q.x (n + 1) ||| q.msb, q.advance q.x n) := by
    rw [(emit_spec soundQ initialised.ready (by omega)).1, zero, Nat.zero_add]
  have from_world : Initialised p world q between := { initialised with }
  by_cases skips : q.conf.skip = 0
  · refine ⟨q, 0, between, between, from_world, rfl, by decide, ?_⟩
    simp only [randomid, World.gettimeofday, if_pos test, ran, Option.bind_eq_bind,
      Option.bind_some, skips, ne_eq, not_true_eq_false, if_false]
    rw [emitted 0 (by decide)]
  · obtain ⟨n, drawn⟩ : ∃ n, n = (between.random between.drawn).toNat &&& q.conf.skip := ⟨_, rfl⟩
    have short : n < 4 := by
      have := soundQ.skip
      have : n ≤ q.conf.skip := drawn ▸ Nat.and_le_right
      omega
    refine ⟨q, n, between, { between with drawn := between.drawn + 1 }, from_world, rfl, short, ?_⟩
    have stays : ¬ (q.counter + n) % 2 ^ 32 ≥ q.conf.max := by
      rw [zero, Nat.zero_add, Nat.mod_eq_of_lt (by omega)]
      omega
    simp only [randomid, World.gettimeofday, if_pos test, ran, Option.bind_eq_bind,
      Option.bind_some, ne_eq, skips, not_false_eq_true, if_true, World.arc4random, ← drawn,
      if_neg stays, emitted n short]

/-- The two ways a call can go: on in the same cycle, or into a new one. -/
inductive Call (p : Ctx) (start : Nat) (world : World) : Nat → Ctx → Nat → World → Prop where
  | same (n : Nat) (after : World) (kept : after.inits = world.inits)
      (within : p.counter + n < p.conf.max)
      : Call p start world (cycleId p start (p.counter + (n + 1)) ||| p.msb)
          (p.advance start n) start after
  | fresh (q : Ctx) (n : Nat) (between after : World)
      (initialised : Initialised p world q between) (kept : after.inits = between.inits)
      (short : n < 4)
      : Call p start world (cycleId q q.x (n + 1) ||| q.msb) (q.advance q.x n) q.x after

/-- Every call on a context that has been initialised returns. -/
theorem randomid_spec {p : Ctx} {start : Nat} (sound : p.conf.Sound) (ready : Ready p start)
    (world : World)
    : ∃ id q next after, randomid p world = some (id, q, after)
      ∧ Call p start world id q next after := by
  by_cases test : p.counter ≥ p.conf.max ∨ world.clock world.asked > p.reseed
  · obtain ⟨q, n, between, after, initialised, kept, short, returned⟩ :=
      randomid_reseeds sound test
    exact ⟨_, _, _, _, returned, .fresh q n between after initialised kept short⟩
  have size := sound.n_lt
  have m := sound.m.2
  have max := sound.max
  by_cases skips : p.conf.skip = 0
  · have within : p.counter + 0 < p.conf.max := by omega
    refine ⟨_, _, _, { world with asked := world.asked + 1 }, ?_, .same 0 _ rfl within⟩
    simp only [randomid, World.gettimeofday, if_neg test, Option.bind_eq_bind,
      Option.bind_some, skips, ne_eq, not_true_eq_false, if_false]
    rw [(emit_spec sound ready within).1]
  obtain ⟨n, drawn⟩ : ∃ n, n = (world.random world.drawn).toNat &&& p.conf.skip := ⟨_, rfl⟩
  have short : n < 4 := by
    have := sound.skip
    have : n ≤ p.conf.skip := drawn ▸ Nat.and_le_right
    omega
  obtain ⟨moved, eq_moved⟩ : ∃ moved : World, moved
      = { world with asked := world.asked + 1, drawn := world.drawn + 1 } := ⟨_, rfl⟩
  have counter : (p.counter + n) % 2 ^ 32 = p.counter + n := Nat.mod_eq_of_lt (by omega)
  by_cases within : p.counter + n < p.conf.max
  · refine ⟨_, _, _, moved, ?_, .same n _ (by rw [eq_moved]) within⟩
    simp only [randomid, World.gettimeofday, if_neg test, Option.bind_eq_bind,
      Option.bind_some, ne_eq, skips, not_false_eq_true, if_true, World.arc4random, ← drawn,
      counter, if_neg (Nat.not_le.mpr within), (emit_spec sound ready within).1, eq_moved]
  · obtain ⟨q, between, ran, initialised⟩ := initid_spec sound moved
    have soundQ : q.conf.Sound := initialised.conf ▸ sound
    have from_world : Initialised p world q between :=
      { initialised with inits := by rw [initialised.inits, eq_moved] }
    refine ⟨_, _, _, between, ?_, .fresh q n between between from_world rfl short⟩
    have emitted := (emit_spec (n := n) soundQ initialised.ready (by
      have := soundQ.max.1
      have := initialised.counter
      omega)).1
    rw [initialised.counter, Nat.zero_add] at emitted
    rw [eq_moved] at ran
    simp only [randomid, World.gettimeofday, if_neg test, Option.bind_eq_bind,
      Option.bind_some, ne_eq, skips, not_false_eq_true, if_true, World.arc4random, ← drawn,
      counter, if_pos (Nat.not_lt.mp within), ran, emitted]

/-- Ids of one cycle differ, and one `initid` between two ids flips their top bit. -/
def Apart (bits : Nat) (earlier later : Issued) : Prop :=
  (earlier.epoch = later.epoch → earlier.id ≠ later.id)
    ∧ (earlier.epoch + 1 = later.epoch →
      earlier.id.testBit (bits - 1) ≠ later.id.testBit (bits - 1))

/-- The ids of a run fit their configuration and never repeat within a cycle. -/
structure Unrepeated (bits : Nat) (issued : List Issued) : Prop where
  apart : issued.Pairwise (Apart bits)
  fits : ∀ item ∈ issued, item.id < 2 ^ bits

/-- The top bit set on a number below it. -/
theorem or_topBit {low bits : Nat} (positive : 1 ≤ bits) (small : low < 2 ^ (bits - 1))
    {msb : Nat} (top : msb = 0 ∨ msb = 2 ^ (bits - 1))
    : (low ||| msb).testBit (bits - 1) = decide (msb ≠ 0) ∧ low ||| msb < 2 ^ bits
      ∧ (low ||| msb) % 2 ^ (bits - 1) = low := by
  have clear : low.testBit (bits - 1) = false := Nat.testBit_lt_two_pow small
  have double : 2 ^ bits = 2 ^ (bits - 1) + 2 ^ (bits - 1) := by
    rw [← Nat.two_mul, ← Nat.pow_succ', Nat.succ_eq_add_one, Nat.sub_add_cancel positive]
  rcases top with rfl | rfl
  · exact ⟨by simp [clear], by simp; omega, by simp [Nat.mod_eq_of_lt small]⟩
  · refine ⟨?_, Nat.or_lt_two_pow (by omega) (by have := Nat.two_pow_pos (bits - 1); omega), ?_⟩
    · have := Nat.two_pow_pos (bits - 1)
      simp [Nat.testBit_or, clear]
    · rw [Nat.or_mod_two_pow, Nat.mod_self, Nat.or_zero, Nat.mod_eq_of_lt small]

/-- What the ids issued from a context on look like. -/
structure Onward (p : Ctx) (start : Nat) (world : World) (item : Issued) : Prop where
  epoch : world.inits ≤ item.epoch
  fits : item.id < 2 ^ p.conf.bits
  same : item.epoch = world.inits →
    ∃ steps, p.counter < steps ∧ steps ≤ p.conf.max ∧ item.id = cycleId p start steps ||| p.msb
  next : item.epoch = world.inits + 1 →
    item.id.testBit (p.conf.bits - 1) = decide (p.msb = 0)

theorem Initialised.topBit {p q : Ctx} {world after : World}
    (initialised : Initialised p world q after)
    : TopBit q := by
  rw [TopBit, initialised.msb, initialised.conf]
  split
  · exact .inr rfl
  · exact .inl rfl

section

variable {p q : Ctx} {start next id : Nat} {world after : World}

/-- What a context keeps between two calls. -/
structure Cycling (p : Ctx) (start : Nat) : Prop where
  sound : p.conf.Sound
  ready : Ready p start
  top : TopBit p

/-- After a call the context is again in a cycle, at the step whose id was returned. -/
theorem Call.cycling (cycling : Cycling p start) (call : Call p start world id q next after)
    : Cycling q next ∧ q.conf = p.conf ∧ id = cycleId q next q.counter ||| q.msb := by
  cases call with
  | same n after kept within =>
      exact ⟨⟨cycling.sound, (emit_spec cycling.sound cycling.ready within).2, cycling.top⟩, rfl,
        rfl⟩
  | fresh fresh n between after initialised kept short =>
      have sound : fresh.conf.Sound := initialised.conf ▸ cycling.sound
      have zero := initialised.counter
      have max := sound.max.1
      have emitted := emit_spec (n := n) sound initialised.ready (by omega)
      refine ⟨⟨sound, emitted.2, initialised.topBit⟩, initialised.conf, ?_⟩
      simp only [Ctx.advance, zero, Nat.zero_add]
      rfl

/-- The id of a call differs as it should from every later one. -/
theorem Call.apart (cycling : Cycling p start) (call : Call p start world id q next after)
    {item : Issued} (later : Onward q next after item)
    : Apart p.conf.bits ⟨id, after.inits⟩ item := by
  obtain ⟨cycling', conf, rfl⟩ := call.cycling cycling
  rw [← conf]
  have sound := cycling'.sound
  have issued := or_topBit sound.bits.1 (cycleId_lt sound cycling'.ready q.counter) cycling'.top
  constructor
  · intro same equal
    obtain ⟨steps, above, within, item_id⟩ := later.same same.symm
    have other := or_topBit sound.bits.1 (cycleId_lt sound cycling'.ready steps) cycling'.top
    rw [← item_id, ← equal] at other
    exact cycleId_ne sound cycling'.ready above within (issued.2.2.symm.trans other.2.2)
  · intro following
    rw [later.next following.symm, issued.1]
    by_cases zero : q.msb = 0 <;> simp [zero]

/-- What is issued after a call is issued from its context on. -/
theorem Call.onward (cycling : Cycling p start) (call : Call p start world id q next after)
    {item : Issued} (later : Onward q next after item)
    : Onward p start world item := by
  obtain ⟨cycling', conf, -⟩ := call.cycling cycling
  have width : item.id < 2 ^ p.conf.bits := conf ▸ later.fits
  cases call with
  | same n after kept within =>
      refine ⟨kept ▸ later.epoch, width, fun same => ?_, fun following => ?_⟩
      · obtain ⟨steps, above, below, item_id⟩ := later.same (same.trans kept.symm)
        simp only [Ctx.advance] at above
        exact ⟨steps, by omega, below, item_id⟩
      · exact later.next (by rw [following, kept])
  | fresh fresh n between after initialised kept short =>
      have inits := kept.trans initialised.inits
      have epoch := later.epoch
      refine ⟨by omega, width, fun same => by omega, fun following => ?_⟩
      obtain ⟨steps, -, -, item_id⟩ := later.same (following.trans inits.symm)
      have sound := cycling'.sound
      have issued := or_topBit sound.bits.1 (cycleId_lt sound cycling'.ready steps) cycling'.top
      rw [← item_id, conf] at issued
      rw [issued.1]
      simp only [Ctx.advance, initialised.msb]
      by_cases zero : p.msb = 0 <;> simp [zero]

/-- The id of a call is the first of those after it. -/
theorem Call.head (cycling : Cycling p start) (call : Call p start world id q next after)
    : Onward p start world ⟨id, after.inits⟩ := by
  obtain ⟨cycling', conf, item_id⟩ := call.cycling cycling
  have sound := cycling'.sound
  have issued := or_topBit sound.bits.1 (cycleId_lt sound cycling'.ready q.counter) cycling'.top
  rw [← item_id, conf] at issued
  cases call with
  | same n after kept within =>
      exact ⟨kept.ge, issued.2.1,
        fun _ => ⟨p.counter + (n + 1), by omega, by omega, item_id⟩,
        fun following => by simp only at following; omega⟩
  | fresh fresh n between after initialised kept short =>
      have inits := kept.trans initialised.inits
      refine ⟨by simp only; omega, issued.2.1, fun same => by simp only at same; omega, fun _ => ?_⟩
      rw [issued.1]
      simp only [Ctx.advance, initialised.msb]
      by_cases zero : p.msb = 0 <;> simp [zero]

end

/-- A run from a context in a cycle returns all its ids, and none repeats. -/
theorem run_cycling (calls : Nat)
    : ∀ {p : Ctx} {start : Nat} (world : World), Cycling p start →
      ∃ issued, run calls p world = some issued ∧ issued.Pairwise (Apart p.conf.bits)
        ∧ ∀ item ∈ issued, Onward p start world item := by
  induction calls with
  | zero => exact fun _ _ => ⟨[], rfl, .nil, by simp⟩
  | succ calls ih =>
      intro p start world cycling
      obtain ⟨id, q, next, after, returned, call⟩ :=
        randomid_spec cycling.sound cycling.ready world
      obtain ⟨cycling', conf, -⟩ := call.cycling cycling
      obtain ⟨issued, ran, apart, onward⟩ := ih after cycling'
      refine ⟨⟨id, after.inits⟩ :: issued, by simp [run, returned, ran], ?_, ?_⟩
      · rw [List.pairwise_cons]
        exact ⟨fun item among => call.apart cycling (onward item among), conf ▸ apart⟩
      · intro item among
        rcases List.mem_cons.mp among with rfl | among
        · exact call.head cycling
        · exact call.onward cycling (onward item among)

/-- A run whose first call reseeds is a run in the cycle begun there. -/
theorem run_reseeds {p : Ctx} (sound : p.conf.Sound) (world : World)
    (test : p.counter ≥ p.conf.max ∨ world.clock world.asked > p.reseed) (calls : Nat)
    : ∃ q between issued, run (calls + 1) p world = some issued
      ∧ Initialised p world q between ∧ Cycling q q.x ∧ issued.Pairwise (Apart q.conf.bits)
      ∧ ∀ item ∈ issued, Onward q q.x between item := by
  obtain ⟨q, n, between, after, initialised, kept, short, returned⟩ :=
    randomid_reseeds sound test
  have soundQ : q.conf.Sound := initialised.conf ▸ sound
  have cycling : Cycling q q.x := ⟨soundQ, initialised.ready, initialised.topBit⟩
  have zero := initialised.counter
  have max := soundQ.max.1
  have call : Call q q.x between _ _ _ after := .same n after kept (by omega)
  obtain ⟨issued, ran, apart, onward⟩ := run_cycling calls after (call.cycling cycling).1
  rw [zero, Nat.zero_add] at call
  refine ⟨q, between, ⟨cycleId q q.x (n + 1) ||| q.msb, after.inits⟩ :: issued,
    by simp [run, returned, ran], initialised, cycling, ?_, ?_⟩
  · rw [List.pairwise_cons]
    exact ⟨fun item among => call.apart cycling (onward item among), apart⟩
  · intro item among
    rcases List.mem_cons.mp among with rfl | among
    · exact call.head cycling
    · exact call.onward cycling (onward item among)

/-- A context `initid` has not seen: all that `memset` cleared but the counter is still 0. -/
def blank (conf : Conf) (out : Int) (counter : Nat) : Ctx :=
  { conf := conf, out := out, counter := counter }

section

variable (conf : Conf) (out : Int) (counter : Nat)

theorem blank_conf : (blank conf out counter).conf = conf := rfl

theorem blank_counter : (blank conf out counter).counter = counter := rfl

theorem blank_reseed : (blank conf out counter).reseed = 0 := rfl

/-- The steps of a blank generator stay at 0, so that its id is the empty product. -/
theorem emit_blank (n : Nat)
    : randomid.emit n (blank conf out counter)
      = (1, blank conf out ((counter + (n + 1)) % 2 ^ 32)) := by
  have still : ∀ steps, (randomid.step (blank conf out counter))^[steps] 0 = 0 := by
    intro steps
    induction steps with
    | zero => rfl
    | succ steps ih =>
        rw [Function.iterate_succ_apply', ih]
        simp [randomid.step, blank]
  have here : (randomid.step (blank conf out counter))^[n + 1] (blank conf out counter).x = 0 :=
    still (n + 1)
  simp only [randomid.emit, here]
  simp [blank, pmod, pmod.loop]

end

/-- A call on a blank context before the clock passes 0. -/
theorem randomid_blank {conf : Conf} (sound : conf.Sound) (out : Int) {counter : Nat}
    (few : counter < 5) (world : World) (early : world.clock world.asked ≤ 0)
    : ∃ counter' after, counter' < counter + 5 ∧ after.asked = world.asked + 1
      ∧ after.clock = world.clock ∧ after.inits = world.inits
      ∧ randomid (blank conf out counter) world = some (1, blank conf out counter', after) := by
  have max := sound.max.1
  have test : ¬ (counter ≥ conf.max ∨ world.clock world.asked > 0) := by omega
  by_cases skips : conf.skip = 0
  · refine ⟨(counter + (0 + 1)) % 2 ^ 32, { world with asked := world.asked + 1 }, by omega, rfl,
      rfl, rfl, ?_⟩
    simp only [randomid, World.gettimeofday, blank_conf, blank_counter, blank_reseed, if_neg test,
      Option.bind_eq_bind, Option.bind_some, skips, ne_eq, not_true_eq_false, if_false, emit_blank]
  · obtain ⟨n, drawn⟩ : ∃ n, n = (world.random world.drawn).toNat &&& conf.skip := ⟨_, rfl⟩
    have short : n < 4 := by
      have := sound.skip
      have : n ≤ conf.skip := drawn ▸ Nat.and_le_right
      omega
    refine ⟨(counter + (n + 1)) % 2 ^ 32,
      { world with asked := world.asked + 1, drawn := world.drawn + 1 }, by omega, rfl,
      rfl, rfl, ?_⟩
    have stays : ¬ (counter + n) % 2 ^ 32 ≥ conf.max := by omega
    simp only [randomid, World.gettimeofday, blank_conf, blank_counter, blank_reseed, if_neg test,
      Option.bind_eq_bind, Option.bind_some, ne_eq, skips, not_false_eq_true, if_true,
      World.arc4random, ← drawn, if_neg stays, emit_blank]

/-- `randomid_new` gives a blank context over a line of `randomconf[]`. -/
theorem randomidNew_spec {bits timeo : Int} {p : Ctx} (created : randomidNew bits timeo = some p)
    : ∃ conf ∈ randomconf, p = blank conf timeo 0 ∧ bits = conf.bits := by
  rw [randomidNew] at created
  split at created
  · cases created
  · obtain ⟨conf, found, rfl⟩ := Option.map_eq_some_iff.mp created
    have here := List.find?_some found
    exact ⟨conf, List.mem_of_find?_eq_some found, rfl, by simpa using here⟩

/-- The calls on a new context return ids of the right width that never repeat. -/
def NeverRepeats (p : Ctx) (random : Nat → UInt32) (clock : Nat → Int) (calls : Nat) : Prop :=
  ∃ issued, run calls p { random := random, clock := clock } = some issued
    ∧ Unrepeated p.conf.bits issued

theorem run_step {p q : Ctx} {world after : World} {id : Nat}
    (returned : randomid p world = some (id, q, after)) (calls : Nat)
    : run (calls + 1) p world = (run calls q after).map (⟨id, after.inits⟩ :: ·) := by
  simp only [run, returned, Option.bind_eq_bind, Option.bind_some]
  cases run calls q after <;> rfl

/-- Two calls before the clock passes 0 return the id 1 twice. -/
theorem repeats_of_early {conf : Conf} (sound : conf.Sound) {timeo : Int}
    {random : Nat → UInt32} {clock : Nat → Int} (early : clock 0 ≤ 0 ∧ clock 1 ≤ 0) (calls : Nat)
    : ¬ NeverRepeats (blank conf timeo 0) random clock (calls + 2) := by
  rintro ⟨issued, ran, unrepeated⟩
  obtain ⟨counter, after, few, asked, clocks, inits, first⟩ :=
    randomid_blank sound timeo (by decide : 0 < 5) { random := random, clock := clock } early.1
  have second_early : after.clock after.asked ≤ 0 := by
    rw [asked, clocks]
    exact early.2
  obtain ⟨counter', after', -, -, -, inits', second⟩ :=
    randomid_blank sound timeo (by omega : counter < 5) after second_early
  rw [run_step first, run_step second, Option.map_map] at ran
  obtain ⟨later, -, rfl⟩ := Option.map_eq_some_iff.mp ran
  have apart := (List.pairwise_cons.mp unrepeated.apart).1 ⟨1, after'.inits⟩ (by simp)
  exact apart.1 inits'.symm rfl

/-- A run that reseeds at once does not repeat an id. -/
theorem neverRepeats_of_late {conf : Conf} (sound : conf.Sound) {timeo : Int}
    {random : Nat → UInt32} {clock : Nat → Int} (late : 0 < clock 0) (calls : Nat)
    : NeverRepeats (blank conf timeo 0) random clock (calls + 1) := by
  obtain ⟨q, between, issued, ran, initialised, cycling, apart, onward⟩ :=
    run_reseeds (p := blank conf timeo 0) sound { random := random, clock := clock }
      (.inr late) calls
  have width : (blank conf timeo 0).conf.bits = q.conf.bits := by rw [initialised.conf]
  refine ⟨issued, ran, ?_⟩
  rw [width]
  exact ⟨apart, fun item among => (onward item among).fits⟩

/-- A run whose second call reseeds does not repeat an id either. -/
theorem neverRepeats_of_second {conf : Conf} (sound : conf.Sound) {timeo : Int}
    {random : Nat → UInt32} {clock : Nat → Int} (early : clock 0 ≤ 0) (late : 0 < clock 1)
    (calls : Nat)
    : NeverRepeats (blank conf timeo 0) random clock (calls + 2) := by
  obtain ⟨counter, after, few, asked, clocks, inits, first⟩ :=
    randomid_blank sound timeo (by decide : 0 < 5) { random := random, clock := clock } early
  have second_late : after.clock after.asked > 0 := by
    rw [asked, clocks]
    exact late
  obtain ⟨q, between, issued, ran, initialised, cycling, apart, onward⟩ :=
    run_reseeds (p := blank conf timeo counter) sound after (.inr second_late) calls
  have width : conf.bits = q.conf.bits := by rw [initialised.conf, blank_conf]
  have positive := cycling.sound.bits.1
  have small := cycling.sound.n
  have least := cycling.sound.m
  have most := cycling.sound.max
  refine ⟨⟨1, after.inits⟩ :: issued, by rw [run_step first, ran, Option.map_some], ?_⟩
  rw [blank_conf, width]
  refine ⟨List.pairwise_cons.mpr ⟨fun item among => ?_, apart⟩, fun item among => ?_⟩
  · have later := onward item among
    have epoch := later.epoch
    rw [initialised.inits] at epoch
    refine ⟨fun same => by simp only at same; omega, fun following => ?_⟩
    obtain ⟨steps, -, -, item_id⟩ := later.same (by rw [initialised.inits]; exact following.symm)
    have issued := or_topBit positive (cycleId_lt cycling.sound cycling.ready steps) cycling.top
    have set : q.msb ≠ 0 := by
      rw [initialised.msb]
      simp [blank]
    rw [item_id, issued.1, decide_eq_true set, Nat.testBit_lt_two_pow (by simp only; omega)]
    decide
  · rcases List.mem_cons.mp among with rfl | among
    · exact Nat.one_lt_two_pow (by omega)
    · exact (onward item among).fits

end BSDLibC.Randomid
