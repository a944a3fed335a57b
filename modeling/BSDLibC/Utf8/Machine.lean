import BSDLibC.Utf8.Codec

/-! The decoder as a machine that takes one byte at a time. Successive calls on the pieces of a
sequence do what the machine does on the whole sequence.
-/

namespace BSDLibC.Utf8

open BSDLibC.Transducer (Reaction Outcome Ending run)

/-- What the decoder does with one more byte. -/
def step : State → UInt8 → Reaction WChar State
  | [], byte =>
      if tables.count byte.toNat < 1 then
        .reject 1
      else if tables.count byte.toNat = 1 then
        .emit (BitVec.ofNat 32 byte.toNat) []
      else
        .more [byte]
  | lead :: rest, byte =>
      let ch := lead :: rest
      let c := tables.count lead.toNat
      if ch.length = 1 ∧ badByte2 lead.toNat [byte] then
        .reject 0
      else if byte.toNat &&& 0xc0 ≠ 0x80 then
        .reject 0
      else if ch.length + 1 < c then
        .more (ch ++ [byte])
      else
        .emit (assemble c (ch ++ [byte])) []

/-- A state between two calls: nothing, or the beginning of a longer character. -/
def Pending : State → Prop
  | [] => True
  | lead :: rest => rest.length + 1 < tables.count lead.toNat

/-- A state the machine moves on to is one between calls. -/
theorem step_pending {ch next : State} {byte : UInt8}
    (moved : step ch byte = .more next ∨ ∃ wc, step ch byte = .emit wc next)
    : Pending next := by
  cases ch with
  | nil =>
      simp only [step] at moved
      split at moved
      · simp at moved
      split at moved
      · rcases moved with h | ⟨wc, h⟩
        · cases h
        · cases h
          trivial
      · rcases moved with h | ⟨wc, h⟩
        · cases h
          simp only [Pending, List.length_nil]
          omega
        · cases h
  | cons lead rest =>
      simp only [step] at moved
      split at moved
      · simp at moved
      split at moved
      · simp at moved
      split at moved
      · next short =>
        rcases moved with h | ⟨wc, h⟩
        · cases h
          simpa [Pending] using short
        · cases h
      · rcases moved with h | ⟨wc, h⟩
        · cases h
        · cases h
          trivial

/-- A result of a call, explained by what the machine does on the bytes it was given. -/
def Result.Follows (s : List UInt8) (ch : State) : Result → Prop
  | .char wc _ rest =>
      ∃ taken, s = taken ++ rest ∧ taken ≠ [] ∧ run step taken ch = ([wc], .stands [])
  | .restart next => run step s ch = ([], .stands next)
  | .ilseq rest => run step s ch = ([], .rejected (s.length - rest.length))

/-- One more byte in front of an explained result. -/
theorem Result.Follows.cons {s : List UInt8} {ch next : State} {byte : UInt8} {result : Result}
    (moved : step ch byte = .more next) (follows : result.Follows s next)
    (suffix : ∀ rest, result = .ilseq rest → rest.length ≤ s.length)
    : result.Follows (byte :: s) ch := by
  cases result with
  | char wc nresult rest =>
      obtain ⟨taken, rfl, nonempty, ran⟩ := follows
      refine ⟨byte :: taken, rfl, by simp, ?_⟩
      simp [run, moved, Reaction.continue, ran]
  | restart state =>
      simp only [Follows] at follows ⊢
      simp [run, moved, Reaction.continue, follows]
  | ilseq rest =>
      have := suffix rest rfl
      simp only [Follows] at follows ⊢
      simp only [run, moved, Reaction.continue, follows, Ending.shift_rejected, List.length_cons]
      congr 2
      omega

/-- Behind the lead byte of a longer character only the second byte needs a look ahead. -/
theorem decode_pending {start s0 : List UInt8} {lead : UInt8} {rest : State}
    (pending : Pending (lead :: rest))
    : decode start s0 (lead :: rest)
      = if rest.length = 0 ∧ badByte2 lead.toNat s0 then .ilseq s0
        else collect start (tables.count lead.toNat) s0 (lead :: rest) := by
  have longer : rest.length + 1 < tables.count lead.toNat := pending
  rw [decode]
  simp only [List.headD_cons, List.length_cons, Nat.add_eq_right]
  rw [if_neg (by omega), if_neg (by omega)]

/-- What a call does behind the lead byte is what the machine does. -/
theorem decode_follows (start s0 : List UInt8)
    : ∀ {lead : UInt8} {rest : State}, Pending (lead :: rest) →
      (decode start s0 (lead :: rest)).Follows s0 (lead :: rest)
        ∧ ∀ left, decode start s0 (lead :: rest) = .ilseq left → left.length ≤ s0.length := by
  induction s0 with
  | nil =>
      intro lead rest pending
      have waits : decode start [] (lead :: rest) = .restart (lead :: rest) := by
        have short : (lead :: rest).length < tables.count lead.toNat := pending
        rw [decode_pending pending, if_neg (by simp [badByte2]), collect, if_pos short]
      rw [waits]
      exact ⟨rfl, by simp⟩
  | cons byte s0 ih =>
      intro lead rest pending
      have short : (lead :: rest).length < tables.count lead.toNat := pending
      rw [decode_pending pending]
      split
      · next bad =>
        have refused : step (lead :: rest) byte = .reject 0 := by
          have : badByte2 lead.toNat [byte] := bad.2
          simp [step, bad.1, this]
        exact ⟨by simp [Result.Follows, run, refused, Reaction.continue], by simp⟩
      next good =>
      have allowed : ¬ ((lead :: rest).length = 1 ∧ badByte2 lead.toNat [byte]) := by
        simpa [badByte2] using good
      rw [collect, if_pos short]
      split
      · next notTrailer =>
        have refused : step (lead :: rest) byte = .reject 0 := by
          rw [step, if_neg allowed, if_pos notTrailer]
        exact ⟨by simp [Result.Follows, run, refused, Reaction.continue], by simp⟩
      next trailer =>
      by_cases last : (lead :: rest).length + 1 < tables.count lead.toNat
      · have moved : step (lead :: rest) byte = .more (lead :: (rest ++ [byte])) := by
          rw [step, if_neg allowed, if_neg trailer, if_pos last]
          rfl
        have pending' : Pending (lead :: (rest ++ [byte])) := by simpa [Pending] using last
        have further := ih pending'
        rw [decode_pending pending', if_neg (by simp)] at further
        refine ⟨further.1.cons moved further.2, fun left same => ?_⟩
        have := further.2 left same
        simp only [List.length_cons]
        omega
      · have emitted : step (lead :: rest) byte
            = .emit (assemble (tables.count lead.toNat) (lead :: rest ++ [byte])) [] := by
          rw [step, if_neg allowed, if_neg trailer, if_neg last]
        have done : collect start (tables.count lead.toNat) s0 (lead :: rest ++ [byte])
            = accept start (assemble (tables.count lead.toNat) (lead :: rest ++ [byte])) s0 := by
          have full : ¬ (lead :: rest ++ [byte]).length < tables.count lead.toNat := by
            simpa using last
          cases s0 <;> rw [collect, if_neg full]
        rw [done]
        refine ⟨⟨[byte], rfl, by simp, ?_⟩, by simp [accept]⟩
        simp [run, emitted, Reaction.continue]

/-- A call does what the machine does. -/
theorem mbrtowcPriv_follows {s : List UInt8} {ch : State} (pending : Pending ch)
    : (mbrtowcPriv s ch).Follows s ch := by
  cases ch with
  | cons lead rest => exact (decode_follows s s pending).1
  | nil =>
      cases s with
      | nil => rfl
      | cons byte s0 =>
          by_cases none : tables.count byte.toNat < 1
          · have refused : step [] byte = .reject 1 := by rw [step, if_pos none]
            have result : mbrtowcPriv (byte :: s0) [] = .ilseq s0 := by
              simp only [mbrtowcPriv, decode]
              exact if_pos (Or.inl none)
            rw [result]
            simp [Result.Follows, run, refused, Reaction.continue]
          by_cases one : tables.count byte.toNat = 1
          · have emitted : step [] byte = .emit (BitVec.ofNat 32 byte.toNat) [] := by
              rw [step, if_neg none, if_pos one]
            have result : mbrtowcPriv (byte :: s0) []
                = accept (byte :: s0) (BitVec.ofNat 32 byte.toNat) s0 := by
              have enough : ¬ (tables.count byte.toNat < 1 ∨ tables.count byte.toNat < 1) := by
                omega
              simp only [mbrtowcPriv, decode]
              exact (if_neg enough).trans (if_pos one)
            rw [result]
            exact ⟨[byte], rfl, by simp, by simp [run, emitted, Reaction.continue]⟩
          · have moved : step [] byte = .more [byte] := by rw [step, if_neg none, if_neg one]
            have further := decode_follows (byte :: s0) s0
              (step_pending (.inl moved) : Pending [byte])
            exact further.1.cons moved further.2

/-- Successive calls on one piece do what the machine does on it. -/
theorem feed_eq_run (calls : Nat)
    : ∀ {s : List UInt8} {ch : State}, s.length < calls → Pending ch →
      feed calls s ch = some (run step s ch) := by
  induction calls with
  | zero => intro s ch bound; omega
  | succ calls ih =>
      intro s ch bound pending
      have follows := mbrtowcPriv_follows (s := s) pending
      rw [feed]
      cases result : mbrtowcPriv s ch with
      | char wc nresult rest =>
          rw [result] at follows
          obtain ⟨taken, rfl, nonempty, ran⟩ := follows
          have shorter : 0 < taken.length := List.length_pos_iff.mpr nonempty
          have further : feed calls rest [] = _ := ih (by simp at bound; omega) trivial
          rw [Transducer.run_append, ran]
          simp only [further, Option.bind_eq_bind, Option.bind_some, Outcome.andThen,
            List.singleton_append, List.length_append, Nat.add_sub_cancel]
      | restart next =>
          rw [result] at follows
          exact congrArg some follows.symm
      | ilseq rest =>
          rw [result] at follows
          exact congrArg some follows.symm

/-- The machine only ever stands between two calls. -/
theorem run_pending {s : List UInt8} {ch next : State} (pending : Pending ch)
    (stands : (run step s ch).2 = .stands next)
    : Pending next := by
  induction s generalizing ch with
  | nil =>
      simp only [run, Ending.stands.injEq] at stands
      exact stands ▸ pending
  | cons byte s ih =>
      have unshift {ending : Ending State} (h : ending.shift 1 = .stands next)
          : ending = .stands next := by
        cases ending with
        | stands state => exact h
        | rejected position => cases h
      simp only [run] at stands
      cases reaction : step ch byte with
      | reject taken =>
          rw [reaction] at stands
          cases stands
      | more later =>
          rw [reaction] at stands
          exact ih (step_pending (.inl reaction)) (unshift stands)
      | emit wc later =>
          rw [reaction] at stands
          exact ih (step_pending (.inr ⟨wc, reaction⟩)) (unshift stands)

/-- However a sequence is cut, successive calls do what the machine does on the whole of it. -/
theorem feedAll_eq_run (pieces : List (List UInt8))
    : ∀ {ch : State}, Pending ch → feedAll pieces ch = some (run step pieces.flatten ch) := by
  induction pieces with
  | nil => exact fun _ => rfl
  | cons piece pieces ih =>
      intro ch pending
      rw [feedAll, feed_eq_run _ (Nat.lt_succ_self _) pending, Transducer.run_flatten_cons]
      simp only [Option.bind_eq_bind, Option.bind_some, Outcome.andThen]
      cases ending : (run step piece ch).2 with
      | rejected position => rfl
      | stands next =>
          simp only [ih (run_pending pending ending), Option.bind_some]

end BSDLibC.Utf8
