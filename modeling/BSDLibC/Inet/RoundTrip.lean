import BSDLibC.Inet.Read

/-! The text of an address is complete, and is read back as the address. -/

namespace BSDLibC.Inet

open Bytes

theorem wordsText_ne_zero {f : Nat → List UInt8} (h : ∀ w, ∀ ch ∈ f w, ch ≠ 0) (ws : List Nat)
    : ∀ ch ∈ ws.flatMap f, ch ≠ 0 := by
  intro ch member
  obtain ⟨w, -, inside⟩ := List.mem_flatMap.mp member
  exact h w ch inside

theorem colon_ne_zero : colon ≠ 0 := by decide

theorem lead_ne_zero (ws : List Nat) : ∀ ch ∈ lead ws, ch ≠ 0 := by
  refine wordsText_ne_zero (fun w ch member => ?_) ws
  rcases List.mem_cons.mp member with rfl | inside
  · exact colon_ne_zero
  · exact numeral_ne_zero (by decide) (by decide) ch inside

theorem terminated_ne_zero (ws : List Nat) : ∀ ch ∈ terminated ws, ch ≠ 0 := by
  refine wordsText_ne_zero (fun w ch member => ?_) ws
  rcases List.mem_append.mp member with inside | last
  · exact numeral_ne_zero (by decide) (by decide) ch inside
  · rw [List.mem_singleton.mp last]
    exact colon_ne_zero

theorem joined_ne_zero (ws : List Nat) : ∀ ch ∈ joined ws, ch ≠ 0 := by
  cases ws with
  | nil => simp [joined]
  | cons w ws =>
      intro ch member
      rcases List.mem_append.mp member with inside | later
      · exact numeral_ne_zero (by decide) (by decide) ch inside
      · exact lead_ne_zero ws ch later

theorem Tail.ne_zero {tail bytes : List UInt8} (h : Tail tail bytes) : ∀ ch ∈ tail, ch ≠ 0 := by
  intro ch member
  cases h with
  | none => simp at member
  | words small =>
      rcases List.mem_append.mp member with inside | last
      · exact terminated_ne_zero _ ch inside
      · exact numeral_ne_zero (by decide) (by decide) ch last
  | quad small =>
      rcases List.mem_append.mp member with inside | last
      · exact terminated_ne_zero _ ch inside
      · exact quadText_ne_zero _ _ _ _ ch last

theorem Shape.ne_zero {text src : List UInt8} (h : Shape text src) : ∀ ch ∈ text, ch ≠ 0 := by
  intro ch member
  cases h with
  | full small =>
      rcases List.mem_append.mp member with inside | last
      · exact terminated_ne_zero _ ch inside
      · exact numeral_ne_zero (by decide) (by decide) ch last
  | run small long rest =>
      rw [List.mem_append, List.mem_cons, List.mem_cons] at member
      rcases member with inside | rfl | rfl | later
      · exact joined_ne_zero _ ch inside
      · exact colon_ne_zero
      · exact colon_ne_zero
      · exact rest.ne_zero ch later

/-- The text is written when it fits with its terminator. -/
theorem inetNtop6_eq {src dst text : List UInt8} {words : List Nat} {size : Nat}
    (found : wordsOf src = some words) (formats : Formats src words (bestRun words) text)
    (short : text.length ≤ 44) (inside : size ≤ dst.length)
    : inetNtop6 src dst size = some (ntopResult text dst size) := by
  obtain ⟨tmp, run, closed⟩ := formats
  rw [inetNtop6, found]
  simp only [Option.bind_eq_bind, Option.bind_some, run, closed]
  rw [pushChecked_eq (by rw [tmpSize]; omega)]
  simp only [Option.bind_some, List.length_append, List.length_singleton]
  by_cases fits : text.length < size
  · rw [if_neg (by omega), strlcpy_eq fits inside, ntopResult, if_pos fits]
    rfl
  · rw [if_pos (by omega), ntopResult, if_neg fits]
    rfl

/-- The bytes of an address of a family. -/
def Family.Address : Family → List UInt8 → Prop
  | .inet, a => a.length = 4
  | .inet6, a => a.length = 16
  | .other, _ => True

/-- Every IPv6 address is written to a buffer of 46 bytes and read back. For every address and
every buffer, what is written is the one text of the address with its terminator, or nothing.
-/
theorem inet_roundTrip
    : (∀ a dst : List UInt8, a.length = 16 → 46 ≤ dst.length
        → ∃ dst', inetNtop .inet6 a dst 46 = some (.ok dst')
          ∧ inetPton .inet6 (dst'.takeWhile (· != 0)) = .ok (some a))
      ∧ ∀ (af : Family) (a : List UInt8), af.Address a
        → ∃ text : List UInt8, (∀ ch ∈ text, ch ≠ 0)
          ∧ ∀ (dst : List UInt8) (size : Nat), size ≤ dst.length
            → (text.length + 1 ≤ size
                ∧ inetNtop af a dst size = some (.ok (text ++ 0 :: dst.drop (text.length + 1))))
              ∨ ∃ errno, inetNtop af a dst size = some (.error errno) := by
  have written {af : Family} {a text dst : List UInt8} {size : Nat}
      (result : inetNtop af a dst size = some (ntopResult text dst size))
      : (text.length + 1 ≤ size
          ∧ inetNtop af a dst size = some (.ok (text ++ 0 :: dst.drop (text.length + 1))))
        ∨ ∃ errno, inetNtop af a dst size = some (.error errno) := by
    rw [result, ntopResult]
    by_cases fits : text.length < size
    · exact Or.inl ⟨fits, by rw [if_pos fits]⟩
    · exact Or.inr ⟨.ENOSPC, by rw [if_neg fits]⟩
  refine ⟨?_, ?_⟩
  · intro a dst length inside
    obtain ⟨words, text, found, formats, short, shape⟩ := exists_shape length
    refine ⟨text ++ 0 :: dst.drop (text.length + 1), ?_, ?_⟩
    · rw [inetNtop, inetNtop6_eq found formats short inside, ntopResult, if_pos (by omega)]
    · rw [takeWhile_text shape.ne_zero, inetPton, shape.read length]
  · intro af a address
    cases af with
    | inet =>
        obtain ⟨x, y, rest, rfl, length⟩ := length_eq_two (show a.length = 2 + 2 from address)
        obtain ⟨z, w, more, rfl, -⟩ := length_eq_two (show rest.length = 0 + 2 from length)
        exact ⟨quadText x y z w, quadText_ne_zero x y z w,
          fun dst size inside => written (inetNtop4_eq rfl inside)⟩
    | inet6 =>
        obtain ⟨words, text, found, formats, short, shape⟩ := exists_shape address
        exact ⟨text, shape.ne_zero,
          fun dst size inside => written (inetNtop6_eq found formats short inside)⟩
    | other => exact ⟨[], by simp, fun _ _ _ => Or.inr ⟨.EAFNOSUPPORT, rfl⟩⟩

/-- Witness: `::ffff:1.2.3.4` in a buffer of 46 bytes, and in one that is too small. -/
theorem inet_roundTrip_mapped
    : (∃ dst', inetNtop .inet6 [0, 0, 0, 0, 0, 0, 0, 0, 0, 0, 0xff, 0xff, 1, 2, 3, 4]
          (List.replicate 46 0x2a) 46 = some (.ok dst')
        ∧ inetPton .inet6 (dst'.takeWhile (· != 0))
          = .ok (some [0, 0, 0, 0, 0, 0, 0, 0, 0, 0, 0xff, 0xff, 1, 2, 3, 4]))
      ∧ ∃ text : List UInt8, ∀ (dst : List UInt8) (size : Nat), size ≤ dst.length
          → (text.length + 1 ≤ size
              ∧ inetNtop .inet [1, 2, 3, 4] dst size
                = some (.ok (text ++ 0 :: dst.drop (text.length + 1))))
            ∨ ∃ errno, inetNtop .inet [1, 2, 3, 4] dst size = some (.error errno) := by
  refine ⟨inet_roundTrip.1 _ _ rfl (by simp), ?_⟩
  obtain ⟨text, -, result⟩ := inet_roundTrip.2 .inet [1, 2, 3, 4] rfl
  exact ⟨text, result⟩

end BSDLibC.Inet
