import Mathlib

/-! Positions in a record stream, `xdrrec_getpos` and `xdrrec_setpos`. Pointers are addresses, and what
`lseek` answers is a number.
-/

namespace BSDLibC.Xdrrec

inductive XOp
  | encode
  | decode
  | free
deriving DecidableEq

/-- The part of `XDR` and `RECSTREAM` that has to do with positions. -/
structure PosStrm where
  xOp : XOp
  outBase : Int
  outFinger : Int
  outBoundry : Int
  fragHeader : Int
  inBase : Int
  inFinger : Int
  inBoundry : Int
  fbtbc : Int
deriving DecidableEq

/-- Where the current fragment ends. -/
def PosStrm.fragEnd (rstrm : PosStrm) : Int := rstrm.inFinger + rstrm.fbtbc

/-- What is left of the current fragment, in a memory that the input comes to. -/
def PosStrm.left {α : Type} (memory : Int → α) (rstrm : PosStrm) : List α :=
  (List.range rstrm.fbtbc.toNat).map fun i : Nat => memory (rstrm.inFinger + i)

/-- `xdrrec_getpos` -/
def xdrrecGetpos (lseek : Int) (rstrm : PosStrm) : BitVec 32 :=
  if lseek = -1 then
    -1
  else
    match rstrm.xOp with
    | .encode => BitVec.ofInt 32 (lseek + (rstrm.outFinger - rstrm.outBase))
    | .decode => BitVec.ofInt 32 (lseek - (rstrm.inBoundry - rstrm.inFinger))
    | .free => -1

section

variable (lseek : Int) (rstrm : PosStrm) (pos : BitVec 32)

/-- `delta` -/
def delta : Int := (xdrrecGetpos lseek rstrm - pos).toInt

/-- What an `int` keeps of `fbtbc`. -/
def PosStrm.fbtbcInt : Int := (BitVec.ofInt 32 rstrm.fbtbc).toInt

/-- `xdrrec_setpos` -/
def xdrrecSetpos : Bool × PosStrm :=
  if (xdrrecGetpos lseek rstrm).toInt ≠ -1 then
    match rstrm.xOp with
    | .encode =>
        let newpos := rstrm.outFinger - delta lseek rstrm pos
        if newpos > rstrm.fragHeader ∧ newpos < rstrm.outBoundry then
          (true, { rstrm with outFinger := newpos })
        else
          (false, rstrm)
    | .decode =>
        let newpos := rstrm.inFinger - delta lseek rstrm pos
        if delta lseek rstrm pos < rstrm.fbtbcInt ∧ newpos ≤ rstrm.inBoundry ∧ newpos ≥ rstrm.inBase then
          (true, { rstrm with inFinger := newpos, fbtbc := rstrm.fbtbc - delta lseek rstrm pos })
        else
          (false, rstrm)
    | .free => (false, rstrm)
  else
    (false, rstrm)

/-- What is promised about a change of the position. -/
structure Accounted : Prop where
  refused : (xdrrecSetpos lseek rstrm pos).1 = false → (xdrrecSetpos lseek rstrm pos).2 = rstrm
  fragment
    : rstrm.xOp = .decode
      → (xdrrecSetpos lseek rstrm pos).1 = true
      → (xdrrecSetpos lseek rstrm pos).2.fragEnd = rstrm.fragEnd
  header
    : rstrm.xOp = .encode
      → (xdrrecSetpos lseek rstrm pos).1 = true
      → rstrm.fragHeader + 4 ≤ (xdrrecSetpos lseek rstrm pos).2.outFinger

/-- The positions for which it is kept: those that are refused, the one where the stream already is when
it is decoding, and when it is encoding any that is not in the header.
-/
def Apart : Prop :=
  (xdrrecGetpos lseek rstrm).toInt = -1
    ∨ match rstrm.xOp with
      | .encode =>
          rstrm.outFinger - delta lseek rstrm pos ∉ Set.Ioo rstrm.fragHeader (rstrm.fragHeader + 4)
            ∨ rstrm.outBoundry ≤ rstrm.outFinger - delta lseek rstrm pos
      | .decode =>
          delta lseek rstrm pos = 0
            ∨ rstrm.fbtbcInt ≤ delta lseek rstrm pos
            ∨ rstrm.inFinger - delta lseek rstrm pos ∉ Set.Icc rstrm.inBase rstrm.inBoundry
      | .free => True

/-- With the same end what is left are the bytes of the fragment from the new position on. -/
theorem left_of_fragEnd {α : Type} (memory : Int → α) {rstrm rstrm' : PosStrm}
    (same : rstrm'.fragEnd = rstrm.fragEnd)
    : rstrm'.left memory
      = (List.range (rstrm.fragEnd - rstrm'.inFinger).toNat).map fun i : Nat => memory (rstrm'.inFinger + i) := by
  rw [PosStrm.left, ← same, PosStrm.fragEnd, add_sub_cancel_left]

theorem accounted_of_refused (refused : xdrrecSetpos lseek rstrm pos = (false, rstrm))
    : Accounted lseek rstrm pos := by
  refine ⟨fun _ => by rw [refused], fun _ accepted => ?_, fun _ accepted => ?_⟩
  · rw [refused] at accepted
    cases accepted
  · rw [refused] at accepted
    cases accepted

theorem accounted_iff : Accounted lseek rstrm pos ↔ Apart lseek rstrm pos := by
  by_cases known : (xdrrecGetpos lseek rstrm).toInt = -1
  · refine ⟨fun _ => Or.inl known, fun _ => accounted_of_refused lseek rstrm pos ?_⟩
    rw [xdrrecSetpos, if_neg (not_not.mpr known)]
  · rw [Apart, or_iff_right known]
    cases op : rstrm.xOp with
    | encode =>
        have setpos : xdrrecSetpos lseek rstrm pos
            = if rstrm.outFinger - delta lseek rstrm pos > rstrm.fragHeader
                  ∧ rstrm.outFinger - delta lseek rstrm pos < rstrm.outBoundry then
                (true, { rstrm with outFinger := rstrm.outFinger - delta lseek rstrm pos })
              else
                (false, rstrm) := by
          rw [xdrrecSetpos, if_pos known, op]
        by_cases accepted : rstrm.outFinger - delta lseek rstrm pos > rstrm.fragHeader
            ∧ rstrm.outFinger - delta lseek rstrm pos < rstrm.outBoundry
        · rw [if_pos accepted] at setpos
          constructor
          · intro accounted
            have behind := accounted.header op (by rw [setpos])
            rw [setpos] at behind
            exact Or.inl fun inside => Int.not_lt.mpr behind inside.2
          · intro apart
            have outside := apart.resolve_right (Int.not_le.mpr accepted.2)
            refine ⟨fun refused => ?_, fun decoding => ?_, fun _ _ => ?_⟩
            · rw [setpos] at refused
              cases refused
            · rw [op] at decoding
              cases decoding
            · rw [setpos]
              exact Int.not_lt.mp fun before => outside ⟨accepted.1, before⟩
        · rw [if_neg accepted] at setpos
          refine ⟨fun _ => ?_, fun _ => accounted_of_refused lseek rstrm pos setpos⟩
          by_cases inside : rstrm.outFinger - delta lseek rstrm pos > rstrm.fragHeader
          · exact Or.inr (Int.not_lt.mp fun below => accepted ⟨inside, below⟩)
          · exact Or.inl fun header => inside header.1
    | decode =>
        have setpos : xdrrecSetpos lseek rstrm pos
            = if delta lseek rstrm pos < rstrm.fbtbcInt ∧ rstrm.inFinger - delta lseek rstrm pos ≤ rstrm.inBoundry
                  ∧ rstrm.inFinger - delta lseek rstrm pos ≥ rstrm.inBase then
                (true,
                  { rstrm with
                    inFinger := rstrm.inFinger - delta lseek rstrm pos
                    fbtbc := rstrm.fbtbc - delta lseek rstrm pos })
              else
                (false, rstrm) := by
          rw [xdrrecSetpos, if_pos known, op]
        by_cases accepted : delta lseek rstrm pos < rstrm.fbtbcInt
            ∧ rstrm.inFinger - delta lseek rstrm pos ≤ rstrm.inBoundry
            ∧ rstrm.inFinger - delta lseek rstrm pos ≥ rstrm.inBase
        · rw [if_pos accepted] at setpos
          constructor
          · intro accounted
            have same := accounted.fragment op (by rw [setpos])
            rw [setpos, PosStrm.fragEnd, PosStrm.fragEnd] at same
            refine Or.inl ?_
            dsimp only at same
            omega
          · intro apart
            have still : delta lseek rstrm pos = 0 := by
              rcases apart with zero | beyond | outside
              · exact zero
              · exact absurd accepted.1 (Int.not_lt.mpr beyond)
              · exact absurd ⟨accepted.2.2, accepted.2.1⟩ outside
            rw [still, Int.sub_zero, Int.sub_zero] at setpos
            refine ⟨fun _ => by rw [setpos], fun _ _ => by rw [setpos], fun encoding => ?_⟩
            rw [op] at encoding
            cases encoding
        · rw [if_neg accepted] at setpos
          refine ⟨fun _ => ?_, fun _ => accounted_of_refused lseek rstrm pos setpos⟩
          by_cases within : delta lseek rstrm pos < rstrm.fbtbcInt
          · exact Or.inr (Or.inr fun inside => accepted ⟨within, inside.2, inside.1⟩)
          · exact Or.inr (Or.inl (Int.not_lt.mp within))
    | free =>
        refine ⟨fun _ => trivial, fun _ => accounted_of_refused lseek rstrm pos ?_⟩
        rw [xdrrecSetpos, if_pos known, op]

end

/-- A fragment of 30 bytes, of which 10 are read. -/
def tenRead : PosStrm :=
  { xOp := .decode
    outBase := 0
    outFinger := 4
    outBoundry := 0
    fragHeader := 0
    inBase := 1000
    inFinger := 1014
    inBoundry := 1400
    fbtbc := 20 }

/-- A fragment of 26 bytes behind its header. -/
def someWritten : PosStrm :=
  { xOp := .encode
    outBase := 2000
    outFinger := 2030
    outBoundry := 2400
    fragHeader := 2000
    inBase := 0
    inFinger := 0
    inBoundry := 0
    fbtbc := 0 }

/-- Going back 4 bytes leaves 4 bytes less to read, where it should be 4 more, and the position 2 is in
the header.
-/
theorem setpos_not_accounted
    : (xdrrecSetpos 400 tenRead 10).1 = true
      ∧ (xdrrecSetpos 400 tenRead 10).2.inFinger = 1010
      ∧ (xdrrecSetpos 400 tenRead 10).2.fragEnd = 1026
      ∧ tenRead.fragEnd = 1034
      ∧ (xdrrecSetpos 0 someWritten 2).1 = true
      ∧ (xdrrecSetpos 0 someWritten 2).2.outFinger = 2002
      ∧ ¬ Accounted 400 tenRead 10
      ∧ ¬ Accounted 0 someWritten 2 := by
  refine ⟨by decide, by decide, by decide, by decide, by decide, by decide, fun accounted => ?_, fun accounted => ?_⟩
  · exact absurd (accounted.fragment rfl (by decide)) (by decide)
  · exact absurd (accounted.header rfl (by decide)) (by decide)

end BSDLibC.Xdrrec
