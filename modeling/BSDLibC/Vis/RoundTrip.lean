import BSDLibC.Vis.Inverse
import Mathlib.Data.List.TakeWhile

/-! The round trip from `strvisx` and `strsvisx` to `strnunvisx`, without `VIS_NOSLASH` and the
HTTP and MIME styles.
-/

namespace BSDLibC.Vis
open BSDLibC.Ctype

variable {src encoded mbextra : List UInt8} {after : UInt8} {flags : Flags} {result : Int}

/-- The flags select `do_svis` and let it write backslashes. -/
structure Flags.Backslash (flags : Flags) : Prop where
  slash : flags.noslash = false
  http : flags.httpstyle = false
  mime : flags.mimestyle = false

theorem backslash_mem_makeextralist (slash : flags.noslash = false) (mbextra : List UInt8)
    : chr '\\' ∈ makeextralist flags mbextra := by
  simp [makeextralist, slash]

theorem takeWhile_ne {α : Type} [DecidableEq α] {xs : List α} {a : α} (absent : a ∉ xs)
    : xs.takeWhile (· ≠ a) = xs :=
  List.takeWhile_eq_self_iff.mpr fun x member => by simpa using ne_of_mem_of_not_mem member absent

theorem cstring_of_printable (printable : 0 ∉ encoded) : cstring encoded = encoded :=
  takeWhile_ne printable

/-- What the last character of `istrsenvisx` sees as the next one. -/
def lastOf (src : List UInt8) (after : UInt8) : Nat := if src.length = 1 then after.toNat else 0

/-- `istrsenvisx` without a limit on the output, where that is printable. -/
theorem istrsenvisx_none {start : List Nat} (mbextra : List UInt8)
    (loop : visLoop (getvisfun flags) flags (makeextralist flags mbextra) (lastOf src after)
      (src.map UInt8.toNat) = start)
    (printable : 0 ∉ start.map byte)
    : istrsenvisx none src after flags mbextra
      = if (if src.length = 1 then 2 else src.length) > (2 ^ 64 - 2) / 16 then none
        else if start.length ≤ (2 ^ 64 - 2) / 32 then
          some (start.map byte, toInt start.length)
        else
          none := by
  have nonzero : 0 ∉ start := fun member => printable (List.mem_map.mpr ⟨0, member, rfl⟩)
  rw [lastOf] at loop
  simp only [istrsenvisx, loop, takeWhile_ne nonzero, decide_eq_true_eq]

theorem istrsenvisx_some {start : List Nat}
    (loop : visLoop (getvisfun flags) flags (makeextralist flags mbextra) (lastOf src after)
      (src.map UInt8.toNat) = start)
    (printable : 0 ∉ start.map byte)
    (run : istrsenvisx none src after flags mbextra = some (encoded, result))
    : encoded = start.map byte := by
  rw [istrsenvisx_none mbextra loop printable] at run
  generalize (if src.length = 1 then 2 else src.length) = mbslength at run
  split at run
  · cases run
  split at run
  · exact (Prod.mk.inj (Option.some.inj run)).1.symm
  · cases run

/-- `istrsenvisx` fails only for strings that no address space holds. -/
theorem istrsenvisx_succeeds {start : List Nat}
    (loop : visLoop (getvisfun flags) flags (makeextralist flags mbextra) (lastOf src after)
      (src.map UInt8.toNat) = start)
    (printable : 0 ∉ start.map byte) (short : start.length ≤ 4 * src.length)
    (small : src.length < 2 ^ 56)
    : ∃ result, istrsenvisx none src after flags mbextra = some (start.map byte, result) := by
  have inputFits : ¬ (if src.length = 1 then 2 else src.length) > (2 ^ 64 - 2) / 16 := by
    split <;> omega
  rw [istrsenvisx_none mbextra loop printable, if_neg inputFits, if_pos (by omega)]
  exact ⟨_, rfl⟩

theorem getvisfun_backslash (backslash : flags.Backslash) : getvisfun flags = doSvis := by
  simp [getvisfun, backslash.http, backslash.mime]

/-- What `strsvisx` writes. -/
theorem strsvisx_encodes (backslash : flags.Backslash)
    (run : strsvisx src after flags mbextra = some (encoded, result))
    : EncodesAll (Misread flags (makeextralist flags mbextra)) (lastOf src after) src encoded := by
  have encodes := visLoop_encodes backslash.slash
    (backslash_mem_makeextralist backslash.slash mbextra) (lastOf src after) src
  have written := istrsenvisx_some (by rw [getvisfun_backslash backslash]) encodes.printable.1 run
  rw [written]
  exact encodes

theorem strsvisx_succeeds (backslash : flags.Backslash) (src : List UInt8) (after : UInt8)
    (mbextra : List UInt8) (small : src.length < 2 ^ 56)
    : ∃ encoded result, strsvisx src after flags mbextra = some (encoded, result) := by
  have encodes := visLoop_encodes backslash.slash
    (backslash_mem_makeextralist backslash.slash mbextra) (lastOf src after) src
  have short := encodes.printable.2
  rw [List.length_map] at short
  exact ⟨_, istrsenvisx_succeeds (by rw [getvisfun_backslash backslash]) encodes.printable.1 short
    small⟩

/-- `strnunvisx` on an encoding, as a run of the decoder. -/
theorem strnunvisx_encoded {misread : UInt8 → Prop} {last : Nat}
    (h : EncodesAll misread last src encoded) (dlen : Nat)
    : strnunvisx dlen encoded Flags.none
      = (decodeAll Flags.none encoded).bind fun out =>
          if out.length < dlen then some (out, toInt out.length) else none := by
  rw [strnunvisx_eq, cstring_of_printable h.printable.1]

/-- Only characters of the list given can be misread. -/
theorem misread_iff (flags : Flags) (mbextra : List UInt8) (c : UInt8)
    : Misread flags (makeextralist flags mbextra) c
      ↔ flags.cstyle ∧ (c.toNat = chr 'x' ∨ c.toNat = chr 'E') ∧ c ∈ cstring mbextra := by
  have others : ∀ n, n = chr 'x' ∨ n = chr 'E' → n ∉ charGlob ∧ n ∉ charShell ∧ n ≠ chr ' '
      ∧ n ≠ chr '\t' ∧ n ≠ chr '\n' ∧ n ≠ 0x22 ∧ n ≠ chr '\\' := by
    rintro n (rfl | rfl) <;> decide
  have member (letter : c.toNat = chr 'x' ∨ c.toNat = chr 'E')
      : c.toNat ∈ makeextralist flags mbextra ↔ c ∈ cstring mbextra := by
    obtain ⟨glob, shell, sp, tab, nl, dq, slash⟩ := others _ letter
    have own : c.toNat ∈ (cstring mbextra).map UInt8.toNat ↔ c ∈ cstring mbextra := by
      constructor
      · intro listed
        obtain ⟨c', member, same⟩ := List.mem_map.mp listed
        rwa [← UInt8.toNat_inj.mp same]
      · exact List.mem_map_of_mem
    have optional {flag : Bool} {listed : List Nat} (absent : c.toNat ∉ listed)
        : c.toNat ∉ (if flag then listed else []) := by
      cases flag <;> simp [absent]
    have last : c.toNat ∉ (if flags.noslash then [] else [chr '\\']) := by
      cases flags.noslash <;> simp [slash]
    simp only [makeextralist, List.mem_append, own, optional glob, optional shell,
      optional (List.mem_singleton.not.mpr sp), optional (List.mem_singleton.not.mpr tab),
      optional (List.mem_singleton.not.mpr nl), optional (List.mem_singleton.not.mpr dq), last,
      or_false]
  unfold Misread
  constructor
  · rintro ⟨cstyle, letter, listed⟩
    exact ⟨cstyle, letter, (member letter).mp listed⟩
  · rintro ⟨cstyle, letter, listed⟩
    exact ⟨cstyle, letter, (member letter).mpr listed⟩

/-- An encoding without misread characters decodes to its string. -/
theorem EncodesAll.decodeAll_eq {misread : UInt8 → Prop} {last : Nat}
    (h : EncodesAll misread last src encoded) (good : ∀ c ∈ src, ¬ misread c)
    : decodeAll Flags.none encoded = some src := by
  obtain ⟨out, cursor, decodes, same⟩ := h.reads good 0
  rw [decodeAll, show Cursor.init = Cursor.ground 0 from rfl, decodes, Option.map_some]
  simp only [same]

theorem decodeAll_strvisx (backslash : flags.Backslash)
    (run : strvisx src after flags = some (encoded, result))
    : decodeAll Flags.none encoded = some src := by
  refine (strsvisx_encodes backslash run).decodeAll_eq ?_
  intro c _ misread
  rw [misread_iff] at misread
  exact nomatch misread.2.2

/-- What was encoded by `strvisx` is decoded again, whatever its length. The result is the length
as an `int`.
-/
theorem strnunvisx_strvisx (backslash : flags.Backslash)
    (run : strvisx src after flags = some (encoded, result)) {dlen : Nat} (room : src.length < dlen)
    : strnunvisx dlen encoded Flags.none = some (src, toInt src.length)
      ∧ (src.length < 2 ^ 31 → toInt src.length = src.length) := by
  refine ⟨?_, ?_⟩
  · rw [strnunvisx_encoded (strsvisx_encodes backslash run), decodeAll_strvisx backslash run,
      Option.bind_some, if_pos room]
  · intro small
    rw [toInt, BitVec.toInt_eq_toNat_cond, BitVec.toNat_ofNat, Nat.mod_eq_of_lt (by omega),
      if_pos (by omega)]

/-- All flags that leave the encoding to `do_svis` with backslashes. -/
def Flags.allBackslash : Flags :=
  { Flags.none with
    octal := true, cstyle := true, sp := true, tab := true, nl := true, safe := true, dq := true,
    glob := true, shell := true, nolocale := true }

theorem backslash_allBackslash : Flags.allBackslash.Backslash := ⟨rfl, rfl, rfl⟩

/-- A NUL byte before a digit, a tab and a byte above 127. -/
theorem strnunvisx_strvisx_nul
    : ∃ encoded result, strvisx [0, 0x37, 0x09, 0xa9] 0 Flags.allBackslash = some (encoded, result)
      ∧ strnunvisx 100 encoded Flags.none = some ([0, 0x37, 0x09, 0xa9], 4) := by
  obtain ⟨encoded, result, run⟩ :=
    strsvisx_succeeds backslash_allBackslash [0, 0x37, 0x09, 0xa9] 0 [] (by decide)
  exact ⟨encoded, result, run, (strnunvisx_strvisx backslash_allBackslash run (by decide)).1⟩

/-- The result for `2 ^ 31` bytes is negative. -/
theorem strnunvisx_result_wraps
    : ∃ encoded result,
        strvisx (List.replicate (2 ^ 31) 0x61) 0 Flags.allBackslash = some (encoded, result)
        ∧ strnunvisx (2 ^ 64 - 1) encoded Flags.none
          = some (List.replicate (2 ^ 31) 0x61, -2147483648)
        ∧ (-2147483648 : Int) ≠ (List.replicate (2 ^ 31) (0x61 : UInt8)).length := by
  have length : (List.replicate (2 ^ 31) (0x61 : UInt8)).length = 2 ^ 31 := List.length_replicate
  generalize List.replicate (2 ^ 31) (0x61 : UInt8) = src at *
  obtain ⟨encoded, result, run⟩ :=
    strsvisx_succeeds backslash_allBackslash src 0 [] (by omega)
  refine ⟨encoded, result, run, ?_, by omega⟩
  rw [strnunvisx_encoded (strsvisx_encodes backslash_allBackslash run),
    decodeAll_strvisx backslash_allBackslash run, Option.bind_some, length]
  rfl

/-- `strsvisx` with any list of extra characters is inverted exactly if it does not write an
extra `x` or `E` of the string as `\x` or `\E`, which it does with `VIS_CSTYLE`.
-/
theorem strnunvisx_strsvisx_iff (backslash : flags.Backslash)
    (run : strsvisx src after flags mbextra = some (encoded, result)) {dlen : Nat}
    (room : src.length < dlen)
    : (strnunvisx dlen encoded Flags.none).map Prod.fst = some src
      ↔ ¬ (flags.cstyle
          ∧ ∃ c ∈ src, (c.toNat = chr 'x' ∨ c.toNat = chr 'E') ∧ c ∈ cstring mbextra) := by
  have encodes := strsvisx_encodes backslash run
  rw [strnunvisx_encoded encodes]
  constructor
  · rintro inverted ⟨cstyle, c, member, letter, listed⟩
    have bad : ∃ c ∈ src, Misread flags (makeextralist flags mbextra) c :=
      ⟨c, member, (misread_iff flags mbextra c).mpr ⟨cstyle, letter, listed⟩⟩
    rcases decodes : decodeRun Flags.none Cursor.init encoded with _ | ⟨out, cursor⟩
    · simp [decodeAll, decodes] at inverted
    · have wrong := encodes.not_reads bad 0 decodes
      simp only [decodeAll, decodes, Option.map_some, Option.bind_some] at inverted
      split at inverted
      · exact wrong (Option.some.inj inverted)
      · cases inverted
  · intro good
    have decodes := encodes.decodeAll_eq (by
      intro c member misread
      obtain ⟨cstyle, letter, listed⟩ := (misread_iff flags mbextra c).mp misread
      exact good ⟨cstyle, c, member, letter, listed⟩)
    rw [decodes, Option.bind_some, if_pos room, Option.map_some]

theorem strnunvisx_strsvisx_extra_n
    : ∃ encoded result,
        strsvisx [0x78, 0x6e] 0 { Flags.none with cstyle := true } [0x6e] = some (encoded, result)
        ∧ (strnunvisx 100 encoded Flags.none).map Prod.fst = some [0x78, 0x6e] := by
  have backslash : ({ Flags.none with cstyle := true } : Flags).Backslash := ⟨rfl, rfl, rfl⟩
  obtain ⟨encoded, result, run⟩ :=
    strsvisx_succeeds backslash [0x78, 0x6e] 0 [0x6e] (by decide)
  exact ⟨encoded, result, run,
    (strnunvisx_strsvisx_iff backslash run (by decide)).mpr (by decide)⟩

/-- `x` is written as `\x` when it is extra, and does not come back. -/
theorem strsvisx_extra_x_lost
    : strsvisx [0x78] 0 { Flags.none with cstyle := true } [0x78] = some ([0x5c, 0x78], 2)
      ∧ strnunvisx 100 [0x5c, 0x78] Flags.none = some ([], 0) := by
  decide

end BSDLibC.Vis
