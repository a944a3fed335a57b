import BSDLibC.Vis.RoundTrip

/-! The HTTP and MIME styles. Each character is written as itself or as a sequence that the
decoder reads back with the flag of the same style, whatever comes after it.
-/

namespace BSDLibC.Vis
open BSDLibC.Ctype

/-- Encodings of one character that are read back by themselves. -/
inductive ReadsAs (flag : Flags) (c : UInt8) : List UInt8 → Prop
  | itself (nonzero : c ≠ 0) (plain : ∀ t, feed flag (Cursor.ground t) c = some ([c], Cursor.ground c))
    : ReadsAs flag c [c]
  | sequence {lead : UInt8} {tail : List UInt8} {cursor : Cursor}
    (starts : ∀ t, feed flag (Cursor.ground t) lead = some ([], cursor))
    (reads : decodeRun flag cursor tail = some ([c], Cursor.ground c))
    (printable : 0 ∉ lead :: tail) (short : tail.length ≤ 3)
    : ReadsAs flag c (lead :: tail)

variable {flags flag : Flags}

theorem ReadsAs.run {c : UInt8} {encoded : List UInt8} (h : ReadsAs flag c encoded) (t : UInt8)
    : decodeRun flag (Cursor.ground t) encoded = some ([c], Cursor.ground c) := by
  cases h with
  | itself _ plain =>
      rw [decodeRun_cons (plain t)]
      rfl
  | sequence starts reads _ _ => rw [decodeRun_cons (starts t), reads, after_nil]

theorem ReadsAs.printable {c : UInt8} {encoded : List UInt8} (h : ReadsAs flag c encoded)
    : 0 ∉ encoded ∧ encoded.length ≤ 4 := by
  cases h with
  | itself nonzero _ => simpa using nonzero.symm
  | sequence _ _ printable short =>
      rw [List.length_cons]
      exact ⟨printable, by omega⟩

/-- A style in which the encoding of every character is read back. -/
def Inverts (flags flag : Flags) : Prop :=
  ∀ (c : UInt8) (next : Nat),
    ReadsAs flag c ((getvisfun flags c.toNat flags next (makeextralist flags [])).map byte)

theorem Inverts.loop (h : Inverts flags flag) (last : Nat) (src : List UInt8) (t : UInt8)
    : (∃ t', decodeRun flag (Cursor.ground t)
        ((visLoop (getvisfun flags) flags (makeextralist flags []) last
          (src.map UInt8.toNat)).map byte) = some (src, Cursor.ground t'))
      ∧ 0 ∉ (visLoop (getvisfun flags) flags (makeextralist flags []) last
          (src.map UInt8.toNat)).map byte
      ∧ (visLoop (getvisfun flags) flags (makeextralist flags []) last
          (src.map UInt8.toNat)).length ≤ 4 * src.length := by
  induction src generalizing t with
  | nil => exact ⟨⟨t, rfl⟩, by simp [visLoop], by simp [visLoop]⟩
  | cons c rest ih =>
      rw [List.map_cons, visLoop_cons, List.map_append]
      have first := h c ((rest.map UInt8.toNat).headD last)
      obtain ⟨⟨t', later⟩, printable, short⟩ := ih c
      refine ⟨⟨t', ?_⟩, ?_, ?_⟩
      · rw [decodeRun_append (first.run t), later]
        rfl
      · rw [List.mem_append, not_or]
        exact ⟨first.printable.1, printable⟩
      · have own := first.printable.2
        rw [List.length_map] at own
        rw [List.length_append, List.length_cons]
        omega

/-- A style that inverts character by character inverts strings. -/
theorem Inverts.readsBack (h : Inverts flags flag) (src : List UInt8) (after : UInt8)
    : (∀ encoded result dlen, strvisx src after flags = some (encoded, result)
        → src.length < dlen
        → strnunvisx dlen encoded flag = some (src, toInt src.length))
      ∧ (src.length < 2 ^ 56 → ∃ encoded result, strvisx src after flags = some (encoded, result)) := by
  obtain ⟨⟨t, decodes⟩, printable, short⟩ := h.loop (lastOf src after) src 0
  refine ⟨?_, ?_⟩
  · intro encoded result dlen run room
    have written := istrsenvisx_some rfl printable run
    rw [strnunvisx_eq, cstring_of_printable (written ▸ printable), decodeAll, written,
      show Cursor.init = Cursor.ground 0 from rfl, decodes, Option.map_some, Option.bind_some]
    simp [Cursor.finish, Cursor.ground, ss, unvisEnd, room]
  · intro small
    exact ⟨_, istrsenvisx_succeeds rfl printable short small⟩

-----------------------------------------------------------------------------------------
-- The HTTP style
-----------------------------------------------------------------------------------------

def Flags.http : Flags := { Flags.none with httpstyle := true }

def Flags.httpNolocale : Flags := { Flags.none with httpstyle := true, nolocale := true }

/-- A graphic character that is not extra is written as itself. -/
theorem doSvis_graph {flags : Flags} {extra : List Nat} {n : Nat} (graph : isgraph n)
    (absent : n ∉ extra) (next : Nat)
    : doSvis n flags next extra = [n] := by
  have nonzero : n ≠ 0 := by
    rintro rfl
    exact nomatch graph
  simp [doSvis, wcschr, ISGRAPH, graph, absent, nonzero]

theorem percent_reads
    : ∀ n < 256, decodeRun Flags.http ⟨0, ss .hex1⟩
        [byte (xtoa (n >>> 4 &&& 0xf)), byte (xtoa (n &&& 0xf))]
          = some ([byte n], Cursor.ground (byte n))
      ∧ 0 ∉ [byte (xtoa (n >>> 4 &&& 0xf)), byte (xtoa (n &&& 0xf))] := by
  decide +kernel

/-- The characters that the style leaves alone mean themselves to the decoder. -/
theorem http_plain
    : ∀ n < 256, (isalnum n || ("$-_.+!*'(),".toList.map chr).contains n)
      → isgraph n ∧ n ≠ chr '\\' ∧ n ≠ chr '%' := by
  decide +kernel

theorem inverts_http : Inverts Flags.httpNolocale Flags.http := by
  intro c next
  have code : byte c.toNat = c := UInt8.ofNat_toNat
  show ReadsAs _ c ((doHvis c.toNat _ next [chr '\\']).map byte)
  unfold doHvis
  split
  case isTrue plain =>
    obtain ⟨graph, slash, percent⟩ := http_plain c.toNat c.toNat_lt plain
    rw [doSvis_graph graph (by simpa using slash), List.map_singleton, code]
    refine .itself ?_ ?_
    · rintro rfl
      exact nomatch graph
    · intro t
      simp [feed, unvis, Cursor.ground, ss, Flags.http, Flags.none, slash, percent]
  case isFalse =>
    obtain ⟨reads, printable⟩ := percent_reads c.toNat c.toNat_lt
    rw [code] at reads
    refine .sequence (fun t => rfl) reads ?_ (by simp)
    rw [List.mem_cons, not_or]
    exact ⟨by decide, printable⟩

-----------------------------------------------------------------------------------------
-- The MIME style
-----------------------------------------------------------------------------------------

def Flags.mime : Flags := { Flags.none with mimestyle := true }

def Flags.mimeNolocale : Flags := { Flags.none with mimestyle := true, nolocale := true }

theorem equals_reads
    : ∀ n < 256, decodeRun Flags.mime ⟨0, ss .mime1⟩
        [byte (XTOA (n >>> 4 &&& 0xf)), byte (XTOA (n &&& 0xf))]
          = some ([byte n], Cursor.ground (byte n))
      ∧ 0 ∉ [byte (XTOA (n >>> 4 &&& 0xf)), byte (XTOA (n &&& 0xf))] := by
  decide +kernel

/-- The control characters that `do_mvis` hands to `do_svis`. -/
theorem mime_control {n : Nat} (control : n = 0x0b ∨ n = 0x0c ∨ n = 0x0d) (next : Nat)
    : doSvis n Flags.mimeNolocale next [chr '\\'] = [chr '\\', chr '^', n + chr '@']
      ∧ decodeRun Flags.mime Cursor.escape [byte (chr '^'), byte (n + chr '@')]
        = some ([byte n], Cursor.ground (byte n))
      ∧ 0 ∉ [byte (chr '\\'), byte (chr '^'), byte (n + chr '@')] := by
  rcases control with rfl | rfl | rfl
  · exact ⟨rfl, rfl, by decide⟩
  · exact ⟨rfl, rfl, by decide⟩
  · exact ⟨rfl, rfl, by decide⟩

/-- What `do_mvis` leaves to `do_svis`. -/
theorem mime_plain
    : ∀ n < 256, (n = chr '\n'
        || (isspace n || !(n < 33 || (n > 60 && n < 62) || n > 126))
          && !wcschr ("#$@[\\]^`\x7b|\x7d~".toList.map chr) n)
      → n ≠ 0 ∧ n ≠ chr '\\' ∧ n ≠ chr '='
        ∧ (isgraph n ∨ iswwhite n ∨ n = 0x0b ∨ n = 0x0c ∨ n = 0x0d) := by
  decide +kernel

theorem inverts_mime : Inverts Flags.mimeNolocale Flags.mime := by
  intro c next
  have code : byte c.toNat = c := UInt8.ofNat_toNat
  show ReadsAs _ c ((doMvis c.toNat _ next [chr '\\']).map byte)
  unfold doMvis
  split
  case isTrue =>
    obtain ⟨reads, printable⟩ := equals_reads c.toNat c.toNat_lt
    rw [code] at reads
    refine .sequence (fun t => rfl) reads ?_ (by simp)
    rw [List.mem_cons, not_or]
    exact ⟨by decide, printable⟩
  case isFalse left =>
    obtain ⟨nonzero, slash, equals, form⟩ := mime_plain c.toNat c.toNat_lt (by
      simp at left ⊢
      grind)
    by_cases visible : isgraph c.toNat ∨ iswwhite c.toNat
    · have raw : doSvis c.toNat Flags.mimeNolocale next [chr '\\'] = [c.toNat] := by
        simp [doSvis, wcschr, ISGRAPH, nonzero, slash]
        grind
      rw [raw, List.map_singleton, code]
      refine .itself ?_ ?_
      · rintro rfl
        exact nonzero rfl
      · intro t
        simp [feed, unvis, Cursor.ground, ss, Flags.mime, Flags.none, slash, equals]
    · have control : c.toNat = 0x0b ∨ c.toNat = 0x0c ∨ c.toNat = 0x0d := by tauto
      obtain ⟨written, reads, printable⟩ := mime_control control next
      rw [code] at reads
      rw [written]
      exact .sequence (fun t => rfl) reads printable (by simp)

/-- What is encoded in the HTTP or the MIME style is read back with the flag of that style, and
every string that can be held in memory is encoded.
-/
theorem styles_invert (src : List UInt8) (after : UInt8)
    : ((∀ encoded result dlen, strvisx src after Flags.httpNolocale = some (encoded, result)
          → src.length < dlen
          → strnunvisx dlen encoded Flags.http = some (src, toInt src.length))
        ∧ (src.length < 2 ^ 56
          → ∃ encoded result, strvisx src after Flags.httpNolocale = some (encoded, result)))
      ∧ ((∀ encoded result dlen, strvisx src after Flags.mimeNolocale = some (encoded, result)
          → src.length < dlen
          → strnunvisx dlen encoded Flags.mime = some (src, toInt src.length))
        ∧ (src.length < 2 ^ 56
          → ∃ encoded result, strvisx src after Flags.mimeNolocale = some (encoded, result))) :=
  ⟨inverts_http.readsBack src after, inverts_mime.readsBack src after⟩

/-- A blank before a carriage return, with a byte that both styles escape. -/
theorem styles_invert_blank
    : (∃ encoded result, strvisx [0x20, 0x0d, 0xff] 0 Flags.httpNolocale = some (encoded, result)
        ∧ strnunvisx 4 encoded Flags.http = some ([0x20, 0x0d, 0xff], 3))
      ∧ (∃ encoded result, strvisx [0x20, 0x0d, 0xff] 0 Flags.mimeNolocale = some (encoded, result)
        ∧ strnunvisx 4 encoded Flags.mime = some ([0x20, 0x0d, 0xff], 3)) := by
  obtain ⟨⟨httpReads, httpRuns⟩, mimeReads, mimeRuns⟩ := styles_invert [0x20, 0x0d, 0xff] 0
  obtain ⟨http, httpResult, httpRun⟩ := httpRuns (by decide)
  obtain ⟨mime, mimeResult, mimeRun⟩ := mimeRuns (by decide)
  exact ⟨⟨http, httpResult, httpRun, httpReads http httpResult 4 httpRun (by decide)⟩,
    mime, mimeResult, mimeRun, mimeReads mime mimeResult 4 mimeRun (by decide)⟩

end BSDLibC.Vis
