import Mathlib.Algebra.Order.Ring.Nat
import Mathlib.Tactic.Common

/-! The character classes of the C locale, on character codes. The wide classes agree with them
there, and no code above 127 is in any class.
-/

namespace BSDLibC.Ctype

def isupper (c : Nat) : Bool := 0x41 ≤ c && c ≤ 0x5a

def islower (c : Nat) : Bool := 0x61 ≤ c && c ≤ 0x7a

def isdigit (c : Nat) : Bool := 0x30 ≤ c && c ≤ 0x39

def isalnum (c : Nat) : Bool := isupper c || islower c || isdigit c

def isxdigit (c : Nat) : Bool :=
  isdigit c || (0x41 ≤ c && c ≤ 0x46) || (0x61 ≤ c && c ≤ 0x66)

def isgraph (c : Nat) : Bool := 0x21 ≤ c && c ≤ 0x7e

def iscntrl (c : Nat) : Bool := c < 0x20 || c = 0x7f

def isspace (c : Nat) : Bool := c = 0x20 || (0x09 ≤ c && c ≤ 0x0d)

def tolower (c : Nat) : Nat := if isupper c then c + 0x20 else c

/-- The alphabet of base64 has no character twice. -/
theorem alphabet_nodup
    : (List.range' 65 26 ++ List.range' 97 26 ++ List.range' 48 10 ++ [43, 47]).Nodup := by
  simp only [List.nodup_append, List.mem_append, List.mem_range'_1]
  refine ⟨⟨⟨List.nodup_range', List.nodup_range', ?_⟩, List.nodup_range', ?_⟩, by decide, ?_⟩
  · intro a upper b lower
    omega
  · intro a letter b numeral
    omega
  · intro a other b last
    simp only [List.mem_cons, List.not_mem_nil, or_false] at last
    omega

end BSDLibC.Ctype
