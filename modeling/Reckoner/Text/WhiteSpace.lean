/-!
# White space

The characters with the Unicode property `White_Space`.  A line that holds nothing else
counts as empty.
-/

set_option autoImplicit false

namespace Reckoner

/-- The ranges of code points with the property, in increasing order. -/
def whiteSpaceRanges : List (Nat × Nat) :=
  [ (0x0009, 0x000D)
  , (0x0020, 0x0020)
  , (0x0085, 0x0085)
  , (0x00A0, 0x00A0)
  , (0x1680, 0x1680)
  , (0x2000, 0x200A)
  , (0x2028, 0x2029)
  , (0x202F, 0x202F)
  , (0x205F, 0x205F)
  , (0x3000, 0x3000) ]

/-- Whether a character is white space. -/
def isWhiteSpace (c : Char) : Bool :=
  whiteSpaceRanges.any fun range => range.1 ≤ c.toNat && c.toNat ≤ range.2

/-- The white space of ASCII is white space. -/
theorem isWhiteSpace_of_isWhitespace (c : Char) (h : c.isWhitespace = true) :
    isWhiteSpace c = true := by
  simp only [Char.isWhitespace, Bool.or_eq_true, decide_eq_true_eq] at h
  rcases h with ((rfl | rfl) | rfl) | rfl <;> decide

end Reckoner
