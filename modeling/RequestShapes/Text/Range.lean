/-!
# Ranges of characters

A character class beyond ASCII is a list of ranges of code points, each given
by its first and last member.
-/

namespace RequestShapes.Text

/-- Ranges of code points, both ends included. -/
abbrev Ranges := List (Nat × Nat)

/-- Whether a character lies in one of the ranges. -/
def Ranges.holds (ranges : Ranges) (c : Char) : Bool :=
  ranges.any fun range => range.1 ≤ c.toNat && c.toNat ≤ range.2

/-- Whether a character is ASCII. -/
def isAscii (c : Char) : Bool :=
  c.toNat < 128

end RequestShapes.Text
