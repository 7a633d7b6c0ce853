/-!
# Blank characters

The characters with the property White_Space, all of them, beyond the few that ASCII knows.
-/

namespace MiningPool.Text

/-- The ranges of characters that are blank. -/
def blankRanges : List (Nat × Nat) :=
  [(0x09, 0x0D), (0x20, 0x20), (0x85, 0x85), (0xA0, 0xA0), (0x1680, 0x1680), (0x2000, 0x200A),
    (0x2028, 0x2029), (0x202F, 0x202F), (0x205F, 0x205F), (0x3000, 0x3000)]

/-- Whether a character is blank. -/
def isBlank (c : Char) : Bool := blankRanges.any fun r => r.1 ≤ c.toNat && c.toNat ≤ r.2

/-- Whether a text is all blank. -/
def isAllBlank (s : String) : Bool := s.toList.all isBlank

end MiningPool.Text
