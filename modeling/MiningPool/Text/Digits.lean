/-!
# Numbers at a fixed width

Digits in a base, filled up with zeros in front. A number with more digits than the width keeps them all.
-/

namespace MiningPool.Text

/-- Fills up with zeros in front. -/
def zeroPadded (width : Nat) (cs : List Char) : List Char :=
  List.replicate (width - cs.length) '0' ++ cs

/-- Decimal digits, at least `width` of them. -/
def decimal (width n : Nat) : String := String.ofList (zeroPadded width (Nat.toDigits 10 n))

/-- Hexadecimal digits in lower case, at least `width` of them. -/
def hex (width n : Nat) : String := String.ofList (zeroPadded width (Nat.toDigits 16 n))

end MiningPool.Text
