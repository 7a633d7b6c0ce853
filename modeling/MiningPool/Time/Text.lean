import MiningPool.Decimal.Power
import MiningPool.Text.Blank
import MiningPool.Text.Digits
import MiningPool.Time.Span

/-!
# Spans as text

People write a span as a sum of numbers with units, such as `1h 30m`, and so does the pool; the units it
uses are years of 365.25 days, months of 30.44 days, days, hours and so on down. Logs show a span in one
unit, with a decimal part. Every number on the way to a span has to fit 64 bits.
-/

namespace MiningPool.Span

/-! ## Reading -/

/-- The numbers of 64 bits. -/
def fits (n : Nat) : Option Nat := if n < twoTo 64 then some n else none

/-- A unit: so many seconds, or so many nanoseconds. -/
structure Scale where
  seconds : Nat
  nanoseconds : Nat

/-- The unit of a name. -/
def scale? (name : String) : Option Scale :=
  if name ∈ ["nanos", "nsec", "ns"] then some ⟨0, 1⟩
  else if name ∈ ["usec", "us", "µs"] then some ⟨0, 1000⟩
  else if name ∈ ["millis", "msec", "ms"] then some ⟨0, 1000000⟩
  else if name ∈ ["seconds", "second", "secs", "sec", "s"] then some ⟨1, 0⟩
  else if name ∈ ["minutes", "minute", "mins", "min", "m"] then some ⟨60, 0⟩
  else if name ∈ ["hours", "hour", "hrs", "hr", "h"] then some ⟨3600, 0⟩
  else if name ∈ ["days", "day", "d"] then some ⟨86400, 0⟩
  else if name ∈ ["weeks", "week", "wks", "wk", "w"] then some ⟨604800, 0⟩
  else if name ∈ ["months", "month", "M"] then some ⟨2630016, 0⟩
  else if name ∈ ["years", "year", "yrs", "yr", "y"] then some ⟨31557600, 0⟩
  else none

/-- Adds seconds and nanoseconds to a span. Its seconds and its nanoseconds have to fit. -/
def add? (s : Span) (sec nsec : Nat) : Option Span := do
  let nsec ← fits (s.subseconds + nsec)
  let sec ← fits (sec + nsec / 1000000000)
  let sec ← fits (s.seconds + sec)
  some (ofSeconds sec + nsec % 1000000000)

/-- The digits behind a point: the number they make, and ten to the power of how many there are. -/
structure Fraction where
  numerator : Nat
  denominator : Nat

/-- So many of a unit. -/
def Scale.times? (u : Scale) (n : Nat) : Option (Nat × Nat) := do
  some (← fits (n * u.seconds), ← fits (n * u.nanoseconds))

/-- What a fraction of a number comes to, if that is whole. -/
def Fraction.of? (f : Fraction) (n : Nat) : Option Nat := do
  let product ← fits (f.numerator * n)
  if product % f.denominator = 0 then some (product / f.denominator) else none

/-- A part of a unit. Parts of a unit up to a minute have to come to whole nanoseconds, parts of a longer one
to whole seconds, and a nanosecond has no parts, not even none. -/
def Scale.part? (u : Scale) (f : Fraction) : Option (Nat × Nat) := do
  if u.seconds = 0 ∧ u.nanoseconds ≤ 1 then none
  else if u.seconds ≤ 60 then some (0, ← f.of? (u.seconds * 1000000000 + u.nanoseconds))
  else some (← f.of? u.seconds, 0)

/-- Adds a number of a unit to a span. -/
def addItem? (s : Span) (n : Nat) (f : Option Fraction) (name : String) : Option Span := do
  let u ← scale? name
  let (sec, nsec) ← u.times? n
  let s ← s.add? sec nsec
  match f with
  | none => some s
  | some f =>
    let (sec, nsec) ← u.part? f
    s.add? sec nsec

/-- Whether a character may stand in the name of a unit. -/
def isUnitChar (c : Char) : Bool := c.isAlpha || c = 'µ'

/-- Where the reader of a span is. -/
inductive Place where
  | start
  /-- Within the whole part of a number. -/
  | whole (n : Nat)
  /-- Within its decimal part. -/
  | decimal (n : Nat) (f : Fraction)
  /-- Within the name of its unit, the letters so far, last first. -/
  | unit (n : Nat) (f : Option Fraction) (name : List Char)

/-- One more digit of a number. -/
def moreDigits? (n : Nat) (c : Char) : Option Nat := do
  let n ← fits (n * 10)
  fits (n + (c.toNat - '0'.toNat))

def readChar? (s : Span) (p : Place) (c : Char) : Option (Span × Place) :=
  let number := Place.whole (c.toNat - '0'.toNat)
  match p with
  | .start =>
    if c.isDigit then some (s, number) else if Text.isBlank c then some (s, .start) else none
  | .whole n =>
    if c.isDigit then (moreDigits? n c).map fun n => (s, .whole n)
    else if Text.isBlank c then some (s, p)
    else if isUnitChar c then some (s, .unit n none [c])
    else if c = '.' then some (s, .decimal n ⟨0, 1⟩)
    else none
  | .decimal n f =>
    if c.isDigit then do
      let numerator ← moreDigits? f.numerator c
      let denominator ← fits (f.denominator * 10)
      some (s, .decimal n ⟨numerator, denominator⟩)
    else if Text.isBlank c then some (s, p)
    else if isUnitChar c ∧ f.denominator ≠ 1 then some (s, .unit n (some f) [c])
    else none
  | .unit n f name =>
    if isUnitChar c then some (s, .unit n f (c :: name))
    else do
      let s ← s.addItem? n f (String.ofList name.reverse)
      if c.isDigit then some (s, number) else if Text.isBlank c then some (s, .start) else none

/-- Takes all characters. Something has to be there, and the last number has to have its unit. -/
def readChars? (s : Span) (any : Bool) (p : Place) : List Char → Option Span
  | [] =>
    match p with
    | .start => if any then some s else none
    | .unit n f name => s.addItem? n f (String.ofList name.reverse)
    | _ => none
  | c :: cs =>
    match readChar? s p c with
    | none => none
    | some (s, p) => readChars? s (any || c.isDigit) p cs

/-- The span that a text stands for. -/
def read? (s : String) : Option Span := if s = "0" then some 0 else readChars? 0 false .start s.toList

/-! ## Writing -/

/-- A number of a unit that has a name, in the singular or plural; nothing if there are none. -/
def named (name : String) (n : Nat) : List String :=
  if n = 0 then [] else [toString n ++ name ++ if n = 1 then "" else "s"]

/-- A number of a unit that has a sign; nothing if there are none. -/
def signed (sign : String) (n : Nat) : List String := if n = 0 then [] else [toString n ++ sign]

/-- A span as a sum of units, the longest first. -/
def text (s : Span) : String :=
  let inYear := s.seconds % 31557600
  let inMonth := inYear % 2630016
  let inDay := inMonth % 86400
  let parts :=
    named "year" (s.seconds / 31557600) ++ named "month" (inYear / 2630016) ++
    named "day" (inMonth / 86400) ++ signed "h" (inDay / 3600) ++ signed "m" (inDay % 3600 / 60) ++
    signed "s" (inDay % 60) ++ signed "ms" (s.subseconds / 1000000) ++
    signed "us" (s.subseconds / 1000 % 1000) ++ signed "ns" (s.subseconds % 1000)
  if parts.isEmpty then "0s" else " ".intercalate parts

/-- A number with so many decimal places, those that are zero at the end left out. -/
def decimal (n rest places : Nat) : String :=
  let digits := (Text.decimal places rest).toList.reverse.dropWhile (· == '0')
  toString n ++ if digits.isEmpty ∨ places = 0 then "" else "." ++ String.ofList digits.reverse

/-- A span in the longest unit, a second or less, that it has at least one of. -/
def brief (s : Span) : String :=
  if 0 < s.seconds then decimal s.seconds s.subseconds 9 ++ "s"
  else if 1000000 ≤ s.subseconds then decimal (s.subseconds / 1000000) (s.subseconds % 1000000) 6 ++ "ms"
  else if 1000 ≤ s.subseconds then decimal (s.subseconds / 1000) (s.subseconds % 1000) 3 ++ "µs"
  else decimal s.subseconds 0 0 ++ "ns"

end MiningPool.Span
