import MiningPool.Decimal.Power

/-!
# Doubles as integers

A finite double is `± m · 2 ^ e` for naturals `m < 2 ^ 53` and `-1074 ≤ e ≤ 971`, so rounding is integer
arithmetic: `ofRatio` divides and rounds half to even, and every other operation is one exact quotient
handed to it. Each double has one form, with `m` at least `2 ^ 52` unless `e` is least.
-/

namespace MiningPool.Decimal

inductive Binary64 where
  /-- `± m · 2 ^ e`; zero is `m = 0` at the least exponent. -/
  | finite (negative : Bool) (m : Nat) (e : Int)
  | infinite (negative : Bool)
  | nan
  deriving DecidableEq, Repr

namespace Binary64

/-- The least exponent, that of the subnormal doubles. -/
def leastExponent : Int := -1074

def zero (negative : Bool) : Binary64 := .finite negative 0 leastExponent

instance : Inhabited Binary64 := ⟨zero false⟩

/-- The whole part of `a / (b · 2 ^ e)`, what is left over, and the divisor it was left from. -/
def divideScaled (a b : Nat) (e : Int) : Nat × Nat × Nat :=
  let num := a * twoTo (-e).toNat
  let den := b * twoTo e.toNat
  (num / den, num % den, den)

/-- A quotient rounded to the nearest whole number, a tie going to the even one. -/
def roundHalfEven (q rest den : Nat) : Nat :=
  if 2 * rest > den ∨ (2 * rest = den ∧ q % 2 = 1) then q + 1 else q

/-- The exponent at which `a / b` has 53 bits, or the least one. -/
def exponentFor (a b : Nat) : Int :=
  let e := max ((a.log2 : Int) - b.log2 - 53) leastExponent
  if (divideScaled a b e).1 < twoTo 53 then e else e + 1

/-- The double nearest to `± a / b`, for `b` positive. -/
def ofRatio (negative : Bool) (a b : Nat) : Binary64 :=
  if a = 0 then zero negative
  else
    let e := exponentFor a b
    let (q, rest, den) := divideScaled a b e
    let m := roundHalfEven q rest den
    let (m, e) := if m = twoTo 53 then (twoTo 52, e + 1) else (m, e)
    if e > 971 then .infinite negative else .finite negative m e

/-- The double nearest to a natural number. -/
def ofNat (n : Nat) : Binary64 := ofRatio false n 1

/-- The double nearest to `± digits · 10 ^ exponent`. Far outside the range of doubles the answer is
known from the number of digits alone. -/
def ofDecimal (negative : Bool) (digits : Nat) (exponent : Int) : Binary64 :=
  if digits = 0 then zero negative
  else
    let size := exponent + (Nat.toDigits 10 digits).length
    if size > 400 then .infinite negative
    else if size < -400 then zero negative
    else ofRatio negative (digits * tenTo exponent.toNat) (tenTo (-exponent).toNat)

/-- The same double with its sign turned round. -/
def neg : Binary64 → Binary64
  | .finite s m e => .finite (!s) m e
  | .infinite s => .infinite (!s)
  | .nan => .nan

/-- The rounded product. -/
def mul : Binary64 → Binary64 → Binary64
  | .finite s m e, .finite s' m' e' =>
    ofRatio (s != s') (m * m' * twoTo (e + e').toNat) (twoTo (-(e + e')).toNat)
  | .nan, _ | _, .nan => .nan
  | .infinite s, .infinite s' => .infinite (s != s')
  | .infinite s, .finite s' m _ | .finite s' m _, .infinite s =>
    if m = 0 then .nan else .infinite (s != s')

/-- The rounded quotient. -/
def div : Binary64 → Binary64 → Binary64
  | .finite s m e, .finite s' m' e' =>
    if m' = 0 then if m = 0 then .nan else .infinite (s != s')
    else ofRatio (s != s') (m * twoTo (e - e').toNat) (m' * twoTo (e' - e).toNat)
  | .nan, _ | _, .nan => .nan
  | .infinite _, .infinite _ => .nan
  | .infinite s, .finite s' _ _ => .infinite (s != s')
  | .finite s _ _, .infinite s' => zero (s != s')

/-- A finite double as a whole number of the smallest steps, `2 ^ -1074` each. -/
def steps (negative : Bool) (m : Nat) (e : Int) : Int :=
  let n : Int := m * twoTo (e - leastExponent).toNat
  if negative then -n else n

/-- Whether one double is at most another. A double that is no number is comparable to none. -/
def le : Binary64 → Binary64 → Bool
  | .nan, _ | _, .nan => false
  | .infinite s, .infinite s' => s || !s'
  | .infinite s, .finite .. => s
  | .finite .., .infinite s => !s
  | .finite s m e, .finite s' m' e' => steps s m e ≤ steps s' m' e'

def isPositive : Binary64 → Bool
  | .finite s m _ => !s && m != 0
  | .infinite s => !s
  | .nan => false

def isInfinite : Binary64 → Bool
  | .infinite _ => true
  | _ => false

end Binary64
end MiningPool.Decimal
