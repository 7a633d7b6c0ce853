import MiningPool.Decimal.Binary64

/-!
# The fewest digits that read back

A finite double owns an interval of reals, those that round to it. Of all decimals in that interval
`shortest` takes one with the fewest digits, and among those the one nearest to the double.

`digits n` looks at the grid of decimals with `n` digits: if any point of the grid lies in the interval,
then so does one of the two neighbours of the double on that grid. Seventeen digits always suffice.
-/

namespace MiningPool.Decimal

/-- A decimal `digits · 10 ^ exponent`. -/
structure Numeral where
  digits : Nat
  exponent : Int
  deriving DecidableEq, Repr

def digitCount (n : Nat) : Nat := (Nat.toDigits 10 n).length

/-- The interval of reals that round to `m · 2 ^ e`, in quarters of `2 ^ e`. Below a power of two the
doubles lie twice as close. The ends belong to it exactly if `m` is even. -/
structure Interval where
  low : Nat
  value : Nat
  high : Nat
  closed : Bool

/-- The interval of a positive finite double. -/
def Interval.of (m : Nat) (e : Int) : Interval :=
  { low := if m = twoTo 52 ∧ e ≠ Binary64.leastExponent then 4 * m - 1 else 4 * m - 2
    value := 4 * m
    high := 4 * m + 2
    closed := m % 2 == 0 }

/-- `a / b ≤ x`, or `<` when the end is open. -/
def within (closed : Bool) (a b : Nat) : Bool := if closed then a ≤ b else a < b

/-- The least `p` with `num / den < 10 ^ p`. -/
def magnitude (num den : Nat) : Int :=
  if num ≥ den then digitCount (num / den)
  else
    let c := (den + num - 1) / num
    1 - (digitCount (c - 1) : Int)

/-- The best decimal with step `10 ^ k` in the interval scaled by `num / den` per quarter, if any. -/
def onGrid? (i : Interval) (num den : Nat) (k : Int) : Option Numeral :=
  let num := num * tenTo (-k).toNat
  let den := den * tenTo k.toNat
  let down := i.value * num / den
  let fits (d : Nat) : Bool :=
    within i.closed (i.low * num) (d * den) && within i.closed (d * den) (i.high * num)
  let up := down + 1
  let below := i.value * num - down * den
  let above := up * den - i.value * num
  match fits down, fits up with
  | true, true =>
    if below < above ∨ (below = above ∧ down % 2 = 0) then some ⟨down, k⟩ else some ⟨up, k⟩
  | true, false => some ⟨down, k⟩
  | false, true => some ⟨up, k⟩
  | false, false => none

/-- Without the zeros at its end. -/
def Numeral.trim : Nat → Numeral → Numeral
  | 0, d => d
  | fuel + 1, d => if d.digits ≠ 0 ∧ d.digits % 10 = 0 then trim fuel ⟨d.digits / 10, d.exponent + 1⟩ else d

/-- The shortest decimal that rounds to `m · 2 ^ e`. -/
def shortest (m : Nat) (e : Int) : Numeral :=
  if m = 0 then ⟨0, 0⟩
  else
    let i := Interval.of m e
    let num := twoTo (e - 2).toNat
    let den := twoTo (2 - e).toNat
    let p := magnitude (i.value * num) den
    match (List.range 17).findSome? fun (n : Nat) => onGrid? i num den (p - (n + 1)) with
    | some d => d.trim 20
    | none => ⟨m, 0⟩

/-- Where a decimal is written with its point in place. Outside this range of exponents it is written
as one digit, the others after a point, and a signed exponent. -/
structure Layout where
  leastPlain : Int
  mostPlain : Int

/-- The text of `digits · 10 ^ exponent` in a layout. A point or an exponent is always there. -/
def Layout.text (l : Layout) (d : Numeral) : List Char :=
  let ds := Nat.toDigits 10 d.digits
  let lead := d.exponent + ds.length - 1
  if l.leastPlain ≤ lead ∧ lead ≤ l.mostPlain then
    if lead < 0 then
      ['0', '.'] ++ List.replicate (-lead - 1).toNat '0' ++ ds
    else
      let whole := ds.take (lead.toNat + 1)
      let rest := ds.drop (lead.toNat + 1)
      whole ++ List.replicate (lead.toNat + 1 - whole.length) '0' ++ '.' :: (if rest.isEmpty then ['0'] else rest)
  else
    let point := match ds.drop 1 with
      | [] => []
      | rest => '.' :: rest
    let power := (if lead < 0 then '-' else '+') :: Nat.toDigits 10 lead.natAbs
    ds.take 1 ++ point ++ 'e' :: power

end MiningPool.Decimal
