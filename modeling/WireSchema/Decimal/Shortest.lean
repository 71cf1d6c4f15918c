import WireSchema.Decimal.Binary64

/-!
# The fewest decimal digits that read back

A double is written with as few digits as single it out: the decimal has to lie
among the numbers that round to the double, and of the decimals with the fewest
digits the nearest one is taken.

## How the digits are found

The numbers that round to `m * 2 ^ q` reach half a unit up and half a unit down,
a quarter only below a power of two, and include their ends exactly if `m` is
even.  For one digit, two digits, and so on up to seventeen, the two neighbours
of the value on that decimal grid are tested against this interval in exact
arithmetic; the first grid with a hit wins, and of two hits the nearer.  Where the
value lies exactly between two hits the number format decides: to the even digit,
or up.  Seventeen digits always suffice.  Behind them stands the exact expansion of the value, so
that what is returned lies in the interval by construction.
-/

namespace WireSchema

/-- The decimal `digits * 10 ^ exponent`. -/
structure Decimal where
  digits : Nat
  exponent : Int
  deriving DecidableEq

/-- Which of two equally near decimals is written. -/
inductive Tie where
  | toEven
  | up
  deriving DecidableEq

namespace Decimal

/-- How many decimal digits a positive number has. -/
def digitCount (n : Nat) : Nat :=
  (Nat.toDigits 10 n).length

/-- The same decimal without zeros at its end, dropping at most `limit` of
them. -/
def stripZeros : Nat → Decimal → Decimal
  | 0, d => d
  | limit + 1, d =>
    if d.digits ≠ 0 ∧ d.digits % 10 = 0 then
      stripZeros limit ⟨d.digits / 10, d.exponent + 1⟩
    else d

/-- The exponent of the leading digit of `num / den`, which is positive. -/
def leadingExponent (num den : Nat) : Int :=
  let guess : Int := (digitCount num : Int) - digitCount den
  if den * Nat.pow 10 guess.toNat ≤ num * Nat.pow 10 (-guess).toNat then guess else guess - 1

end Decimal

namespace Binary64

/-- The numbers that round to the magnitude `m * 2 ^ q`, in quarter units: from
`low * 2 ^ (q - 2)` to `high * 2 ^ (q - 2)`. -/
structure Neighbourhood where
  low : Nat
  value : Nat
  high : Nat
  /-- The power of two of a quarter unit. -/
  exponent : Int
  /-- Whether the ends round to the magnitude as well. -/
  closed : Bool

/-- The interval of a finite double other than zero. -/
def neighbourhood (x : Binary64) : Neighbourhood :=
  let m := x.significand
  { low := if m = leadingPlace ∧ 1 < x.exponentField then 4 * m - 1 else 4 * m - 2
    value := 4 * m
    high := 4 * m + 2
    exponent := x.exponent - 2
    closed := m % 2 == 0 }

namespace Neighbourhood

/-- Whether `c * 10 ^ k` lies in the interval. -/
def contains (I : Neighbourhood) (c : Nat) (k : Int) : Bool :=
  let point := c * Nat.pow 10 k.toNat * Nat.pow 2 (-I.exponent).toNat
  let unit := Nat.pow 2 I.exponent.toNat * Nat.pow 10 (-k).toNat
  if I.closed then I.low * unit ≤ point && point ≤ I.high * unit
  else I.low * unit < point && point < I.high * unit

/-- Whether a value goes to the lower of its two neighbours `below` and
`below + 1`, from twice its distance to the lower one and the distance between
them. -/
def goesDown (tie : Tie) (below twice whole : Nat) : Bool :=
  if twice = whole then
    match tie with
    | .toEven => below % 2 == 0
    | .up => false
  else twice < whole

/-- The multiple of `10 ^ k` that lies in the interval and is nearest to its
value, if the value has such a neighbour. -/
def nearestOnGrid? (I : Neighbourhood) (tie : Tie) (k : Int) : Option Decimal :=
  let num := I.value * Nat.pow 2 I.exponent.toNat * Nat.pow 10 (-k).toNat
  let den := Nat.pow 2 (-I.exponent).toNat * Nat.pow 10 k.toNat
  let below := num / den
  match I.contains below k, I.contains (below + 1) k with
  | true, true => some ⟨if goesDown tie below (2 * (num % den)) den then below else below + 1, k⟩
  | true, false => some ⟨below, k⟩
  | false, true => some ⟨below + 1, k⟩
  | false, false => none

/-- The first hit on the grids of `count` digits and more, `limit` grids in all.
`top` is the exponent of the leading digit. -/
def firstOnGrids (I : Neighbourhood) (tie : Tie) (top : Int) : Nat → Nat → Option Decimal
  | 0, _ => none
  | limit + 1, count =>
    match I.nearestOnGrid? tie (top - count + 1) with
    | some d => some d
    | none => firstOnGrids I tie top limit (count + 1)

/-- The value itself as a decimal: a negative power of two is a power of five
moved behind the point. -/
def exact (I : Neighbourhood) : Decimal :=
  ⟨I.value * Nat.pow 2 I.exponent.toNat * Nat.pow 5 (-I.exponent).toNat, min I.exponent 0⟩

end Neighbourhood

/-- The decimal with the fewest digits among those that round to the magnitude
of a finite double, and the nearest of them.  Zero is `0 * 10 ^ 0`. -/
def shortest (tie : Tie) (x : Binary64) : Decimal :=
  if x.significand = 0 then ⟨0, 0⟩
  else
    let I := x.neighbourhood
    let top := Decimal.leadingExponent x.numerator x.denominator
    let found := (I.firstOnGrids tie top 17 1).getD I.exact
    found.stripZeros (Decimal.digitCount found.digits)

end Binary64
end WireSchema
