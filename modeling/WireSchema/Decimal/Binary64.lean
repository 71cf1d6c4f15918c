/-!
# Double-precision numbers as bit patterns

An implicit value may be a number that is no integer, and such a number is kept
as a double: two declarations are the same only if these patterns agree, and the
pattern is what the shortest decimal text is computed from.  The built-in
floating-point operations cannot be reasoned about, so the few that reading a
number needs are defined here on exact ratios of naturals: a double is the ratio
it stands for, an operation is the exact result rounded once.

## Rounding

A ratio is rounded to the nearest double, a tie to the even significand.  The
exponent is chosen first, from the binary lengths of numerator and denominator:
it puts the quotient between `2 ^ 52` and `2 ^ 53`, or it is the smallest
exponent there is.  After that the significand is one division.
-/

namespace WireSchema

/-- A double, as its sixty-four bits: sign, eleven bits of exponent, fifty-two
bits of significand. -/
structure Binary64 where
  bits : UInt64
  deriving DecidableEq

namespace Binary64

/-- The place of the sign bit. -/
def signPlace : Nat := 0x8000000000000000

/-- The place of the leading bit of a significand, which is also the lowest place
of the exponent field. -/
def leadingPlace : Nat := 0x10000000000000

/-- The sign bit.  It is set for negative numbers and for the negative zero. -/
def isNegative (x : Binary64) : Bool :=
  x.bits.toNat / signPlace == 1

/-- The exponent field, from 0 to 2047. -/
def exponentField (x : Binary64) : Nat :=
  x.bits.toNat / leadingPlace % 2048

/-- The fifty-two stored bits of the significand. -/
def fraction (x : Binary64) : Nat :=
  x.bits.toNat % leadingPlace

/-- The integer significand of a finite double: a stored one bit less below the
smallest normal exponent, an implied leading bit above it. -/
def significand (x : Binary64) : Nat :=
  if x.exponentField = 0 then x.fraction else x.fraction + leadingPlace

/-- The power of two that the significand is multiplied by. -/
def exponent (x : Binary64) : Int :=
  if x.exponentField = 0 then -1074 else (x.exponentField : Int) - 1075

/-- Infinities and the values that are no numbers have the largest exponent
field. -/
def isFinite (x : Binary64) : Bool :=
  x.exponentField != 2047

/-- Both zeros. -/
def isZero (x : Binary64) : Bool :=
  x.bits.toNat % signPlace == 0

/-- Numeric equality.  It relates the two zeros, and no value that is no number
to anything. -/
def numEq (x y : Binary64) : Bool :=
  (x.bits == y.bits && (x.isFinite || x.fraction == 0)) || (x.isZero && y.isZero)

/-- The number with the opposite sign. -/
def neg (x : Binary64) : Binary64 :=
  ⟨x.bits ^^^ 0x8000000000000000⟩

/-- The numerator of the magnitude of a finite double. -/
def numerator (x : Binary64) : Nat :=
  x.significand * Nat.pow 2 x.exponent.toNat

/-- The denominator of the magnitude of a finite double. -/
def denominator (x : Binary64) : Nat :=
  Nat.pow 2 (-x.exponent).toNat

/-- The exponent at which `num / den` has a significand of fifty-three bits, or
the smallest exponent if that is larger. -/
def scaleOf (num den : Nat) : Int :=
  let guess : Int := (num.log2 : Int) - den.log2 - 53
  let lowered := num * Nat.pow 2 (-(guess + 1)).toNat
  let fits := lowered < den * Nat.pow 2 (guess + 1).toNat * leadingPlace
  max (if fits then guess else guess + 1) (-1074)

/-- The quotient rounded to the nearest natural number, a half to the even
one. -/
def divRoundEven (num den : Nat) : Nat :=
  let q := num / den
  let r := num % den
  if 2 * r < den then q
  else if den < 2 * r then q + 1
  else if q % 2 = 0 then q else q + 1

/-- The double nearest to `num / den`; infinity if that lies beyond the largest
one. -/
def ofRatio (num den : Nat) : Binary64 :=
  if num = 0 then ⟨0⟩
  else
    let q := scaleOf num den
    let m := divRoundEven (num * Nat.pow 2 (-q).toNat) (den * Nat.pow 2 q.toNat)
    let field := (q + 1074).toNat
    -- A significand of fifty-three bits carries its leading bit into the field.
    ⟨UInt64.ofNat (min (field * leadingPlace + m) (2047 * leadingPlace))⟩

/-- The double nearest to a natural number. -/
def ofNat (n : Nat) : Binary64 :=
  ofRatio n 1

/-- The product of two magnitudes, rounded. -/
def mulMagnitude (x y : Binary64) : Binary64 :=
  ofRatio (x.numerator * y.numerator) (x.denominator * y.denominator)

/-- The quotient of two magnitudes, rounded.  The divisor is not zero. -/
def divMagnitude (x y : Binary64) : Binary64 :=
  ofRatio (x.numerator * y.denominator) (x.denominator * y.numerator)

/-- The double nearest to a power of ten. -/
def pow10 (k : Nat) : Binary64 :=
  ofNat (Nat.pow 10 k)

end Binary64
end WireSchema
