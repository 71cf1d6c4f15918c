import WireSchema.Decimal.Shortest

/-!
# How a number is written

The digits of a double come from `Binary64.shortest`; what remains is where the
point goes.  A document and the schema language place it differently, and the
difference is one record: which leading exponents are written positionally,
whether a whole number keeps a point and a zero, and where a tie between two
shortest decimals goes.
-/

namespace WireSchema
namespace Decimal

/-- The decisions of a number format. -/
structure Layout where
  /-- The least leading exponent that is written positionally; none if there is
  no least. -/
  least : Option Int
  /-- The greatest leading exponent that is written positionally; none if there
  is no greatest. -/
  greatest : Option Int
  /-- Whether a whole number written positionally ends in a point and a zero. -/
  keepsPoint : Bool
  /-- Where a tie goes. -/
  tie : Tie

/-- Documents write a leading exponent from -5 to 15 positionally, keep the
point, and take the even digit at a tie. -/
def document : Layout := ⟨some (-5), some 15, true, .toEven⟩

/-- The schema language never writes an exponent, drops an empty fraction, and
goes up at a tie. -/
def plain : Layout := ⟨none, none, false, .up⟩

/-- Whether a leading exponent is written positionally. -/
def Layout.isPositional (l : Layout) (leading : Int) : Bool :=
  (match l.least with
    | some k => decide (k ≤ leading)
    | none => true) &&
  (match l.greatest with
    | some k => decide (leading ≤ k)
    | none => true)

/-- The decimal digits of a natural number. -/
def digitsText (n : Nat) : List Char :=
  Nat.toDigits 10 n

/-- A whole number with its sign. -/
def intText (i : Int) : List Char :=
  if i < 0 then '-' :: digitsText i.natAbs else digitsText i.natAbs

/-- Digits with the point placed by the exponent, and zeros where the digits do
not reach. -/
def positional (keepsPoint : Bool) (digits : List Char) (exponent : Int) : List Char :=
  if 0 ≤ exponent then
    digits ++ List.replicate exponent.toNat '0' ++ (if keepsPoint then ['.', '0'] else [])
  else
    let places := (-exponent).toNat
    if digits.length ≤ places then
      '0' :: '.' :: (List.replicate (places - digits.length) '0' ++ digits)
    else
      digits.take (digits.length - places) ++ '.' :: digits.drop (digits.length - places)

/-- One digit, the others behind a point, and the leading exponent with its
sign. -/
def scientific (digits : List Char) (leading : Int) : List Char :=
  let mantissa :=
    match digits with
    | d :: e :: rest => d :: '.' :: e :: rest
    | short => short
  mantissa ++ 'e' :: (if leading < 0 then '-' else '+') :: digitsText leading.natAbs

/-- A decimal in a number format. -/
def text (l : Layout) (d : Decimal) : List Char :=
  let digits := digitsText d.digits
  let leading := d.exponent + digits.length - 1
  if l.isPositional leading then positional l.keepsPoint digits d.exponent
  else scientific digits leading

end Decimal

namespace Binary64

/-- A finite double in a number format, its sign in front.  The negative zero
keeps its sign. -/
def text (l : Decimal.Layout) (x : Binary64) : List Char :=
  let magnitude := (x.shortest l.tie).text l
  if x.isNegative then '-' :: magnitude else magnitude

end Binary64
end WireSchema
