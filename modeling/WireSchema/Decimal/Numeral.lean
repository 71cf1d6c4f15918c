import WireSchema.Decimal.Notation

/-!
# Numbers read from plain decimals

A plain decimal is an optional sign, digits with at most one point among them, and
an optional power of ten.  Unlike the numbers of a document it stands for the
double nearest to it, so it is read as an exact ratio and rounded once.  A power of
ten may be written that is far beyond every double; the number of digits in front
of the point bounds the value from both sides, and no such power is ever computed.

Whole numbers are read as they are, as long as they fit in sixty-four bits.
-/

namespace WireSchema

namespace Binary64

/-- The infinity of a sign. -/
def infinity (negative : Bool) : Binary64 :=
  ⟨if negative then 0xfff0000000000000 else 0x7ff0000000000000⟩

/-- A value that is no number. -/
def nan : Binary64 := ⟨0x7ff8000000000000⟩

/-- Whether a value is no number. -/
def isNaN (x : Binary64) : Bool :=
  !x.isFinite && x.fraction != 0

/-- The double nearest to `n * 10 ^ exponent`.  A number below the 400th power of ten
with all its digits is infinite, one below the negative power is zero. -/
def ofDecimal (n : Nat) (exponent : Int) : Binary64 :=
  let leading : Int := (Decimal.digitsText n).length + exponent
  if n = 0 ∨ leading < -400 then ⟨0⟩
  else if 400 < leading then infinity false
  else ofRatio (n * Nat.pow 10 exponent.toNat) (Nat.pow 10 (-exponent).toNat)

/-- The natural number nearest to a double, a half away from zero, and kept within
`bound`.  What is below zero or no number at all is zero. -/
def toNatWithin (bound : Nat) (x : Binary64) : Nat :=
  if x.isNaN || x.isNegative then 0
  else if x.isFinite then min ((2 * x.numerator + x.denominator) / (2 * x.denominator)) bound
  else bound

end Binary64

namespace Numeral

/-- The least whole number of sixty-four bits with a sign. -/
def minInt64 : Int := -0x8000000000000000

/-- The greatest whole number of sixty-four bits with a sign. -/
def maxInt64 : Int := 0x7fffffffffffffff

/-- The greatest whole number of sixty-four bits without a sign. -/
def maxNat64 : Nat := 0xffffffffffffffff

/-- The sign in front, if there is one, and what is behind it. -/
def sign : List Char → Bool × List Char
  | '-' :: cs => (true, cs)
  | '+' :: cs => (false, cs)
  | cs => (false, cs)

/-- The value of a digit, in either case. -/
def digit? (c : Char) : Option Nat :=
  if '0' ≤ c ∧ c ≤ '9' then some (c.toNat - 48)
  else if 'a' ≤ c ∧ c ≤ 'z' then some (c.toNat - 87)
  else if 'A' ≤ c ∧ c ≤ 'Z' then some (c.toNat - 55)
  else none

/-- The value of digits in a base, of which there must be one at least. -/
def natural? (base : Nat) : List Char → Option Nat
  | [] => none
  | cs => cs.foldlM (fun n c => (digit? c).bind fun d =>
      if d < base then some (n * base + d) else none) 0

/-- A whole number with its sign, if it fits in sixty-four bits. -/
def whole? (negative : Bool) (n : Nat) : Option Int :=
  let i : Int := if negative then -(n : Int) else n
  if minInt64 ≤ i ∧ i ≤ maxInt64 then some i else none

/-- A whole number of sixty-four bits in a base, with or without a sign in front. -/
def int64In? (base : Nat) (cs : List Char) : Option Int :=
  let (negative, digits) := sign cs
  (natural? base digits).bind (whole? negative)

/-- A whole number of sixty-four bits. -/
def int64? (cs : List Char) : Option Int :=
  int64In? 10 cs

/-- A natural number of sixty-four bits; a plus may stand in front. -/
def nat64? (cs : List Char) : Option Nat :=
  let digits :=
    match cs with
    | '+' :: digits => digits
    | digits => digits
  (natural? 10 digits).filter (· ≤ maxNat64)

/-- What is behind the digits of a decimal: nothing, or a power of ten. -/
def exponent? : List Char → Option Int
  | [] => some 0
  | c :: cs =>
    if c = 'e' ∨ c = 'E' then
      let (negative, digits) := sign cs
      (natural? 10 digits).map fun n => if negative then -(n : Int) else n
    else none

/-- A decimal without its sign: digits on at least one side of the point. -/
def magnitude? (cs : List Char) : Option Binary64 :=
  let whole := cs.takeWhile Char.isDigit
  let rest := cs.dropWhile Char.isDigit
  let (places, rest) :=
    match rest with
    | '.' :: rest => (rest.takeWhile Char.isDigit, rest.dropWhile Char.isDigit)
    | rest => ([], rest)
  do
    let n ← natural? 10 (whole ++ places)
    let exponent ← exponent? rest
    return .ofDecimal n (exponent - places.length)

/-- The words for values that are no finite number, in small letters. -/
def unbounded? (word : List Char) : Option Binary64 :=
  match String.ofList word with
  | "inf" => some (.infinity false)
  | "infinity" => some (.infinity false)
  | "nan" => some .nan
  | _ => none

/-- A decimal, or one of the words for what is no finite number, in any case. -/
def double? (cs : List Char) : Option Binary64 :=
  let (negative, cs) := sign cs
  let found := (unbounded? (cs.map Char.toLower)).orElse fun _ => magnitude? cs
  found.map fun x => if negative then x.neg else x

end Numeral
end WireSchema
