import WireSchema.Json.Fault

/-!
# Words, texts and numbers of a document

The lowest level of reading: each function here takes the characters that are
left, and returns what it read with the characters after it, or the cause why it
could not.

## Numbers

A whole number is taken exactly as long as it fits in sixty-four bits.  Any other
number becomes a double, and not the nearest one: the digits are collected in a
significand of sixty-four bits, what does not fit only moves the exponent, and
the significand is then multiplied or divided by a rounded power of ten.  The
result may be off by a unit in the last place, and the documents that declare
such values mean exactly this double.

## Skipped values

The value of a key that nobody asked for is passed over, not read.  Passing over
has a looser grammar: it knows no limit of nesting, takes numbers of any size,
and does not pair surrogates.
-/

namespace WireSchema
namespace Json

/-- Reading one item from the characters that are left. -/
abbrev Scan (α : Type) := List Char → Except Cause (α × List Char)

/-- The four blanks of JSON. -/
def isBlank (c : Char) : Bool :=
  c = ' ' || c = '\n' || c = '\t' || c = '\r'

/-- The characters from the first that is no blank. -/
def skipBlanks (cs : List Char) : List Char :=
  cs.dropWhile isBlank

/-- The rest of `null`, `true` or `false` after its first letter. -/
def expectWord : (rest : List Char) → List Char → Except Cause (List Char)
  | [], cs => .ok cs
  | _ :: _, [] => .error (.unfinished .value)
  | w :: ws, c :: cs => if c = w then expectWord ws cs else .error .expectedWord

/-! ## Texts -/

/-- The value of a hexadecimal digit, in either case. -/
def hexValue? (c : Char) : Option Nat :=
  if '0' ≤ c ∧ c ≤ '9' then some (c.toNat - 48)
  else if 'a' ≤ c ∧ c ≤ 'f' then some (c.toNat - 87)
  else if 'A' ≤ c ∧ c ≤ 'F' then some (c.toNat - 55)
  else none

/-- The value of four hexadecimal digits. -/
def hexQuad? (a b c d : Char) : Option Nat := do
  let w ← hexValue? a
  let x ← hexValue? b
  let y ← hexValue? c
  let z ← hexValue? d
  return ((w * 16 + x) * 16 + y) * 16 + z

/-- How many bytes characters take. -/
def utf8Length : List Char → Nat
  | [] => 0
  | c :: cs => c.utf8Size + utf8Length cs

/-- Why four hexadecimal digits could not be read where fewer than four
characters are left.  Four bytes are looked at, so a longer character can still
be a wrong digit rather than a missing one. -/
def shortEscape (cs : List Char) : Cause :=
  if utf8Length cs < 4 then .unfinished .text else .invalidEscape

/-- The character that a one-letter escape stands for. -/
def simpleEscape? : Char → Option Char
  | '"' => some '"'
  | '\\' => some '\\'
  | '/' => some '/'
  | 'b' => some '\x08'
  | 'f' => some '\x0c'
  | 'n' => some '\n'
  | 'r' => some '\r'
  | 't' => some '\t'
  | _ => none

/-- Surrogates that come first in a pair. -/
def isLeadingSurrogate (n : Nat) : Bool :=
  0xd800 ≤ n && n ≤ 0xdbff

/-- Surrogates that come second in a pair. -/
def isTrailingSurrogate (n : Nat) : Bool :=
  0xdc00 ≤ n && n ≤ 0xdfff

/-- The character that a pair of surrogates stands for. -/
def pairedSurrogates (lead trail : Nat) : Char :=
  Char.ofNat ((lead - 0xd800) * 0x400 + (trail - 0xdc00) + 0x10000)

/-- Why no escaped trailing surrogate follows a leading one. -/
def unpairedCause : List Char → Cause
  | [] => .unfinished .text
  | ['\\'] => .unfinished .text
  | '\\' :: 'u' :: rest => shortEscape rest
  | _ => .unpairedLeadingSurrogate

/-- One more character in front of what is read. -/
def consChar (c : Char) :
    Except Cause (List Char × List Char) → Except Cause (List Char × List Char)
  | .ok (body, rest) => .ok (c :: body, rest)
  | .error cause => .error cause

/-- The body of a text, from behind its opening quote to behind its closing
one. -/
def textBody : Scan (List Char)
  | [] => .error (.unfinished .text)
  | '"' :: rest => .ok ([], rest)
  | '\\' :: 'u' :: a :: b :: c :: d :: rest =>
    match hexQuad? a b c d with
    | none => .error .invalidEscape
    | some n =>
      if isTrailingSurrogate n then .error .unpairedTrailingSurrogate
      else if isLeadingSurrogate n then
        match rest with
        | '\\' :: 'u' :: a' :: b' :: c' :: d' :: rest' =>
          match hexQuad? a' b' c' d' with
          | none => .error .invalidEscape
          | some m =>
            if isTrailingSurrogate m then consChar (pairedSurrogates n m) (textBody rest')
            else .error .unpairedTrailingSurrogate
        | rest' => .error (unpairedCause rest')
      else consChar (Char.ofNat n) (textBody rest)
  | '\\' :: 'u' :: rest => .error (shortEscape rest)
  | '\\' :: c :: rest =>
    match simpleEscape? c with
    | some e => consChar e (textBody rest)
    | none => .error .invalidEscape
  | ['\\'] => .error (.unfinished .text)
  | c :: rest =>
    if c.toNat < 0x20 then .error .controlCharacter else consChar c (textBody rest)

/-- A text whose opening quote has been read. -/
def scanText : Scan String := fun cs => do
  let (body, rest) ← textBody cs
  return (String.ofList body, rest)

/-- The characters behind a text that is passed over. -/
def skipText : List Char → Except Cause (List Char)
  | [] => .error (.unfinished .text)
  | '"' :: rest => .ok rest
  | '\\' :: 'u' :: a :: b :: c :: d :: rest =>
    match hexQuad? a b c d with
    | none => .error .invalidEscape
    | some _ => skipText rest
  | '\\' :: 'u' :: rest => .error (shortEscape rest)
  | '\\' :: c :: rest =>
    match simpleEscape? c with
    | some _ => skipText rest
    | none => .error .invalidEscape
  | ['\\'] => .error (.unfinished .text)
  | c :: rest => if c.toNat < 0x20 then .error .controlCharacter else skipText rest

/-! ## Numbers -/

/-- The decimal digits in front. -/
def digitsOf (cs : List Char) : List Char :=
  cs.takeWhile Char.isDigit

/-- The characters behind the decimal digits in front. -/
def afterDigits (cs : List Char) : List Char :=
  cs.dropWhile Char.isDigit

/-- The value of a decimal digit. -/
def digitValue (c : Char) : Nat :=
  c.toNat - 48

/-- The value of a row of decimal digits. -/
def digitsValue (ds : List Char) : Nat :=
  ds.foldl (fun n d => n * 10 + digitValue d) 0

/-- Digits appended to a significand for as long as it fits in sixty-four bits, and
the digits that are left over. -/
def collect (significand : Nat) : List Char → Nat × List Char
  | [] => (significand, [])
  | d :: ds =>
    if significand * 10 + digitValue d ≤ Numeral.maxNat64 then
      collect (significand * 10 + digitValue d) ds
    else (significand, d :: ds)

/-- A double divided by the `k`-th power of ten, in steps of at most 308; a
significand of sixty-four bits has vanished before the steps run out. -/
def descend : (steps : Nat) → Binary64 → (k : Nat) → Binary64
  | 0, _, _ => ⟨0⟩
  | steps + 1, x, k =>
    if k ≤ 308 then x.divMagnitude (.pow10 k)
    else if x.isZero then x
    else descend steps (x.divMagnitude (.pow10 308)) (k - 308)

/-- The double of a significand and a power of ten. -/
def scaled (negative : Bool) (significand : Nat) (exponent : Int) : Except Cause Json := do
  let x := Binary64.ofNat significand
  let magnitude ←
    if exponent < 0 then pure (descend 4 x exponent.natAbs)
    else if 308 < exponent then
      if x.isZero then pure x else throw .numberOutOfRange
    else
      let y := x.mulMagnitude (.pow10 exponent.toNat)
      if y.isFinite then pure y else throw .numberOutOfRange
  return .float (if negative then magnitude.neg else magnitude)

/-- The largest exponent that is taken at its value. -/
def maxExponent : Nat := 0x7fffffff

/-- An exponent, from behind its letter, and with it the whole number. -/
def exponentPart (negative : Bool) (significand : Nat) (start : Int) : Scan Json := fun cs => do
  let (down, cs) :=
    match cs with
    | '+' :: rest => (false, rest)
    | '-' :: rest => (true, rest)
    | rest => (false, rest)
  match digitsOf cs with
  | [] => throw (if cs.isEmpty then .unfinished .value else .invalidNumber)
  | ds =>
    let rest := afterDigits cs
    let e := digitsValue ds
    if maxExponent < e then
      if significand ≠ 0 ∧ down = false then throw .numberOutOfRange
      else return (.float (if negative then Binary64.neg ⟨0⟩ else ⟨0⟩), rest)
    else
      let exponent : Int :=
        if down then max (start - e) (-0x80000000) else min (start + e) 0x7fffffff
      return (← scaled negative significand exponent, rest)

/-- The end of a number: an exponent, or nothing more. -/
def numberEnd (negative : Bool) (significand : Nat) (exponent : Int) : Scan Json
  | 'e' :: rest => exponentPart negative significand exponent rest
  | 'E' :: rest => exponentPart negative significand exponent rest
  | rest => do return (← scaled negative significand exponent, rest)

/-- A fraction, from behind the point, and with it the whole number. -/
def fractionPart (negative : Bool) (significand : Nat) (start : Int) : Scan Json := fun cs =>
  match digitsOf cs with
  | [] => throw (if cs.isEmpty then .unfinished .value else .invalidNumber)
  | ds =>
    let (whole, left) := collect significand ds
    numberEnd negative whole (start - (ds.length - left.length : Nat)) (afterDigits cs)

/-- A number without fraction and exponent.  The negative zero is no whole
number, and neither is one below the least of sixty-four bits. -/
def wholeNumber (negative : Bool) (significand : Nat) : Json :=
  if negative = false then .int significand
  else if significand = 0 ∨ 0x8000000000000000 < significand then
    .float (Binary64.ofNat significand).neg
  else .int (-significand)

/-- What follows the digits of a number in front of its point. -/
def afterWhole (negative : Bool) (significand : Nat) : Scan Json
  | '.' :: rest => fractionPart negative significand 0 rest
  | 'e' :: rest => exponentPart negative significand 0 rest
  | 'E' :: rest => exponentPart negative significand 0 rest
  | rest => .ok (wholeNumber negative significand, rest)

/-- A number behind its sign. -/
def unsignedNumber (negative : Bool) : Scan Json := fun cs =>
  match digitsOf cs with
  | [] => throw (if cs.isEmpty then .unfinished .value else .invalidNumber)
  | ['0'] => afterWhole negative 0 (afterDigits cs)
  | '0' :: _ => throw .invalidNumber
  | ds =>
    match collect 0 ds with
    | (significand, []) => afterWhole negative significand (afterDigits cs)
    | (significand, left) =>
      -- Digits that do not fit only move the exponent.
      match afterDigits cs with
      | '.' :: rest => fractionPart negative significand left.length rest
      | rest => numberEnd negative significand left.length rest

/-- A number, from its sign or first digit. -/
def number : Scan Json
  | '-' :: rest => unsignedNumber true rest
  | rest => unsignedNumber false rest

/-- The characters behind the exponent of a number that is passed over. -/
def skipExponent (cs : List Char) : Except Cause (List Char) :=
  let cs :=
    match cs with
    | '+' :: rest => rest
    | '-' :: rest => rest
    | rest => rest
  if (digitsOf cs).isEmpty then .error .invalidNumber else .ok (afterDigits cs)

/-- The characters behind a number that is passed over, from behind its sign. -/
def skipNumber (cs : List Char) : Except Cause (List Char) :=
  match digitsOf cs with
  | [] => .error .invalidNumber
  | '0' :: _ :: _ => .error .invalidNumber
  | _ =>
    match afterDigits cs with
    | '.' :: rest =>
      if (digitsOf rest).isEmpty then .error .invalidNumber
      else
        match afterDigits rest with
        | 'e' :: rest' => skipExponent rest'
        | 'E' :: rest' => skipExponent rest'
        | rest' => .ok rest'
    | 'e' :: rest => skipExponent rest
    | 'E' :: rest => skipExponent rest
    | rest => .ok rest

/-! ## Values that are passed over -/

/-- A container that is being passed over. -/
inductive Frame where
  | list
  | object
  deriving DecidableEq

/-- What a container that ends too early is reported as. -/
def Frame.unfinished : Frame → Cause
  | .list => .unfinished .list
  | .object => .unfinished .object

/-- What is reported where a container neither goes on nor ends. -/
def Frame.expectedComma : Frame → Cause
  | .list => .expectedCommaOrBracket
  | .object => .expectedCommaOrBrace

/-- The character that ends a container. -/
def Frame.closing : Frame → Char
  | .list => ']'
  | .object => '\x7d'

/-- The characters behind the key and colon of an entry that is passed over;
an item of a list has neither. -/
def skipKey (frame : Frame) (cs : List Char) : Except Cause (List Char) :=
  match frame with
  | .list => .ok cs
  | .object =>
    match skipBlanks cs with
    | '"' :: rest => do
      match skipBlanks (← skipText rest) with
      | ':' :: rest' => .ok rest'
      | [] => .error (.unfinished .object)
      | _ => .error .expectedColon
    | [] => .error (.unfinished .object)
    | _ => .error .keyNotText

/-- What comes next while values are passed over. -/
inductive Next where
  | value
  /-- A container has just been opened. -/
  | firstItem
  /-- An item of the innermost container, or the whole value, has just ended. -/
  | nextItem
  deriving DecidableEq

/-- The characters behind a value that is passed over and behind the containers
it was opened in, innermost first.  Of two steps at least one takes a character,
so twice the length is enough fuel. -/
def skipFrames : (fuel : Nat) → Next → List Frame → List Char → Except Cause (List Char)
  | 0, _, _, _ => .error .expectedValue
  | fuel + 1, .value, frames, cs =>
    match skipBlanks cs with
    | [] => .error (.unfinished .value)
    | 'n' :: rest => do skipFrames fuel .nextItem frames (← expectWord ['u', 'l', 'l'] rest)
    | 't' :: rest => do skipFrames fuel .nextItem frames (← expectWord ['r', 'u', 'e'] rest)
    | 'f' :: rest => do skipFrames fuel .nextItem frames (← expectWord ['a', 'l', 's', 'e'] rest)
    | '-' :: rest => do skipFrames fuel .nextItem frames (← skipNumber rest)
    | '"' :: rest => do skipFrames fuel .nextItem frames (← skipText rest)
    | '[' :: rest => skipFrames fuel .firstItem (.list :: frames) rest
    | '\x7b' :: rest => skipFrames fuel .firstItem (.object :: frames) rest
    | c :: rest =>
      if c.isDigit then do skipFrames fuel .nextItem frames (← skipNumber (c :: rest))
      else .error .expectedValue
  | _ + 1, _, [], cs => .ok cs
  | fuel + 1, next, frame :: frames, cs =>
    match skipBlanks cs with
    | [] => .error frame.unfinished
    | c :: rest =>
      if c = frame.closing then skipFrames fuel .nextItem frames rest
      else if next = .firstItem then do
        skipFrames fuel .value (frame :: frames) (← skipKey frame (c :: rest))
      else if c = ',' then do
        skipFrames fuel .value (frame :: frames) (← skipKey frame rest)
      else .error frame.expectedComma

/-- The characters behind a value that is passed over. -/
def skipValue (cs : List Char) : Except Cause (List Char) :=
  skipFrames (2 * cs.length + 2) .value [] cs

end Json
end WireSchema
