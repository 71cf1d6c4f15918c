import WireSchema.Text.Scan
import WireSchema.Tool.ConfigValue

/-!
# Configuration files in RON

A file holds one value.  A record stands in parentheses, its members under plain
names; a map stands in braces, its keys are texts.  Parentheses without names hold
a list, and so do brackets.  A name may stand in front of parentheses and says
nothing here; a name alone is a value of its own, which no setting has.

Comments between marks may stand inside one another.
-/

namespace WireSchema
namespace Tool
namespace Ron

open Text (Scan consChar)

/-- The characters behind blanks and comments. -/
def skipGap (cs : List Char) : List Char :=
  Text.skipGap true .blanks cs

/-! ## Texts -/

/-- The character that an escape of one letter stands for. -/
def escape? : Char → Option Char
  | '"' => some '"'
  | '\x27' => some '\x27'
  | '\\' => some '\\'
  | 'n' => some '\n'
  | 'r' => some '\r'
  | 't' => some '\t'
  | '0' => some '\x00'
  | _ => none

/-- The character of an escape behind its backslash, and what is behind it: a
letter, two hexadecimal digits, or up to six of them in braces. -/
def escape : Scan Char
  | 'x' :: a :: b :: cs => (Numeral.natural? 16 [a, b]).map fun n => (Char.ofNat n, cs)
  | 'u' :: '\x7b' :: cs => do
    let c ← (Numeral.natural? 16 (cs.takeWhile (· ≠ '\x7d'))).bind Text.char?
    return (c, (cs.dropWhile (· ≠ '\x7d')).drop 1)
  | c :: cs => (escape? c).map fun c => (c, cs)
  | [] => none

/-- The body of a text up to its quote, and what is behind it.  Every step takes a
character. -/
def textBody : (fuel : Nat) → Scan (List Char)
  | 0, _ => none
  | _, [] => none
  | _, '"' :: cs => some ([], cs)
  | fuel + 1, '\\' :: cs => do
    let (c, cs) ← escape cs
    consChar c (textBody fuel cs)
  | fuel + 1, c :: cs => consChar c (textBody fuel cs)

/-- The body of a text without escapes, up to a quote with these marks behind it. -/
def rawBody (marks : List Char) : Scan (List Char)
  | [] => none
  | c :: cs =>
    match if c = '"' then Text.after? marks cs else none with
    | some rest => some ([], rest)
    | none => consChar c (rawBody marks cs)

/-- A text, if one begins here: between quotes, without escapes behind a letter and
marks, or one character between single quotes. -/
def text : Scan String
  | '"' :: cs => (textBody (cs.length + 1) cs).map fun (body, cs) => (String.ofList body, cs)
  | 'r' :: cs =>
    let marks := cs.takeWhile (· = '#')
    match cs.drop marks.length with
    | '"' :: cs => (rawBody marks cs).map fun (body, cs) => (String.ofList body, cs)
    | _ => none
  | '\x27' :: '\\' :: cs => do
    let (c, cs) ← escape cs
    return (String.ofList [c], ← Text.after? ['\x27'] cs)
  | '\x27' :: c :: '\x27' :: cs => some (String.ofList [c], cs)
  | _ => none

/-! ## Numbers -/

/-- A number without its sign and its underscores: whole if it has neither a point
nor a power of ten.  A whole number with more than sixty-four bits is a double. -/
def plain? (negative : Bool) : List Char → Option ConfigValue
  | ['i', 'n', 'f'] => some (.float (.infinity negative))
  | ['N', 'a', 'N'] => some (.float .nan)
  | '0' :: 'x' :: digits => whole digits 16
  | '0' :: 'o' :: digits => whole digits 8
  | '0' :: 'b' :: digits => whole digits 2
  | digits =>
    if digits.all Char.isDigit then whole digits 10
    else (Numeral.magnitude? digits).map fun x => .float (if negative then x.neg else x)
where
  /-- A whole number from its digits. -/
  whole (digits : List Char) (base : Nat) : Option ConfigValue :=
    (Numeral.natural? base digits).map fun n =>
      match Numeral.whole? negative n with
      | some i => .int i
      | none => .float (if negative then (Binary64.ofNat n).neg else .ofNat n)

/-- Characters of a number. -/
def isNumberChar (c : Char) : Bool :=
  c.isAlphanum || c = '_' || c = '+' || c = '-' || c = '.'

/-- A number in front, and what is behind it. -/
def number (cs : List Char) : Option (ConfigValue × List Char) :=
  let (negative, digits) := Numeral.sign (cs.takeWhile isNumberChar)
  (plain? negative (digits.filter (· ≠ '_'))).map fun v => (v, cs.dropWhile isNumberChar)

/-! ## Names -/

/-- Characters of a name. -/
def isNameChar (c : Char) : Bool :=
  c.isAlphanum || c = '_' || (0x7f < c.toNat && !Text.isSpace c)

/-- A name in front, if one begins here, and what is behind it. -/
def name (cs : List Char) : Option (String × List Char) :=
  match cs.takeWhile isNameChar with
  | [] => none
  | c :: rest =>
    if c.isDigit then none else some (String.ofList (c :: rest), cs.dropWhile isNameChar)

/-- Whether a name and a colon are in front, so that parentheses hold a record. -/
def beginsMember (cs : List Char) : Bool :=
  match name cs with
  | none => false
  | some (_, rest) =>
    match skipGap rest with
    | ':' :: _ => true
    | _ => false

/-! ## Values -/

mutual

/-- A value, and what is behind it.  Every step takes a character. -/
def value : (fuel : Nat) → Scan ConfigValue
  | 0, _ => none
  | fuel + 1, cs =>
    match skipGap cs with
    | '[' :: rest => (items fuel ']' (skipGap rest)).map fun (xs, rest) => (.list xs, rest)
    | '(' :: rest => parentheses fuel (skipGap rest)
    | '\x7b' :: rest => (entries fuel [] (skipGap rest)).map fun (es, rest) => (.table es, rest)
    | rest =>
      match text rest with
      | some (s, rest) => some (.text s, rest)
      | none =>
        match name rest with
        | none => number rest
        | some ("true", rest) => some (.bool true, rest)
        | some ("false", rest) => some (.bool false, rest)
        | some ("inf", rest) => some (.float (.infinity false), rest)
        | some ("NaN", rest) => some (.float .nan, rest)
        | some ("Some", rest) => do
          let rest ← Text.after? ['('] (skipGap rest)
          let (v, rest) ← value fuel rest
          return (v, ← Text.after? [')'] (skipGap rest))
        | some (_, rest) =>
          match skipGap rest with
          | '(' :: rest => parentheses fuel (skipGap rest)
          | _ => some (.nothing, rest)

/-- What parentheses hold: nothing, a record, or a list. -/
def parentheses : (fuel : Nat) → Scan ConfigValue
  | 0, _ => none
  | _, ')' :: rest => some (.nothing, rest)
  | fuel + 1, cs =>
    if beginsMember cs then (members fuel [] cs).map fun (es, rest) => (.table es, rest)
    else (items fuel ')' cs).map fun (xs, rest) => (.list xs, rest)

/-- Items up to a closing bracket. -/
def items : (fuel : Nat) → (closing : Char) → Scan (List ConfigValue)
  | 0, _, _ => none
  | _, _, [] => none
  | fuel + 1, closing, c :: cs => do
    if c = closing then return ([], cs)
    else
      let (x, rest) ← value fuel (c :: cs)
      match skipGap rest with
      | [] => none
      | c :: rest =>
        if c = ',' then
          let (xs, rest) ← items fuel closing (skipGap rest)
          return (x :: xs, rest)
        else if c = closing then return ([x], rest)
        else none

/-- The members of a record behind those read already. -/
def members : (fuel : Nat) → ConfigEntries → Scan ConfigEntries
  | 0, _, _ => none
  | _, es, ')' :: rest => some (es, rest)
  | fuel + 1, es, cs => do
    let (key, rest) ← name cs
    let rest ← Text.after? [':'] (skipGap rest)
    let (v, rest) ← value fuel rest
    let es := ConfigValue.put key v es
    match skipGap rest with
    | ',' :: rest => members fuel es (skipGap rest)
    | ')' :: rest => return (es, rest)
    | _ => none

/-- The entries of a map behind those read already. -/
def entries : (fuel : Nat) → ConfigEntries → Scan ConfigEntries
  | 0, _, _ => none
  | _, es, '\x7d' :: rest => some (es, rest)
  | fuel + 1, es, cs => do
    let (key, rest) ← text cs
    let rest ← Text.after? [':'] (skipGap rest)
    let (v, rest) ← value fuel rest
    let es := ConfigValue.put key v es
    match skipGap rest with
    | ',' :: rest => entries fuel es (skipGap rest)
    | '\x7d' :: rest => return (es, rest)
    | _ => none

end

/-- What is behind the marks that switch on extensions, of which each stands in
brackets. -/
def skipExtensions : (fuel : Nat) → List Char → List Char
  | 0, cs => cs
  | fuel + 1, cs =>
    match skipGap cs with
    | '#' :: '!' :: rest => skipExtensions fuel ((rest.dropWhile (· ≠ ']')).drop 1)
    | cs => cs

/-- The entries of a file, or `none` if it is not one. -/
def parse (cs : List Char) : Option ConfigEntries :=
  match value (2 * cs.length + 2) (skipExtensions cs.length cs) with
  | some (.table es, rest) => if (skipGap rest).isEmpty then some es else none
  | _ => none

end Ron
end Tool
end WireSchema
