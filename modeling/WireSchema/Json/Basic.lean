import WireSchema.Decimal.Numeral

/-!
# JSON values and their compact text

A schema document is JSON.  Two things about a document matter that a value of
unordered maps would lose: the order of the entries of an object, and a key that
is written twice.  So an object here is a list of entries, and a repeated key is
two of them.

Numbers come in two sorts.  A number that is written as a whole number and fits
in sixty-four bits stays whole; every other number is a double.

The text of a value is compact: no blanks, entries in order, and only those
characters escaped that have to be.
-/

namespace WireSchema

/-- A JSON value.  Objects keep the order of their entries and repeated keys. -/
inductive Json where
  | null
  | bool (value : Bool)
  | int (value : Int)
  | float (value : Binary64)
  | text (value : String)
  | list (items : List Json)
  | object (entries : List (String × Json))

namespace Json

/-! ## The compact text -/

/-- A lower-case hexadecimal digit. -/
def hexDigit (n : Nat) : Char :=
  if n < 10 then Char.ofNat (48 + n) else Char.ofNat (87 + n)

/-- How one character is written inside a text: the quote, the backslash and the
control characters as escapes, all else as itself. -/
def escape (c : Char) : List Char :=
  if c = '"' then ['\\', '"']
  else if c = '\\' then ['\\', '\\']
  else if c = '\x08' then ['\\', 'b']
  else if c = '\x0c' then ['\\', 'f']
  else if c = '\n' then ['\\', 'n']
  else if c = '\r' then ['\\', 'r']
  else if c = '\t' then ['\\', 't']
  else if c.toNat < 0x20 then
    ['\\', 'u', '0', '0', hexDigit (c.toNat / 16), hexDigit (c.toNat % 16)]
  else [c]

/-- The characters of a text value, quotes included. -/
def textChars (s : String) : List Char :=
  '"' :: (s.toList.flatMap escape ++ ['"'])

/-- The characters of a double; `null` if it is no finite number. -/
def floatChars (x : Binary64) : List Char :=
  if x.isFinite then x.text Decimal.document else ['n', 'u', 'l', 'l']

mutual

/-- The compact text of a value, as characters. -/
def chars : Json → List Char
  | .null => ['n', 'u', 'l', 'l']
  | .bool true => ['t', 'r', 'u', 'e']
  | .bool false => ['f', 'a', 'l', 's', 'e']
  | .int i => Decimal.intText i
  | .float x => floatChars x
  | .text s => textChars s
  | .list items => '[' :: (itemChars items ++ [']'])
  | .object entries => '\x7b' :: (entryChars entries ++ ['\x7d'])

/-- The items of a list, separated by commas. -/
def itemChars : List Json → List Char
  | [] => []
  | [x] => chars x
  | x :: y :: rest => chars x ++ ',' :: itemChars (y :: rest)

/-- The entries of an object, separated by commas. -/
def entryChars : List (String × Json) → List Char
  | [] => []
  | [(k, v)] => textChars k ++ ':' :: chars v
  | (k, v) :: e :: rest => textChars k ++ ':' :: (chars v ++ ',' :: entryChars (e :: rest))

end

/-- The compact text of a value. -/
def compact (j : Json) : String :=
  String.ofList j.chars

/-! ## Nesting -/

mutual

/-- How many containers, lists and objects, the deepest part of a value is
inside of. -/
def nesting : Json → Nat
  | .list items => itemNesting items + 1
  | .object entries => entryNesting entries + 1
  | _ => 0

/-- The deepest nesting among the items of a list. -/
def itemNesting : List Json → Nat
  | [] => 0
  | x :: rest => max (nesting x) (itemNesting rest)

/-- The deepest nesting among the entries of an object. -/
def entryNesting : List (String × Json) → Nat
  | [] => 0
  | (_, v) :: rest => max (nesting v) (entryNesting rest)

end

end Json
end WireSchema
