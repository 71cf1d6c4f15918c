import WireSchema.Text.Hidden

/-!
# Quoted text

The schema language and the messages of the document reader show a text between
double quotes.  A quote, a backslash and the four common control characters get a
backslash and a letter; a character that cannot be seen gets its code point in
lower-case hexadecimal between braces, without leading zeros; every other
character stands for itself.
-/

namespace WireSchema
namespace Text

/-- The hexadecimal digits of a number, lower case, without leading zeros. -/
def hexDigits (n : Nat) : List Char :=
  Nat.toDigits 16 n

/-- How one character is written between quotes. -/
def escape (c : Char) : List Char :=
  if c = '"' then ['\\', '"']
  else if c = '\\' then ['\\', '\\']
  else if c = '\x00' then ['\\', '0']
  else if c = '\t' then ['\\', 't']
  else if c = '\r' then ['\\', 'r']
  else if c = '\n' then ['\\', 'n']
  else if isHidden c then ['\\', 'u', '\x7b'] ++ hexDigits c.toNat ++ ['\x7d']
  else [c]

/-- The characters of a text between double quotes. -/
def quotedChars (s : String) : List Char :=
  '"' :: (s.toList.flatMap escape ++ ['"'])

/-- A text between double quotes. -/
def quoted (s : String) : String :=
  String.ofList (quotedChars s)

/-- Quoted texts between square brackets, separated by a comma and a space. -/
def quotedList (texts : List String) : String :=
  "[" ++ ", ".intercalate (texts.map quoted) ++ "]"

end Text
end WireSchema
