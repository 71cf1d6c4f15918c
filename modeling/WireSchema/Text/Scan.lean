/-!
# Reading from the front of a text

The pieces that several written formats have in common.  A *scan* takes the
characters that are left and returns what it read with the characters behind it, or
nothing if they do not begin with what it wants.
-/

namespace WireSchema
namespace Text

/-- Reading one item from the characters that are left. -/
abbrev Scan (α : Type) := List Char → Option (α × List Char)

/-- The character of a code point, if it has one. -/
def char? (n : Nat) : Option Char :=
  if n < 0xd800 ∨ (0xdfff < n ∧ n < 0x110000) then some (Char.ofNat n) else none

/-- The characters behind a word in front. -/
def after? : (word : List Char) → List Char → Option (List Char)
  | [], cs => some cs
  | _ :: _, [] => none
  | w :: ws, c :: cs => if c = w then after? ws cs else none

/-- The characters from the next line break on. -/
def fromBreak (cs : List Char) : List Char :=
  cs.dropWhile (· ≠ '\n')

/-- Characters with every line break written as a single character, the same for
all. -/
def withPlainBreaks : List Char → List Char
  | '\r' :: '\n' :: cs => '\n' :: withPlainBreaks cs
  | c :: cs => (if c = '\r' then '\n' else c) :: withPlainBreaks cs
  | [] => []

/-- The text without the mark that may stand before its first character. -/
def withoutMark : List Char → List Char
  | '\ufeff' :: cs => cs
  | cs => cs

/-- Blanks of every script, line breaks included. -/
def isSpace (c : Char) : Bool :=
  let n := c.toNat
  (0x9 ≤ n && n ≤ 0xd) || n = 0x20 || n = 0x85 || n = 0xa0 || n = 0x1680 ||
    (0x2000 ≤ n && n ≤ 0x200a) || n = 0x2028 || n = 0x2029 || n = 0x202f || n = 0x205f ||
    n = 0x3000

/-- Where reading stands between two items. -/
inductive Gap where
  | blanks
  /-- In a comment that ends with its line. -/
  | line
  /-- In a comment between marks, inside of so many more. -/
  | block (depth : Nat)

/-- The characters behind blanks and comments: two strokes begin one that ends with
its line, and others stand between marks, one inside another if they may `nest`. -/
def skipGap (nest : Bool) : Gap → List Char → List Char
  | _, [] => []
  | .blanks, '/' :: '/' :: cs => skipGap nest .line cs
  | .blanks, '/' :: '*' :: cs => skipGap nest (.block 0) cs
  | .blanks, c :: cs =>
    if isSpace c || c = '\ufeff' then skipGap nest .blanks cs else c :: cs
  | .line, c :: cs => skipGap nest (if c = '\n' || c = '\r' then .blanks else .line) cs
  | .block 0, '*' :: '/' :: cs => skipGap nest .blanks cs
  | .block (depth + 1), '*' :: '/' :: cs => skipGap nest (.block depth) cs
  | .block depth, '/' :: '*' :: cs => skipGap nest (.block (if nest then depth + 1 else depth)) cs
  | .block depth, _ :: cs => skipGap nest (.block depth) cs

/-- Characters without the blanks at their end. -/
def trimEnd (cs : List Char) : List Char :=
  (cs.reverse.dropWhile isSpace).reverse

/-- Characters without the blanks around them. -/
def trim (cs : List Char) : List Char :=
  trimEnd (cs.dropWhile isSpace)

/-- One more character in front of what is read. -/
def consChar (c : Char) : Option (List Char × List Char) → Option (List Char × List Char) :=
  Option.map fun found => (c :: found.1, found.2)

end Text
end WireSchema
