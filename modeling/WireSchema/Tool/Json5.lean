import WireSchema.Json.Scan
import WireSchema.Text.Scan
import WireSchema.Tool.ConfigValue

/-!
# Configuration files in JSON5

JSON5 is JSON with less to observe: comments, a comma behind the last item, keys
that are plain names, texts between single quotes, and numbers in base sixteen,
with a plus in front, or with digits on one side of the point only.
-/

namespace WireSchema
namespace Tool
namespace Json5

open Text (Scan consChar)

/-- The characters behind blanks and comments. -/
def skipGap (cs : List Char) : List Char :=
  Text.skipGap false .blanks cs

/-- Characters that end a line. -/
def isBreak (c : Char) : Bool :=
  c = '\n' || c = '\r' || c = '\u2028' || c = '\u2029'

/-- The character that an escape of one letter stands for; any letter without a
meaning of its own stands for itself. -/
def escaped (c : Char) : Char :=
  match c with
  | 'b' => '\x08'
  | 'f' => '\x0c'
  | 'n' => '\n'
  | 'r' => '\r'
  | 't' => '\t'
  | 'v' => '\x0b'
  | '0' => '\x00'
  | c => c

/-- The body of a text up to its closing quote, and what is behind it.  A backslash
at the end of a line joins it with the next one. -/
def textBody (quote : Char) : Scan (List Char)
  | [] => none
  | '\\' :: 'u' :: a :: b :: c :: d :: cs => do
    let n ← Json.hexQuad? a b c d
    if Json.isLeadingSurrogate n then
      match cs with
      | '\\' :: 'u' :: a' :: b' :: c' :: d' :: cs => do
        let m ← Json.hexQuad? a' b' c' d'
        if Json.isTrailingSurrogate m then
          consChar (Json.pairedSurrogates n m) (textBody quote cs)
        else none
      | _ => none
    else do consChar (← Text.char? n) (textBody quote cs)
  | '\\' :: 'x' :: a :: b :: cs => do
    let n ← Numeral.natural? 16 [a, b]
    consChar (Char.ofNat n) (textBody quote cs)
  | '\\' :: '\r' :: '\n' :: cs => textBody quote cs
  | '\\' :: c :: cs =>
    if isBreak c then textBody quote cs else consChar (escaped c) (textBody quote cs)
  | c :: cs =>
    if c = quote then some ([], cs)
    else if c = '\n' || c = '\r' then none
    else consChar c (textBody quote cs)

/-- A text between quotes of either sort, if one begins here. -/
def text : Scan String
  | '"' :: cs => (textBody '"' cs).map fun (body, cs) => (String.ofList body, cs)
  | '\x27' :: cs => (textBody '\x27' cs).map fun (body, cs) => (String.ofList body, cs)
  | _ => none

/-- Characters of a name. -/
def isNameChar (c : Char) : Bool :=
  c.isAlphanum || c = '_' || c = '$' || (0x7f < c.toNat && !Text.isSpace c && c ≠ '\ufeff')

/-- A key: a text, or a name that begins with no digit. -/
def key (cs : List Char) : Option (String × List Char) :=
  match text cs with
  | some found => some found
  | none =>
    match cs.takeWhile isNameChar with
    | [] => none
    | c :: name =>
      if c.isDigit then none else some (String.ofList (c :: name), cs.dropWhile isNameChar)

/-- A number without its sign: whole if it has neither a point nor a power of
ten. -/
def unsigned? (negative : Bool) : List Char → Option ConfigValue
  | '0' :: 'x' :: digits => whole digits 16
  | '0' :: 'X' :: digits => whole digits 16
  | ['I', 'n', 'f', 'i', 'n', 'i', 't', 'y'] => some (.float (.infinity negative))
  | ['N', 'a', 'N'] => some (.float .nan)
  | digits =>
    if digits.all Char.isDigit then whole digits 10
    else (Numeral.magnitude? digits).bind fun x =>
      if x.isFinite then some (.float (if negative then x.neg else x)) else none
where
  /-- A whole number from its digits. -/
  whole (digits : List Char) (base : Nat) : Option ConfigValue :=
    ((Numeral.natural? base digits).bind (Numeral.whole? negative)).map .int

/-- What a word stands for. -/
def word? : List Char → Option ConfigValue
  | ['n', 'u', 'l', 'l'] => some .nothing
  | ['t', 'r', 'u', 'e'] => some (.bool true)
  | ['f', 'a', 'l', 's', 'e'] => some (.bool false)
  | cs =>
    let (negative, cs) := Numeral.sign cs
    unsigned? negative cs

/-- Characters of a word. -/
def isWordChar (c : Char) : Bool :=
  c.isAlphanum || c = '+' || c = '-' || c = '.'

mutual

/-- A value, and what is behind it.  Every step takes a character. -/
def value : (fuel : Nat) → Scan ConfigValue
  | 0, _ => none
  | fuel + 1, cs =>
    match skipGap cs with
    | '[' :: rest => (items fuel (skipGap rest)).map fun (xs, rest) => (.list xs, rest)
    | '\x7b' :: rest => (members fuel [] (skipGap rest)).map fun (es, rest) => (.table es, rest)
    | rest =>
      match text rest with
      | some (s, rest) => some (.text s, rest)
      | none => (word? (rest.takeWhile isWordChar)).map fun v => (v, rest.dropWhile isWordChar)

/-- The items of a list behind its bracket. -/
def items : (fuel : Nat) → Scan (List ConfigValue)
  | 0, _ => none
  | _, ']' :: rest => some ([], rest)
  | fuel + 1, cs => do
    let (x, rest) ← value fuel cs
    match skipGap rest with
    | ',' :: rest =>
      let (xs, rest) ← items fuel (skipGap rest)
      return (x :: xs, rest)
    | ']' :: rest => return ([x], rest)
    | _ => none

/-- The entries of an object behind its brace and the entries read already; a later
one takes the place of an earlier one with its key. -/
def members : (fuel : Nat) → ConfigEntries → Scan ConfigEntries
  | 0, _, _ => none
  | _, es, '\x7d' :: rest => some (es, rest)
  | fuel + 1, es, cs => do
    let (name, rest) ← key cs
    match skipGap rest with
    | ':' :: rest =>
      let (v, rest) ← value fuel rest
      let es := ConfigValue.put name v es
      match skipGap rest with
      | ',' :: rest => members fuel es (skipGap rest)
      | '\x7d' :: rest => return (es, rest)
      | _ => none
    | _ => none

end

/-- The entries of a file, or `none` if it is not one. -/
def parse (cs : List Char) : Option ConfigEntries :=
  match value (2 * cs.length + 2) cs with
  | some (.table es, rest) => if (skipGap rest).isEmpty then some es else none
  | _ => none

end Json5
end Tool
end WireSchema
