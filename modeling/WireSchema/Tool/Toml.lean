import WireSchema.Text.Scan
import WireSchema.Tool.ConfigValue

/-!
# Configuration files in TOML

A file is a row of lines: a header in brackets opens a table, a header in double
brackets opens a new table at the end of a list of tables, and a key with a value
stands in the table opened last.  A number sign begins a comment.  Keys may be
dotted, which opens tables for one line.  A list may go on over several lines, and
so may a text between three quotes.

Numbers may have underscores between their digits.  A date or a time is kept as its
text, since no setting is one.
-/

namespace WireSchema
namespace Tool
namespace Toml

open Text (Scan consChar)

/-! ## Blanks and comments -/

/-- Blanks inside a line. -/
def skipSpaces (cs : List Char) : List Char :=
  cs.dropWhile fun c => c = ' ' || c = '\t'

/-- Blanks, line breaks and comments, as they may stand between the items of a
list. -/
def skipGap : (inComment : Bool) → List Char → List Char
  | _, [] => []
  | inComment, c :: cs =>
    if c = '\n' then skipGap false cs
    else if inComment || c = ' ' || c = '\t' then skipGap inComment cs
    else if c = '#' then skipGap true cs
    else c :: cs

/-- The characters from the next line on, if only a comment is left of this one. -/
def nextLine? (cs : List Char) : Option (List Char) :=
  match skipSpaces cs with
  | [] => some []
  | '\n' :: cs => some cs
  | '#' :: cs => some ((Text.fromBreak cs).drop 1)
  | _ => none

/-! ## Texts -/

/-- The character that a one-letter escape stands for. -/
def escape? : Char → Option Char
  | 'b' => some '\x08'
  | 't' => some '\t'
  | 'n' => some '\n'
  | 'f' => some '\x0c'
  | 'r' => some '\r'
  | '"' => some '"'
  | '\\' => some '\\'
  | _ => none

/-- The character of hexadecimal digits. -/
def hexChar? (digits : List Char) : Option Char :=
  (Numeral.natural? 16 digits).bind Text.char?

/-- Up to two more quotes behind three that end a text, which belong to it. -/
def endOfBlock (quote : Char) (cs : List Char) : List Char × List Char :=
  let more := (cs.takeWhile (· = quote)).take 2
  (more, cs.drop more.length)

/-- The body of a text between double quotes, and what is behind it.  In a block,
between three of them, a backslash at the end of a line hides the break and the
blanks up to the next visible character: they are passed over while `passing`. -/
def quotedBody (block : Bool) : (passing : Bool) → Scan (List Char)
  | _, [] => none
  | _, '"' :: '"' :: '"' :: cs =>
    if block then some (endOfBlock '"' cs) else some ([], '"' :: '"' :: cs)
  | _, '"' :: cs => if block then consChar '"' (quotedBody block false cs) else some ([], cs)
  | _, '\\' :: 'u' :: a :: b :: c :: d :: cs => do
    consChar (← hexChar? [a, b, c, d]) (quotedBody block false cs)
  | _, '\\' :: 'U' :: a :: b :: c :: d :: e :: f :: g :: h :: cs => do
    consChar (← hexChar? [a, b, c, d, e, f, g, h]) (quotedBody block false cs)
  | _, '\\' :: c :: cs =>
    if block && (c = ' ' || c = '\t' || c = '\n') then quotedBody block true cs
    else do consChar (← escape? c) (quotedBody block false cs)
  | passing, c :: cs =>
    if passing && (c = ' ' || c = '\t' || c = '\n') then quotedBody block true cs
    else if c = '\n' && !block then none
    else consChar c (quotedBody block false cs)

/-- The body of a text between three single quotes, and what is behind it. -/
def literalBlock : Scan (List Char)
  | [] => none
  | '\x27' :: '\x27' :: '\x27' :: cs => some (endOfBlock '\x27' cs)
  | c :: cs => consChar c (literalBlock cs)

/-- The body of a text between single quotes, and what is behind it. -/
def literalBody : Scan (List Char)
  | [] => none
  | c :: cs =>
    if c = '\x27' then some ([], cs)
    else if c = '\n' then none
    else consChar c (literalBody cs)

/-- A line break in front is no part of a block. -/
def withoutFirstBreak : List Char → List Char
  | '\n' :: cs => cs
  | cs => cs

/-- A text on one line between quotes of either sort, if one begins here. -/
def lineText : Scan String
  | '"' :: cs => (quotedBody false false cs).map fun (body, cs) => (String.ofList body, cs)
  | '\x27' :: cs => (literalBody cs).map fun (body, cs) => (String.ofList body, cs)
  | _ => none

/-- A text of any sort, if one begins here. -/
def text : Scan String
  | '"' :: '"' :: '"' :: cs =>
    (quotedBody true false (withoutFirstBreak cs)).map fun (body, cs) => (String.ofList body, cs)
  | '\x27' :: '\x27' :: '\x27' :: cs =>
    (literalBlock (withoutFirstBreak cs)).map fun (body, cs) => (String.ofList body, cs)
  | cs => lineText cs

/-! ## Keys -/

/-- Characters of a key without quotes. -/
def isKeyChar (c : Char) : Bool :=
  c.isAlphanum || c = '_' || c = '-'

/-- One part of a key. -/
def keyPart (cs : List Char) : Option (String × List Char) :=
  match lineText cs with
  | some found => some found
  | none =>
    match cs.takeWhile isKeyChar with
    | [] => none
    | name => some (String.ofList name, cs.dropWhile isKeyChar)

/-- A key with its parts, and what is behind it and its blanks.  Every part takes a
character. -/
def key : (fuel : Nat) → Scan (List String)
  | 0, _ => none
  | fuel + 1, cs => do
    let (part, rest) ← keyPart (skipSpaces cs)
    match skipSpaces rest with
    | '.' :: rest =>
      let (parts, rest) ← key fuel rest
      return (part :: parts, rest)
    | rest => return ([part], rest)

/-! ## Words: truth values, numbers, dates -/

/-- Digits without the underscores, each of which has to stand between two of
them. -/
def ungrouped? : List Char → Option (List Char)
  | [] => none
  | [c] => if c = '_' then none else some [c]
  | c :: d :: cs =>
    if c = '_' then none
    else if d = '_' then (ungrouped? cs).map (c :: ·)
    else (ungrouped? (d :: cs)).map (c :: ·)

/-- Whether digits begin with a zero that says nothing. -/
def hasIdleZero : List Char → Bool
  | '0' :: _ :: _ => true
  | _ => false

/-- Whether every point has digits on both sides. -/
def hasFullPoints : (behindDigit : Bool) → List Char → Bool
  | _, [] => true
  | behindDigit, c :: cs =>
    (c ≠ '.' || (behindDigit && cs.head?.any Char.isDigit)) && hasFullPoints c.isDigit cs

/-- A decimal number without its sign. -/
def decimal? (negative : Bool) (cs : List Char) : Option ConfigValue := do
  let plain ← ungrouped? cs
  if hasIdleZero (plain.takeWhile Char.isDigit) || !hasFullPoints false plain then none
  else if plain.all Char.isDigit then
    return .int (← (Numeral.natural? 10 plain).bind (Numeral.whole? negative))
  else
    let x ← Numeral.magnitude? plain
    if x.isFinite then return .float (if negative then x.neg else x) else none

/-- A number without its sign. -/
def unsigned? (negative : Bool) : List Char → Option ConfigValue
  | ['i', 'n', 'f'] => some (.float (.infinity negative))
  | ['n', 'a', 'n'] => some (.float .nan)
  | cs => decimal? negative cs

/-- A whole number in another base, which has no sign. -/
def inBase? (base : Nat) (cs : List Char) : Option ConfigValue := do
  let n ← Numeral.natural? base (← ungrouped? cs)
  return .int (← Numeral.whole? false n)

/-- Whether a word begins with a date. -/
def isDate : List Char → Bool
  | a :: b :: c :: d :: '-' :: _ => [a, b, c, d].all Char.isDigit
  | _ => false

/-- Whether a word begins with the time of a day. -/
def isTime : List Char → Bool
  | a :: b :: ':' :: _ => a.isDigit && b.isDigit
  | _ => false

/-- What a word stands for. -/
def word? (cs : List Char) : Option ConfigValue :=
  match cs with
  | ['t', 'r', 'u', 'e'] => some (.bool true)
  | ['f', 'a', 'l', 's', 'e'] => some (.bool false)
  | '0' :: 'x' :: digits => inBase? 16 digits
  | '0' :: 'o' :: digits => inBase? 8 digits
  | '0' :: 'b' :: digits => inBase? 2 digits
  | '-' :: rest => unsigned? true rest
  | '+' :: rest => unsigned? false rest
  | rest =>
    if isDate rest || isTime rest then some (.text (String.ofList rest))
    else unsigned? false rest

/-- Characters of a word. -/
def isWordChar (c : Char) : Bool :=
  c.isAlphanum || c = '_' || c = '-' || c = '+' || c = '.' || c = ':'

/-- A word in front, and what is behind it.  A time may follow a date behind a
blank. -/
def word (cs : List Char) : List Char × List Char :=
  let first := cs.takeWhile isWordChar
  match cs.dropWhile isWordChar with
  | ' ' :: rest =>
    if first.length = 10 && isDate first && isTime rest then
      (first ++ ' ' :: rest.takeWhile isWordChar, rest.dropWhile isWordChar)
    else (first, ' ' :: rest)
  | rest => (first, rest)

/-! ## Values -/

/-- Entries with a change to what is under a path of keys, in tables on the way that
are made if they are not there.  A path leads into the last table of a list.  The
change is refused if the path leads through anything else. -/
def change (f : Option ConfigValue → Option ConfigValue) :
    List String → ConfigEntries → Option ConfigEntries
  | [], _ => none
  | [key], es => (f (es.lookup key)).map fun v => ConfigValue.put key v es
  | key :: keys, es =>
    match es.lookup key with
    | none => (change f keys []).map fun inner => ConfigValue.put key (.table inner) es
    | some (.table inner) =>
      (change f keys inner).map fun inner => ConfigValue.put key (.table inner) es
    | some (.list items) =>
      match items.getLast? with
      | some (.table inner) => (change f keys inner).map fun inner =>
          ConfigValue.put key (.list (items.dropLast ++ [.table inner])) es
      | _ => none
    | some _ => none

/-- A value where there was none. -/
def define (value : ConfigValue) : Option ConfigValue → Option ConfigValue
  | none => some value
  | some _ => none

/-- The table that a header opens: the one that is there, or a new one. -/
def openTable : Option ConfigValue → Option ConfigValue
  | none => some (.table [])
  | some (.table es) => some (.table es)
  | some (.list items) =>
    match items.getLast? with
    | some (.table _) => some (.list items)
    | _ => none
  | some _ => none

/-- A list of tables with a new table at its end. -/
def openItem : Option ConfigValue → Option ConfigValue
  | none => some (.list [.table []])
  | some (.list items) => some (.list (items ++ [.table []]))
  | some _ => none

mutual

/-- A value, and what is behind it.  Every step takes a character. -/
def value : (fuel : Nat) → Scan ConfigValue
  | 0, _ => none
  | fuel + 1, cs =>
    match skipSpaces cs with
    | '[' :: rest => (items fuel (skipGap false rest)).map fun (xs, rest) => (.list xs, rest)
    | '\x7b' :: rest => (members fuel [] (skipSpaces rest)).map fun (es, rest) => (.table es, rest)
    | rest =>
      match text rest with
      | some (s, rest) => some (.text s, rest)
      | none =>
        let (w, rest) := word rest
        (word? w).map fun v => (v, rest)

/-- The items of a list behind its bracket. -/
def items : (fuel : Nat) → Scan (List ConfigValue)
  | 0, _ => none
  | _, ']' :: rest => some ([], rest)
  | fuel + 1, cs => do
    let (x, rest) ← value fuel cs
    match skipGap false rest with
    | ',' :: rest =>
      let (xs, rest) ← items fuel (skipGap false rest)
      return (x :: xs, rest)
    | ']' :: rest => return ([x], rest)
    | _ => none

/-- The entries of a table in braces behind its brace and the entries read
already. -/
def members : (fuel : Nat) → ConfigEntries → Scan ConfigEntries
  | 0, _, _ => none
  | _, es, '\x7d' :: rest => some (es, rest)
  | fuel + 1, es, cs => do
    let (path, rest) ← key (cs.length + 1) cs
    match rest with
    | '=' :: rest =>
      let (v, rest) ← value fuel rest
      let es ← change (define v) path es
      match skipSpaces rest with
      | ',' :: rest =>
        match skipSpaces rest with
        | '\x7d' :: _ => none
        | rest => members fuel es rest
      | '\x7d' :: rest => return (es, rest)
      | _ => none
    | _ => none

end

/-! ## Lines -/

/-- What has been read of a file: its entries, and the table that is open. -/
structure Draft where
  entries : ConfigEntries
  opened : List String

/-- One line that says something: the draft after it, and what is left of the
line. -/
def line (d : Draft) : Scan Draft
  | '[' :: '[' :: cs => do
    let (path, rest) ← key (cs.length + 1) cs
    let rest ← Text.after? [']', ']'] rest
    return (⟨← change openItem path d.entries, path⟩, rest)
  | '[' :: cs => do
    let (path, rest) ← key (cs.length + 1) cs
    let rest ← Text.after? [']'] rest
    return (⟨← change openTable path d.entries, path⟩, rest)
  | cs => do
    let (path, rest) ← key (cs.length + 1) cs
    let rest ← Text.after? ['='] rest
    let (v, rest) ← value (2 * rest.length + 2) rest
    return ({ d with entries := ← change (define v) (d.opened ++ path) d.entries }, rest)

/-- The lines of a file, one after the other; every line takes a character. -/
def lines : (fuel : Nat) → Draft → List Char → Option Draft
  | 0, _, _ => none
  | fuel + 1, d, cs =>
    match skipGap false cs with
    | [] => some d
    | cs => do
      let (d, rest) ← line d cs
      lines fuel d (← nextLine? rest)

/-- The entries of a file, or `none` if it is not one. -/
def parse (cs : List Char) : Option ConfigEntries :=
  (lines (cs.length + 1) ⟨[], []⟩ (Text.withPlainBreaks cs)).map Draft.entries

end Toml
end Tool
end WireSchema
