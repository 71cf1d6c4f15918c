import WireSchema.Text.Scan
import WireSchema.Tool.ConfigValue

/-!
# Configuration files in INI

A name in brackets begins a section; a key stands before an equals sign or a colon,
and its value behind it up to the end of the line.  Keys before the first section
stand in no table.  A section that begins a second time begins anew.  A semicolon or
a number sign begins a comment.

Every value is a text.  Parts of it may stand between quotes, and a backslash begins
an escape everywhere but in a comment.
-/

namespace WireSchema
namespace Tool
namespace Ini

/-- The character that a letter behind a backslash stands for; nothing for a line
break, which is passed over. -/
def escaped (c : Char) : List Char :=
  match c with
  | '0' => ['\x00']
  | 'a' => ['\x07']
  | 'b' => ['\x08']
  | 't' => ['\t']
  | 'r' => ['\r']
  | 'n' => ['\n']
  | '\n' => []
  | c => [c]

/-- The characters up to one of those that end them, escapes replaced, and what is
left from that one on. -/
def upTo (ends : List Char) : List Char → List Char × List Char
  | [] => ([], [])
  | '\\' :: 'x' :: a :: b :: c :: d :: cs =>
    let (body, rest) := upTo ends cs
    (((Numeral.natural? 16 [a, b, c, d]).bind Text.char?).toList ++ body, rest)
  | '\\' :: c :: cs =>
    let (body, rest) := upTo ends cs
    (escaped c ++ body, rest)
  | c :: cs =>
    if ends.contains c then ([], c :: cs)
    else
      let (body, rest) := upTo ends cs
      (c :: body, rest)

/-- The rest of a line. -/
def restOfLine (cs : List Char) : List Char × List Char :=
  upTo ['\n', '\r'] cs

/-- A value up to the end of its line: quoted parts as they are, and behind them the
rest of the line without the blanks at its end, or around it if it is all.  Every
part takes a character. -/
def value : (fuel : Nat) → (first : Bool) → Text.Scan (List Char)
  | 0, _, _ => none
  | fuel + 1, first, cs =>
    let quoted (quote : Char) (cs : List Char) : Option (List Char × List Char) :=
      let (body, rest) := upTo [quote] cs
      match rest with
      | [] => none
      | _ :: rest => (value fuel false rest).map fun (more, rest) => (body ++ more, rest)
    match cs with
    | '"' :: cs => quoted '"' cs
    | '\x27' :: cs => quoted '\x27' cs
    | cs =>
      let (line, rest) := restOfLine cs
      some (if first then Text.trim line else Text.trimEnd line, rest)

/-- Entries with a value under a key of a section, or outside of all sections. -/
def define (es : ConfigEntries) (sectionName : Option String) (key : String)
    (value : ConfigValue) : ConfigEntries :=
  match sectionName with
  | none => ConfigValue.put key value es
  | some name =>
    let inner := ((es.lookup name).getD .nothing).entries
    ConfigValue.put name (.table (ConfigValue.put key value inner)) es

/-- The lines of a file behind the entries read already and the section that is
open.  Every line takes a character. -/
def lines : (fuel : Nat) → ConfigEntries → Option String → List Char → Option ConfigEntries
  | 0, _, _, _ => none
  | fuel + 1, es, opened, cs =>
    match cs.dropWhile Text.isSpace with
    | [] => some es
    | '[' :: cs =>
      let (name, rest) := upTo [']'] cs
      let name := String.ofList (Text.trim name)
      lines fuel (ConfigValue.put name (.table []) es) (some name) (rest.drop 1)
    | c :: cs =>
      if c = ';' || c = '#' then lines fuel es opened (Text.fromBreak cs)
      else
        let (key, rest) := upTo ['=', ':'] (c :: cs)
        match Text.trim key, rest with
        | _, [] => none
        | [], _ => none
        | key, _ :: rest => do
          let isBlank (c : Char) : Bool := Text.isSpace c && c ≠ '\n' && c ≠ '\r'
          let (v, rest) ← value (rest.length + 1) true (rest.dropWhile isBlank)
          lines fuel (define es opened (String.ofList key) (.text (String.ofList v))) opened rest

/-- The entries of a file, or `none` if it is not one. -/
def parse (cs : List Char) : Option ConfigEntries :=
  lines (cs.length + 1) [] none cs

end Ini
end Tool
end WireSchema
