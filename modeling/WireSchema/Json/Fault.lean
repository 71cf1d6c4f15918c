import WireSchema.Json.Basic
import WireSchema.Text.Quoted

/-!
# What can be wrong with a document

A document is read from left to right, and reading stops at the first thing that
is wrong.  That is a *fault*: a cause, and the path from the root of the document
to the value that was being read.  The causes are of two sorts, a text that is no
JSON and a value that is not of the shape asked for, but a reader meets them in
one pass and reports whichever comes first.

The wording of a cause is decided in `Cause.message` alone, and that of a path in
`Path.text`.
-/

namespace WireSchema
namespace Json

/-- What had begun when the text ended. -/
inductive Unfinished where
  | value
  | text
  | list
  | object
  deriving DecidableEq

/-- The word for what had begun. -/
def Unfinished.word : Unfinished → String
  | .value => "value"
  | .text => "string"
  | .list => "list"
  | .object => "object"

/-- What was found where something else was wanted. -/
inductive Found where
  | null
  | bool (value : Bool)
  | int (value : Int)
  | float (value : Binary64)
  | text (value : String)
  | list
  | object
  /-- A case of a choice written as a bare text, without a payload. -/
  | bareCase
  deriving DecidableEq

/-- What was wanted. -/
inductive Wanted where
  | bool
  | text
  /-- A whole number that fits in sixty-four bits with a sign. -/
  | signed
  /-- A whole number that fits in sixty-four bits without a sign. -/
  | size
  | list
  | object
  | null
  /-- An object, or a list of its members in order. -/
  | record (name : String)
  /-- The empty payload of a case of a choice. -/
  | emptyPayload (choice case : String)
  /-- A case with an empty payload, which a bare text does not provide. -/
  | caseWithMembers
  /-- A case with a payload, which a bare text does not provide. -/
  | caseWithPayload
  deriving DecidableEq

/-- Why reading stopped. -/
inductive Cause where
  | unfinished (what : Unfinished)
  | expectedValue
  | expectedWord
  | expectedColon
  | expectedCommaOrBracket
  | expectedCommaOrBrace
  | keyNotText
  | trailingComma
  | trailingCharacters
  | invalidNumber
  | numberOutOfRange
  | invalidEscape
  | unpairedLeadingSurrogate
  | unpairedTrailingSurrogate
  | controlCharacter
  | tooDeep
  | missingMember (name : String)
  | repeatedMember (name : String)
  | unknownCase (name : String) (cases : List String)
  | mismatch (found : Found) (wanted : Wanted)
  | outOfRange (value : Int) (wanted : Wanted)
  | tooShort (length : Nat) (record : String) (members : Nat)
  | tooLong (length : Nat)
  | noAlternative (choice : String)
  deriving DecidableEq

/-- The words for what was found. -/
def Found.words : Found → String
  | .null => "null"
  | .bool true => "boolean `true`"
  | .bool false => "boolean `false`"
  | .int i => "integer `" ++ String.ofList (Decimal.intText i) ++ "`"
  | .float x => "floating point `" ++ String.ofList (x.text Decimal.document) ++ "`"
  | .text s => "string " ++ Text.quoted s
  | .list => "sequence"
  | .object => "map"
  | .bareCase => "unit variant"

/-- The words for what was wanted. -/
def Wanted.words : Wanted → String
  | .bool => "a boolean"
  | .text => "a string"
  | .signed => "i64"
  | .size => "usize"
  | .list => "a sequence"
  | .object => "a map"
  | .null => "unit"
  | .record name => "struct " ++ name
  | .emptyPayload choice case => "struct variant " ++ choice ++ "::" ++ case
  | .caseWithMembers => "struct variant"
  | .caseWithPayload => "newtype variant"

/-- The cases of a choice, each between backticks. -/
def casesText : List String → String
  | [] => "nothing"
  | [a] => "`" ++ a ++ "`"
  | [a, b] => "`" ++ a ++ "` or `" ++ b ++ "`"
  | cases => "one of " ++ ", ".intercalate (cases.map fun c => "`" ++ c ++ "`")

/-- How many members a record has, in words. -/
def membersText (n : Nat) : String :=
  toString n ++ (if n = 1 then " element" else " elements")

/-- The message of a cause. -/
def Cause.message : Cause → String
  | .unfinished what => "EOF while parsing " ++
      (match what with
        | .object => "an "
        | _ => "a ") ++ what.word
  | .expectedValue => "expected value"
  | .expectedWord => "expected ident"
  | .expectedColon => "expected `:`"
  | .expectedCommaOrBracket => "expected `,` or `]`"
  | .expectedCommaOrBrace => "expected `,` or `\x7d`"
  | .keyNotText => "key must be a string"
  | .trailingComma => "trailing comma"
  | .trailingCharacters => "trailing characters"
  | .invalidNumber => "invalid number"
  | .numberOutOfRange => "number out of range"
  | .invalidEscape => "invalid escape"
  | .unpairedLeadingSurrogate => "unexpected end of hex escape"
  | .unpairedTrailingSurrogate => "lone leading surrogate in hex escape"
  | .controlCharacter => "control character (\\u0000-\\u001F) found while parsing a string"
  | .tooDeep => "recursion limit exceeded"
  | .missingMember name => "missing field `" ++ name ++ "`"
  | .repeatedMember name => "duplicate field `" ++ name ++ "`"
  | .unknownCase name cases =>
      "unknown variant `" ++ name ++ "`, expected " ++ casesText cases
  | .mismatch found wanted => "invalid type: " ++ found.words ++ ", expected " ++ wanted.words
  | .outOfRange value wanted =>
      "invalid value: integer `" ++ String.ofList (Decimal.intText value) ++ "`, expected " ++
        wanted.words
  | .tooShort length record members =>
      "invalid length " ++ toString length ++ ", expected struct " ++ record ++ " with " ++
        membersText members
  | .tooLong length =>
      "invalid length " ++ toString length ++ ", expected fewer elements in array"
  | .noAlternative choice => "data did not match any variant of untagged enum " ++ choice

/-! ## Paths -/

/-- One step of a path into a document. -/
inductive Segment where
  /-- Into the entry under a key, or into a case of a choice. -/
  | key (name : String)
  /-- Into an item of a list. -/
  | index (i : Nat)
  /-- Into an object, before a key is known. -/
  | unknown
  deriving DecidableEq

/-- The steps from the root of a document to a value. -/
abbrev Path := List Segment

/-- A path after its first step: a position needs no point before it. -/
def Path.tail : Path → String
  | [] => ""
  | .key name :: rest => "." ++ name ++ Path.tail rest
  | .index i :: rest => "[" ++ toString i ++ "]" ++ Path.tail rest
  | .unknown :: rest => ".?" ++ Path.tail rest

/-- The text of a path.  The root is a single point. -/
def Path.text : Path → String
  | [] => "."
  | .key name :: rest => name ++ Path.tail rest
  | .index i :: rest => "[" ++ toString i ++ "]" ++ Path.tail rest
  | .unknown :: rest => "?" ++ Path.tail rest

/-- The first thing that is wrong with a document, and where. -/
structure Fault where
  path : Path
  cause : Cause
  deriving DecidableEq

/-- A fault of the value that is being read itself. -/
def Cause.here (cause : Cause) : Fault :=
  ⟨[], cause⟩

/-- The fault as it is seen one step further out. -/
def Fault.within (step : Segment) (fault : Fault) : Fault :=
  ⟨step :: fault.path, fault.cause⟩

end Json
end WireSchema
