import WireSchema.Decimal.Numeral

/-!
# Values of a configuration

Whatever format a configuration file is written in, it says values: truth values,
numbers, texts, lists of values, and tables of values under keys.  The entries of
one file, or of the environment, are a *layer*, and layers are laid on top of each
other in one table.

## Places

The key of an entry of a layer names a *place*: a name, and steps from there, a
point with a name into a table or a number in brackets into a list.  A negative
number counts from the end.  Tables and lists on the way that are not there yet are
made.  A key that is no such expression is a name as it is.

## Laying one value on top of another

A table is laid on top key by key, so that only what it mentions changes; if it
mentions nothing, nothing changes.  Any other value takes the place of what was
there.  Keys that differ in case alone are the same key.
-/

namespace WireSchema
namespace Tool

/-- A value of a configuration. -/
inductive ConfigValue where
  | nothing
  | bool (value : Bool)
  | int (value : Int)
  | float (value : Binary64)
  | text (value : String)
  | list (items : List ConfigValue)
  | table (entries : List (String × ConfigValue))

/-- The entries of a layer, or of a table. -/
abbrev ConfigEntries := List (String × ConfigValue)

namespace ConfigValue

/-- A letter in small form.  Beyond ASCII the Kelvin sign alone has an ASCII letter
as its small form; the keys and words of a configuration are ASCII, so no other
letter can take part in one. -/
def smallLetter (c : Char) : Char :=
  if c = '\u212a' then 'k' else c.toLower

/-- A text in small letters. -/
def lowered (s : String) : String :=
  String.ofList (s.toList.map smallLetter)

/-- Entries with one replaced, or added at the end. -/
def put (key : String) (value : ConfigValue) : ConfigEntries → ConfigEntries
  | [] => [(key, value)]
  | e :: es => if e.1 = key then (key, value) :: es else e :: put key value es

/-- The entries of a table; any other value has none. -/
def entries : ConfigValue → ConfigEntries
  | .table es => es
  | _ => []

/-- The items of a list; any other value has none. -/
def items : ConfigValue → List ConfigValue
  | .list xs => xs
  | _ => []

mutual

/-- A value on top of the one that is there. -/
def onTop (below : Option ConfigValue) : ConfigValue → ConfigValue
  | .table above =>
    if above.isEmpty then below.getD (.table [])
    else .table (entriesOnTop ((below.getD .nothing).entries) above)
  | other => other

/-- Entries on top of those that are there. -/
def entriesOnTop (below : ConfigEntries) : ConfigEntries → ConfigEntries
  | [] => below
  | (key, value) :: above =>
    let key := lowered key
    entriesOnTop (put key (onTop (below.lookup key) value) below) above

end

/-! ## Places -/

/-- A step from a value to one that it consists of. -/
inductive Step where
  | key (name : String)
  | item (index : Int)
  deriving DecidableEq

/-- The position in a list of so many items that a number names. -/
def position? (length : Nat) (index : Int) : Option Nat :=
  if 0 ≤ index then some index.toNat
  else if index.natAbs ≤ length then some (length - index.natAbs)
  else none

/-- A list with a value in one position; positions before it that are not there hold
nothing. -/
def setItem (items : List ConfigValue) (i : Nat) (value : ConfigValue) : List ConfigValue :=
  (items ++ List.replicate (i + 1 - items.length) nothing).set i value

/-- A value with another one at a place in it.  A table is laid on top of what is
under a key, but takes the position of an item. -/
def setAt (value : ConfigValue) : List Step → ConfigValue → ConfigValue
  | [], _ => value
  | [.key name], here =>
    let key := lowered name
    .table (put key (onTop (here.entries.lookup key) value) here.entries)
  | .key name :: steps, here =>
    let key := lowered name
    .table (put key (setAt value steps ((here.entries.lookup key).getD .nothing)) here.entries)
  | .item index :: steps, here =>
    match position? here.items.length index with
    | none => here
    | some i => .list (setItem here.items i (setAt value steps (here.items.getD i .nothing)))

/-- Characters of a name in a place. -/
def isNameChar (c : Char) : Bool :=
  c.isAlphanum || c = '_' || c = '-' || c = ' '

/-- A name in front, and what is behind it. -/
def name? (cs : List Char) : Option (String × List Char) :=
  match cs.takeWhile isNameChar with
  | [] => none
  | name => some (String.ofList name, cs.dropWhile isNameChar)

/-- Blanks around the number of an item. -/
def isBlank (c : Char) : Bool :=
  c = ' ' || c = '\t' || c = '\n' || c = '\r'

/-- The number of an item, from behind its opening bracket to behind its closing
one. -/
def index? (cs : List Char) : Option (Int × List Char) := do
  let cs := cs.dropWhile isBlank
  let (negative, cs) :=
    match cs with
    | '-' :: cs => (true, cs)
    | cs => (false, cs)
  let i ← (Numeral.natural? 10 (cs.takeWhile Char.isDigit)).bind (Numeral.whole? negative)
  match (cs.dropWhile Char.isDigit).dropWhile isBlank with
  | ']' :: rest => return (i, rest)
  | _ => none

/-- The steps of a place behind its first name.  Every step takes a character. -/
def steps? : (fuel : Nat) → List Char → Option (List Step)
  | _, [] => some []
  | 0, _ => none
  | fuel + 1, '.' :: cs => do
    let (name, rest) ← name? cs
    return .key name :: (← steps? fuel rest)
  | fuel + 1, '[' :: cs => do
    let (i, rest) ← index? cs
    return .item i :: (← steps? fuel rest)
  | _, _ => none

/-- The place that a key names. -/
def placeOf (key : String) : List Step :=
  let found : Option (List Step) := do
    let (name, rest) ← name? key.toList
    return .key name :: (← steps? rest.length rest)
  found.getD [.key key]

/-- A table with a layer on top, entry by entry. -/
def withLayer (root : ConfigValue) (layer : ConfigEntries) : ConfigValue :=
  layer.foldl (fun here e => setAt e.2 (placeOf e.1) here) root

end ConfigValue
end Tool
end WireSchema
