import WireSchema.Json.Scan

/-!
# Reading values with their paths

A reader is told how many containers may still be opened, and takes the
characters that are left.  It returns what it read with the characters after it,
or a fault.  A fault is found deep inside and grows its path on the way out: the
loop that reads the items of a list adds the position, the loop that reads the
entries of an object adds the key.

## Where a fault lies

Between two items of a list the fault is one of the list.  Between two entries of
an object it is one of an entry whose key is not known yet, and so is a fault
inside a key; a fault at the colon is one of the object.

## The loops

An item or an entry takes at least one character, so the number of characters
left bounds both loops; neither depends on what the reader of the items does.
-/

namespace WireSchema
namespace Json

/-- Reading with a path to what is wrong. -/
abbrev PathScan (α : Type) := List Char → Except Fault (α × List Char)

/-- Reading with a path, when so many containers may still be opened. -/
abbrev Reader (α : Type) := (budget : Nat) → PathScan α

/-- How deep the containers of a document may be nested. -/
def nestingLimit : Nat := 127

/-- A scan whose faults are those of the value read. -/
def Scan.here {α : Type} (scan : Scan α) : PathScan α := fun cs =>
  (scan cs).mapError Cause.here

/-- A scan seen from one step further out. -/
def PathScan.within {α : Type} (step : Segment) (scan : PathScan α) : PathScan α := fun cs =>
  (scan cs).mapError (Fault.within step)

/-! ## Items of a list -/

/-- The characters from the next item on, or `none` at the closing bracket,
which is left standing. -/
def nextItem (first : Bool) (cs : List Char) : Except Cause (Option (List Char)) :=
  match skipBlanks cs with
  | [] => .error (.unfinished .list)
  | ']' :: _ => .ok none
  | c :: rest =>
    if first then .ok (some (c :: rest))
    else if c = ',' then
      match skipBlanks rest with
      | [] => .error (.unfinished .value)
      | ']' :: _ => .error .trailingComma
      | rest' => .ok (some rest')
    else .error .expectedCommaOrBracket

/-- The characters behind the bracket that ends a list. -/
def closeList (cs : List Char) : Except Cause (List Char) :=
  match skipBlanks cs with
  | ']' :: rest => .ok rest
  | ',' :: rest =>
    match skipBlanks rest with
    | ']' :: _ => .error .trailingComma
    | _ => .error .trailingCharacters
  | [] => .error (.unfinished .list)
  | _ => .error .trailingCharacters

/-- The items from position `i` on, and the characters from the closing bracket
on. -/
def items {α : Type} (item : PathScan α) : (fuel : Nat) → (i : Nat) → PathScan (List α)
  | 0, _, _ => .error (Cause.unfinished .list).here
  | fuel + 1, i, cs =>
    match nextItem (i == 0) cs with
    | .error cause => .error cause.here
    | .ok none => .ok ([], cs)
    | .ok (some rest) => do
      let (x, rest) ← item.within (.index i) rest
      let (xs, rest) ← items item fuel (i + 1) rest
      return (x :: xs, rest)

/-- The items of a list whose opening bracket has been read. -/
def listBody {α : Type} (item : PathScan α) : PathScan (List α) := fun cs => do
  let (xs, rest) ← items item (cs.length + 1) 0 cs
  return (xs, ← (closeList rest).mapError Cause.here)

/-! ## Entries of an object -/

/-- The characters behind the opening quote of the next key, or `none` at the
closing brace, which is left standing. -/
def nextKey (first : Bool) (cs : List Char) : Except Cause (Option (List Char)) :=
  match skipBlanks cs with
  | [] => .error (.unfinished .object)
  | '\x7d' :: _ => .ok none
  | c :: rest =>
    if first then
      if c = '"' then .ok (some rest) else .error .keyNotText
    else if c = ',' then
      match skipBlanks rest with
      | [] => .error (.unfinished .value)
      | '"' :: rest' => .ok (some rest')
      | '\x7d' :: _ => .error .trailingComma
      | _ => .error .keyNotText
    else .error .expectedCommaOrBrace

/-- The characters behind a colon. -/
def colon (cs : List Char) : Except Cause (List Char) :=
  match skipBlanks cs with
  | ':' :: rest => .ok rest
  | [] => .error (.unfinished .object)
  | _ => .error .expectedColon

/-- The characters behind the brace that ends an object; the loop over its
entries stops nowhere else. -/
def closeObject (cs : List Char) : Except Cause (List Char) :=
  match skipBlanks cs with
  | '\x7d' :: rest => .ok rest
  | ',' :: _ => .error .trailingComma
  | [] => .error (.unfinished .object)
  | _ => .error .trailingCharacters

/-- What to do with the value under a key: the step its faults lie behind, and
the scan that takes the value into account. -/
structure Entry (σ : Type) where
  step : Segment
  scan : PathScan σ

/-- The entries of an object, each taken into account by `enter` in turn, and the
characters from the closing brace on. -/
def entries {σ : Type} (enter : σ → String → Except Fault (Entry σ)) :
    (fuel : Nat) → (first : Bool) → σ → PathScan σ
  | 0, _, _, _ => .error (Cause.unfinished .object).here
  | fuel + 1, first, acc, cs =>
    match nextKey first cs with
    | .error cause => .error (cause.here.within .unknown)
    | .ok none => .ok (acc, cs)
    | .ok (some rest) => do
      let (key, rest) ← (Scan.here scanText).within .unknown rest
      let entry ← enter acc key
      let rest ← (colon rest).mapError Cause.here
      let (acc, rest) ← entry.scan.within entry.step rest
      entries enter fuel false acc rest

/-- The entries of an object whose opening brace has been read. -/
def objectBody {σ : Type} (start : σ) (enter : σ → String → Except Fault (Entry σ)) :
    PathScan σ := fun cs => do
  let (acc, rest) ← entries enter (cs.length + 1) true start cs
  return (acc, ← (closeObject rest).mapError Cause.here)

/-- Every entry of an object under any key, in order. -/
def entriesBody {α : Type} (item : PathScan α) : PathScan (List (String × α)) := fun cs => do
  let enter (acc : List (String × α)) (key : String) : Except Fault (Entry (List (String × α))) :=
    .ok ⟨.key key, fun cs => do
      let (x, rest) ← item cs
      return ((key, x) :: acc, rest)⟩
  let (acc, rest) ← objectBody [] enter cs
  return (acc.reverse, rest)

/-! ## Any value -/

/-- A value that is no container, from its first character. -/
def scalar : Scan Json := fun cs =>
  match cs with
  | [] => .error (.unfinished .value)
  | 'n' :: rest => do return (.null, ← expectWord ['u', 'l', 'l'] rest)
  | 't' :: rest => do return (.bool true, ← expectWord ['r', 'u', 'e'] rest)
  | 'f' :: rest => do return (.bool false, ← expectWord ['a', 'l', 's', 'e'] rest)
  | '"' :: rest => do
    let (s, rest) ← scanText rest
    return (.text s, rest)
  | c :: rest => if c = '-' ∨ c.isDigit then number (c :: rest) else .error .expectedValue

/-- Any value at all. -/
def value : Reader Json
  | 0, cs =>
    match skipBlanks cs with
    | '[' :: _ => .error Cause.tooDeep.here
    | '\x7b' :: _ => .error Cause.tooDeep.here
    | rest => Scan.here scalar rest
  | budget + 1, cs =>
    match skipBlanks cs with
    | '[' :: rest => do
      let (xs, rest) ← listBody (value budget) rest
      return (.list xs, rest)
    | '\x7b' :: rest => do
      let (es, rest) ← entriesBody (value budget) rest
      return (.object es, rest)
    | rest => Scan.here scalar rest

/-- A whole document: one value, and nothing but blanks behind it. -/
def document {α : Type} (reader : Reader α) (text : String) : Except Fault α := do
  let (x, rest) ← reader nestingLimit text.toList
  if (skipBlanks rest).isEmpty then return x else throw Cause.trailingCharacters.here

/-- The value of a document of which no shape is known. -/
def parse (text : String) : Except Fault Json :=
  document value text

end Json
end WireSchema
