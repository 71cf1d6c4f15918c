import WireSchema.Tool.Yaml.Scalar

/-!
# Configuration files in YAML

A file holds one document.  Its collections stand in blocks, where the column of a
line says what it belongs to, or in a row between brackets or braces.  A block is
read with the least column that it may begin in: one more than that of the
collection it is in, except that the items of a list may begin in the column of the
key above them.

A node may have an anchor, under which it can stand again further down, and a tag.

## Keys

A key is one line: a scalar with a colon and a blank behind it.  So the first thing
to find out about a line is whether a key is in front of it.
-/

namespace WireSchema
namespace Tool
namespace Yaml

/-- Where reading has got to: the column, the characters left, and the nodes that
have an anchor. -/
structure Place where
  column : Nat
  rest : List Char
  anchors : List (String × ConfigValue)

/-- Reading a node. -/
abbrev Reading := StateT Place Option

/-- The column behind characters. -/
def columnBehind (column : Nat) (cs : List Char) : Nat :=
  cs.foldl (fun k c => if c = '\n' then 0 else k + 1) column

/-- The place with fewer characters left. -/
def Place.moved (p : Place) (rest : List Char) : Place :=
  { p with
    column := columnBehind p.column (p.rest.take (p.rest.length - rest.length))
    rest }

/-- Reading goes on with fewer characters. -/
def moveTo (rest : List Char) : Reading Unit :=
  modify fun p => p.moved rest

/-- Behind blanks, line breaks and comments. -/
def gapEnd : (inComment : Bool) → List Char → List Char
  | _, [] => []
  | inComment, c :: cs =>
    if c = '\n' then gapEnd false cs
    else if inComment || c = ' ' || c = '\t' then gapEnd inComment cs
    else if c = '#' then gapEnd true cs
    else c :: cs

/-- Blanks, line breaks and comments are passed over. -/
def skipGap : Reading Unit := do
  moveTo (gapEnd false (← get).rest)

/-- Whether nothing of the document is left. -/
def Place.atEnd (p : Place) : Bool :=
  p.rest.isEmpty || (p.column = 0 && atMarker p.rest)

/-- Whether a mark with a blank behind it comes next. -/
def isMark (mark : Char) : List Char → Bool
  | c :: cs => c = mark && atBlank cs
  | [] => false

/-! ## Anchors, tags and keys -/

/-- A name behind a mark, up to a blank or the end of an item. -/
def nameEnd (cs : List Char) : List Char :=
  cs.dropWhile fun c => !(c = ' ' || c = '\t' || c = '\n' || isFlowMark c)

/-- The characters of a name behind a mark. -/
def nameOf (cs : List Char) : String :=
  String.ofList (cs.take (cs.length - (nameEnd cs).length))

/-- What is said about a node in front of it. -/
structure Properties where
  anchor : Option String
  tag : Option String

/-- The properties in front of a node.  Every one takes a character. -/
def properties : (fuel : Nat) → Properties → List Char → Properties × List Char
  | 0, p, cs => (p, cs)
  | fuel + 1, p, cs =>
    match cs with
    | '&' :: cs =>
      properties fuel { p with anchor := some (nameOf cs) } (gapEnd false (nameEnd cs))
    | '!' :: cs =>
      properties fuel { p with tag := some (nameOf ('!' :: cs)) } (gapEnd false (nameEnd cs))
    | cs => (p, cs)

/-- A node under its anchor. -/
def anchored (p : Properties) (v : ConfigValue) : Reading ConfigValue := do
  match p.anchor with
  | none => return v
  | some name =>
    modify fun s => { s with anchors := (name, v) :: s.anchors }
    return v

/-- The key that a node is. -/
def keyOf? : ConfigValue → Option String
  | .text s => some s
  | .int i => some (String.ofList (Decimal.intText i))
  | _ => none

/-- A scalar on one line with a colon behind it: the key that it is, and what is
behind the colon. -/
def keyInFront? (cs : List Char) : Option (String × List Char) := do
  let behind (found : ConfigValue) (cs : List Char) : Option (String × List Char) :=
    let cs := cs.dropWhile fun c => c = ' ' || c = '\t'
    if atColon false cs then (keyOf? found).map (·, cs.drop 1) else none
  match quoted cs with
  | some (s, rest) => behind (.text s) rest
  | none =>
    let (body, rest) ← plain ⟨false, none⟩ 1 cs
    behind (← untagged body) rest

/-- The node under an anchor. -/
def repeated (cs : List Char) : Reading ConfigValue := do
  moveTo (nameEnd cs)
  (← get).anchors.lookup (nameOf cs)

/-! ## Nodes -/

/-- A block scalar behind its mark. -/
def block (folded : Bool) (cs : List Char) (least : Nat) : Reading ConfigValue := do
  let (body, rest) := blockText folded least cs
  modify fun p => { p with column := 0, rest }
  return .text (String.ofList body)

mutual

/-- A node that begins in the column `least` or behind it, or a list that begins in
`leastForList` or behind it; nothing if the next line belongs to something else. -/
def node : (fuel : Nat) → (least leastForList : Nat) → Reading ConfigValue
  | 0, _, _ => failure
  | fuel + 1, least, leastForList => do
    skipGap
    let start ← get
    let allowed := if isMark '-' start.rest then leastForList else least
    if start.atEnd || start.column < allowed then return .nothing
    let (p, rest) := properties start.rest.length ⟨none, none⟩ start.rest
    -- What is said in front of a key on the same line is said of the key.
    let said := start.rest.take (start.rest.length - rest.length)
    let aboutKey := !said.isEmpty && !said.contains '\n' && (keyInFront? rest).isSome
    moveTo rest
    let here ← get
    if here.atEnd || here.column < (if isMark '-' rest then leastForList else least) then
      anchored p .nothing
    else if aboutKey then entries fuel start.column []
    else anchored p (← content fuel least p.tag)

/-- What a node consists of, behind its properties. -/
def content : (fuel : Nat) → (least : Nat) → (tag : Option String) → Reading ConfigValue
  | 0, _, _ => failure
  | fuel + 1, least, tag => do
    let here ← get
    if isMark '-' here.rest then return .list (← list fuel here.column)
    else if isMark '?' here.rest || (keyInFront? here.rest).isSome then
      entries fuel here.column []
    else
      match here.rest with
      | '*' :: cs => repeated cs
      | '|' :: cs => block false cs least
      | '>' :: cs => block true cs least
      | _ => inline fuel ⟨false, some least⟩ tag

/-- The items of a list in a block, each behind a mark in the same column. -/
def list : (fuel : Nat) → (column : Nat) → Reading (List ConfigValue)
  | 0, _ => failure
  | fuel + 1, column => do
    moveTo ((← get).rest.drop 1)
    let x ← node fuel (column + 1) (column + 1)
    skipGap
    let here ← get
    if here.column = column && isMark '-' here.rest && !here.atEnd then
      return x :: (← list fuel column)
    else return [x]

/-- The entries of a table in a block, each in the same column, behind those that
have been read. -/
def entries : (fuel : Nat) → (column : Nat) → ConfigEntries → Reading ConfigValue
  | 0, _, _ => failure
  | fuel + 1, column, es => do
    let here ← get
    if isMark '?' here.rest then
      moveTo (here.rest.drop 1)
      let key ← keyOf? (← node fuel (column + 1) (column + 1))
      skipGap
      let here ← get
      if here.column = column && isMark ':' here.rest then
        moveTo (here.rest.drop 1)
        moreEntries fuel column (ConfigValue.put key (← node fuel (column + 1) column) es)
      else moreEntries fuel column (ConfigValue.put key .nothing es)
    else
      let (_, rest) := properties here.rest.length ⟨none, none⟩ here.rest
      let (key, rest) ← keyInFront? rest
      moveTo rest
      moreEntries fuel column (ConfigValue.put key (← node fuel (column + 1) column) es)

/-- The entries of a table in a block that are left. -/
def moreEntries : (fuel : Nat) → (column : Nat) → ConfigEntries → Reading ConfigValue
  | 0, _, _ => failure
  | fuel + 1, column, es => do
    skipGap
    let here ← get
    if here.column = column && !here.atEnd then entries fuel column es
    else return .table es

/-- A scalar, or a collection in a row. -/
def inline : (fuel : Nat) → PlainLimits → (tag : Option String) → Reading ConfigValue
  | 0, _, _ => failure
  | fuel + 1, limits, tag => do
    let here ← get
    match here.rest with
    | '[' :: cs =>
      moveTo cs
      return .list (← rowItems fuel)
    | '\x7b' :: cs =>
      moveTo cs
      return .table (← rowEntries fuel [])
    | cs =>
      match quoted cs with
      | some (s, rest) =>
        moveTo rest
        return .text s
      | none =>
        let (body, rest) ← plain limits here.column cs
        moveTo rest
        resolve tag body

/-- A node in a collection in a row; nothing if the item ends here. -/
def rowNode : (fuel : Nat) → Reading ConfigValue
  | 0 => failure
  | fuel + 1 => do
    skipGap
    let start ← get
    let (p, rest) := properties start.rest.length ⟨none, none⟩ start.rest
    moveTo rest
    match rest with
    | [] => failure
    | '*' :: cs => repeated cs
    | c :: _ =>
      if c = ',' || c = ']' || c = '\x7d' || atColon true rest then anchored p .nothing
      else anchored p (← inline fuel ⟨true, some 0⟩ p.tag)

/-- The value of an entry in a row, if a colon is in front of it. -/
def rowValue : (fuel : Nat) → Reading (Option ConfigValue)
  | 0 => failure
  | fuel + 1 => do
    skipGap
    match (← get).rest with
    | ':' :: cs =>
      moveTo cs
      return some (← rowNode fuel)
    | _ => return none

/-- The items of a list in a row; an entry among them is a table of its own. -/
def rowItems : (fuel : Nat) → Reading (List ConfigValue)
  | 0 => failure
  | fuel + 1 => do
    skipGap
    match (← get).rest with
    | ']' :: cs =>
      moveTo cs
      return []
    | cs =>
      if isMark '?' cs then moveTo (cs.drop 1)
      let x ← rowNode fuel
      let x ← do
        match ← rowValue fuel with
        | none => pure x
        | some v => pure (.table [(← keyOf? x, v)])
      skipGap
      match (← get).rest with
      | ',' :: cs =>
        moveTo cs
        return x :: (← rowItems fuel)
      | ']' :: cs =>
        moveTo cs
        return [x]
      | _ => failure

/-- The entries of a table in a row behind those that have been read. -/
def rowEntries : (fuel : Nat) → ConfigEntries → Reading ConfigEntries
  | 0, _ => failure
  | fuel + 1, es => do
    skipGap
    match (← get).rest with
    | '\x7d' :: cs =>
      moveTo cs
      return es
    | cs =>
      if isMark '?' cs then moveTo (cs.drop 1)
      let key ← keyOf? (← rowNode fuel)
      let v := (← rowValue fuel).getD .nothing
      let es := ConfigValue.put key v es
      skipGap
      match (← get).rest with
      | ',' :: cs =>
        moveTo cs
        rowEntries fuel es
      | '\x7d' :: cs =>
        moveTo cs
        return es
      | _ => failure

end

/-! ## Documents -/

/-- The documents of a file.  Every document takes a character.  The anchors of one
are not known in the next. -/
def documents : (fuel : Nat) → Place → Option (List ConfigValue)
  | 0, _ => none
  | fuel + 1, p =>
    let p := p.moved (gapEnd false p.rest)
    match p.rest with
    | [] => some []
    | '%' :: cs => documents fuel (p.moved (Text.fromBreak cs))
    | '.' :: '.' :: '.' :: cs => documents fuel (p.moved cs)
    | cs => do
      let start := if p.column = 0 && atMarker cs then p.moved (cs.drop 3) else p
      let reading : Reading ConfigValue := do
        let v ← node (2 * cs.length + 4) 0 0
        skipGap
        return v
      let (v, behind) ← reading.run { start with anchors := [] }
      if behind.atEnd then return v :: (← documents fuel behind) else none

/-- The entries of a file, or `none` if it is not one. -/
def parse (cs : List Char) : Option ConfigEntries :=
  match documents (cs.length + 2) ⟨0, Text.withPlainBreaks cs, []⟩ with
  | some [] => some []
  | some [.table es] => some es
  | _ => none

end Yaml
end Tool
end WireSchema
