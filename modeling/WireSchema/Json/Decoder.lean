import WireSchema.Json.Reader

/-!
# Decoders: one description, two ways to read

A part of a schema document is read in one of two ways.  Where its shape is
certain it is read straight from the characters, and the first thing that is
wrong is reported with its path.  Where it could be one of two things --- a type
name or a definition in place --- the value is read first without asking for a
shape, and then its tree is tried; a tree that does not fit is reported as a
whole.  A `Decoder` holds both ways, and every combinator below builds both from
the same description, so that the two cannot disagree about a shape.

## Records

A record is an object whose members have names, or a list of the members in
order.  Keys that name no member are passed over, a member given twice is a
fault, and members at the end of a list may be missing if they have a fallback.
Only the text is strict about what follows the members of a list: a tree with too
many is refused as well, but in other words.

## Choices

A choice is an object with a single key, the name of a case, above the payload of
that case; or the bare name, which fits only cases without any payload.
-/

namespace WireSchema
namespace Json

/-- Two ways to read a part of a document: from its characters, and from its
tree. -/
structure Decoder (α : Type) where
  read : Reader α
  ofTree : Json → Except Cause α

namespace Decoder

variable {α β γ δ ε : Type}

/-- The sort of a value, as a mismatch reports it. -/
def foundIn : Json → Found
  | .null => .null
  | .bool b => .bool b
  | .int i => .int i
  | .float x => .float x
  | .text s => .text s
  | .list _ => .list
  | .object _ => .object

/-- The cause that is reported where a value of another sort was wanted.  A word,
number or text is read to the end first, and may itself be wrong; a container is
not entered. -/
def mismatchAt (wanted : Wanted) (cs : List Char) : Cause :=
  match cs with
  | '[' :: _ => .mismatch .list wanted
  | '\x7b' :: _ => .mismatch .object wanted
  | _ =>
    match scalar cs with
    | .ok (j, _) => .mismatch (foundIn j) wanted
    | .error cause => cause

/-- A value without containers, taken from its first character if `starts` allows
it and refused otherwise. -/
def readScalar (starts : Char → Bool) (wanted : Wanted) (take : Json → Except Cause α) :
    Reader α := fun _ cs =>
  match skipBlanks cs with
  | [] => .error (Cause.unfinished .value).here
  | c :: rest =>
    if starts c then Scan.here (fun cs => do
      let (j, rest) ← scalar cs
      return (← take j, rest)) (c :: rest)
    else .error (mismatchAt wanted (c :: rest)).here

/-! ## Plain values -/

/-- A truth value from its tree. -/
def boolOfTree : Json → Except Cause Bool
  | .bool b => .ok b
  | j => .error (.mismatch (foundIn j) .bool)

/-- A truth value. -/
def bool : Decoder Bool where
  read := readScalar (fun c => c = 't' || c = 'f') .bool boolOfTree
  ofTree := boolOfTree

/-- A text from its tree. -/
def textOfTree : Json → Except Cause String
  | .text s => .ok s
  | j => .error (.mismatch (foundIn j) .text)

/-- A text. -/
def text : Decoder String where
  read := readScalar (fun c => c = '"') .text textOfTree
  ofTree := textOfTree

/-- A whole number between two bounds from its tree. -/
def wholeOfTree (wanted : Wanted) (least greatest : Int) : Json → Except Cause Int
  | .int i => if least ≤ i ∧ i ≤ greatest then .ok i else .error (.outOfRange i wanted)
  | j => .error (.mismatch (foundIn j) wanted)

/-- A whole number between two bounds. -/
def whole (wanted : Wanted) (least greatest : Int) : Decoder Int where
  read := readScalar (fun c => c = '-' || c.isDigit) wanted (wholeOfTree wanted least greatest)
  ofTree := wholeOfTree wanted least greatest

/-- A whole number of sixty-four bits with a sign. -/
def signed : Decoder Int :=
  whole .signed Numeral.minInt64 Numeral.maxInt64

/-- The same part of a document taken for something else. -/
def map (f : α → β) (d : Decoder α) : Decoder β where
  read budget cs := do
    let (x, rest) ← d.read budget cs
    return (f x, rest)
  ofTree j := (d.ofTree j).map f

/-- A natural number of sixty-four bits. -/
def size : Decoder Nat :=
  (whole .size 0 Numeral.maxNat64).map Int.toNat

/-- A part that `null` stands for the absence of. -/
def optional (d : Decoder α) : Decoder (Option α) where
  read budget cs :=
    match skipBlanks cs with
    | 'n' :: rest => do
      let rest ← (expectWord ['u', 'l', 'l'] rest).mapError Cause.here
      return (none, rest)
    | rest => do
      let (x, rest) ← d.read budget rest
      return (some x, rest)
  ofTree
    | .null => .ok none
    | j => (d.ofTree j).map some

/-! ## Lists and entries -/

/-- A list of parts. -/
def list (d : Decoder α) : Decoder (List α) where
  read budget cs :=
    match skipBlanks cs, budget with
    | [], _ => .error (Cause.unfinished .value).here
    | '[' :: _, 0 => .error Cause.tooDeep.here
    | '[' :: rest, budget + 1 => listBody (d.read budget) rest
    | rest, _ => .error (mismatchAt .list rest).here
  ofTree
    | .list xs => xs.mapM d.ofTree
    | j => .error (.mismatch (foundIn j) .list)

/-- An object read by a loop over its entries. -/
def readObject (body : Nat → PathScan α) : Reader α := fun budget cs =>
  match skipBlanks cs, budget with
  | [], _ => .error (Cause.unfinished .value).here
  | '\x7b' :: _, 0 => .error Cause.tooDeep.here
  | '\x7b' :: rest, budget + 1 => body budget rest
  | rest, _ => .error (mismatchAt .object rest).here

/-- The parts of an object under any keys, in order and with repetitions. -/
def entries (d : Decoder α) : Decoder (List (String × α)) where
  read := readObject fun budget => entriesBody (d.read budget)
  ofTree
    | .object es => es.mapM fun (key, j) => return (key, ← d.ofTree j)
    | j => .error (.mismatch (foundIn j) .object)

/-- The value that belongs to a name. -/
def caseOf (cases : List (String × α)) (name : String) : Except Cause α :=
  match cases.lookup name with
  | some x => .ok x
  | none => .error (.unknownCase name (cases.map Prod.fst))

/-- The parts of an object whose keys are taken from a list of names.  Such a key
does not show in the path of its value. -/
def entriesUnder (keys : List (String × β)) (d : Decoder α) : Decoder (List (β × α)) where
  read := readObject fun budget cs => do
    let enter (acc : List (β × α)) (name : String) : Except Fault (Entry (List (β × α))) := do
      let key ← (caseOf keys name).mapError fun cause => cause.here.within .unknown
      return ⟨.unknown, fun cs => do
        let (x, rest) ← d.read budget cs
        return ((key, x) :: acc, rest)⟩
    let (acc, rest) ← objectBody [] enter cs
    return (acc.reverse, rest)
  ofTree
    | .object es => es.mapM fun (name, j) => return (← caseOf keys name, ← d.ofTree j)
    | j => .error (.mismatch (foundIn j) .object)

/-! ## Records -/

/-- A member of a record: its key, whether it has been given, and how its value
is taken into account. -/
structure Slot (σ : Type) where
  name : String
  isFilled : σ → Bool
  fill : Decoder (σ → σ)

/-- A record: its name in messages, its members in order, and what is made of
them, or the name of the first one missing. -/
structure Shape (σ α : Type) where
  name : String
  slots : List (Slot σ)
  start : σ
  finish : σ → Except String α

namespace Shape

variable {σ : Type}

/-- What to do with the value under a key of a record. -/
def enter (shape : Shape σ α) (budget : Nat) (acc : σ) (key : String) :
    Except Fault (Entry σ) :=
  match shape.slots.find? (fun slot => slot.name = key) with
  | none => .ok ⟨.key key, fun cs =>
      (skipValue cs).mapError Cause.here |>.map fun rest => (acc, rest)⟩
  | some slot =>
    if slot.isFilled acc then .error (Cause.repeatedMember key).here
    else .ok ⟨.key key, fun cs => do
      let (set, rest) ← slot.fill.read budget cs
      return (set acc, rest)⟩

/-- The members of a record given in order, from position `i` on, and how many
were given in all. -/
def positional (budget : Nat) : List (Slot σ) → (i : Nat) → σ → PathScan (σ × Nat)
  | [], i, acc, cs => .ok ((acc, i), cs)
  | slot :: slots, i, acc, cs =>
    match nextItem (i == 0) cs with
    | .error cause => .error cause.here
    | .ok none => .ok ((acc, i), cs)
    | .ok (some rest) => do
      let (set, rest) ← PathScan.within (.index i) (slot.fill.read budget) rest
      positional budget slots (i + 1) (set acc) rest

/-- A record from its characters. -/
def read (shape : Shape σ α) : Reader α := fun budget cs =>
  match skipBlanks cs, budget with
  | [], _ => .error (Cause.unfinished .value).here
  | '[' :: _, 0 => .error Cause.tooDeep.here
  | '\x7b' :: _, 0 => .error Cause.tooDeep.here
  | '[' :: rest, budget + 1 => do
    let ((acc, count), rest) ← positional budget shape.slots 0 shape.start rest
    match shape.finish acc with
    | .ok x => return (x, ← (closeList rest).mapError Cause.here)
    | .error _ => throw (Cause.tooShort count shape.name shape.slots.length).here
  | '\x7b' :: rest, budget + 1 => do
    let (acc, rest) ← byKey shape budget rest
    match shape.finish acc with
    | .ok x => return (x, rest)
    | .error name => throw (Cause.missingMember name).here
  | rest, _ => .error (mismatchAt (.record shape.name) rest).here
where
  /-- The members of a record given by key. -/
  byKey (shape : Shape σ α) (budget : Nat) : PathScan σ :=
    objectBody shape.start (shape.enter budget)

/-- The entries of a tree taken into account one by one. -/
def fillByKey (shape : Shape σ α) : σ → List (String × Json) → Except Cause σ
  | acc, [] => .ok acc
  | acc, (key, j) :: rest =>
    match shape.slots.find? (fun slot => slot.name = key) with
    | none => fillByKey shape acc rest
    | some slot =>
      if slot.isFilled acc then .error (.repeatedMember key)
      else do
        let set ← slot.fill.ofTree j
        fillByKey shape (set acc) rest

/-- The items of a tree taken into account in order, and those that are left. -/
def fillInOrder : List (Slot σ) → σ → List Json → Except Cause (σ × List Json)
  | slot :: slots, acc, j :: rest => do
    let set ← slot.fill.ofTree j
    fillInOrder slots (set acc) rest
  | _, acc, rest => .ok (acc, rest)

/-- A record from its tree. -/
def ofTree (shape : Shape σ α) : Json → Except Cause α
  | .object es => do
    match shape.finish (← shape.fillByKey shape.start es) with
    | .ok x => return x
    | .error name => throw (.missingMember name)
  | .list xs => do
    let (acc, left) ← fillInOrder shape.slots shape.start xs
    match shape.finish acc with
    | .ok x => if left.isEmpty then return x else throw (.tooLong xs.length)
    | .error _ => throw (.tooShort xs.length shape.name shape.slots.length)
  | j => .error (.mismatch (foundIn j) (.record shape.name))

end Shape

/-- The decoder of a record. -/
def ofShape {σ : Type} (shape : Shape σ α) : Decoder α where
  read := shape.read
  ofTree := shape.ofTree

/-- A member of a record: its key, its value, and the value of a member that is
not given; a member without such a value is required. -/
structure Member (α : Type) where
  name : String
  decoder : Decoder α
  fallback : Option α

/-- A member that has to be given. -/
def required (name : String) (d : Decoder α) : Member α :=
  ⟨name, d, none⟩

/-- A member that stands for a value when it is not given. -/
def defaulted (name : String) (d : Decoder α) (fallback : α) : Member α :=
  ⟨name, d, some fallback⟩

/-- A member that may be absent. -/
def absentable (name : String) (d : Decoder α) : Member (Option α) :=
  ⟨name, d.optional, some none⟩

/-- The value of a member, or its name if it is required and was not given. -/
def Member.get (m : Member α) (given : Option α) : Except String α :=
  match given, m.fallback with
  | some x, _ => .ok x
  | none, some x => .ok x
  | none, none => .error m.name

/-- The slot of a member, from how it is looked up and set. -/
def Member.slot {σ : Type} (m : Member α) (get : σ → Option α) (set : α → σ → σ) : Slot σ :=
  ⟨m.name, fun acc => (get acc).isSome, m.decoder.map set⟩

/-- A record with one member. -/
def record1 (name : String) (a : Member α) (make : α → β) : Decoder β :=
  ofShape (σ := Option α)
    { name
      slots := [a.slot id fun x _ => some x]
      start := none
      finish := fun x => return make (← a.get x) }

/-- A record with two members. -/
def record2 (name : String) (a : Member α) (b : Member β) (make : α → β → γ) : Decoder γ :=
  ofShape (σ := Option α × Option β)
    { name
      slots :=
        [a.slot (·.1) fun x acc => (some x, acc.2),
         b.slot (·.2) fun y acc => (acc.1, some y)]
      start := (none, none)
      finish := fun (x, y) => return make (← a.get x) (← b.get y) }

/-- A record with three members. -/
def record3 (name : String) (a : Member α) (b : Member β) (c : Member γ)
    (make : α → β → γ → δ) : Decoder δ :=
  ofShape (σ := Option α × Option β × Option γ)
    { name
      slots :=
        [a.slot (·.1) fun x acc => (some x, acc.2),
         b.slot (·.2.1) fun y acc => (acc.1, some y, acc.2.2),
         c.slot (·.2.2) fun z acc => (acc.1, acc.2.1, some z)]
      start := (none, none, none)
      finish := fun (x, y, z) => return make (← a.get x) (← b.get y) (← c.get z) }

/-- A record with four members. -/
def record4 (name : String) (a : Member α) (b : Member β) (c : Member γ) (d : Member δ)
    (make : α → β → γ → δ → ε) : Decoder ε :=
  ofShape (σ := Option α × Option β × Option γ × Option δ)
    { name
      slots :=
        [a.slot (·.1) fun x acc => (some x, acc.2),
         b.slot (·.2.1) fun y acc => (acc.1, some y, acc.2.2),
         c.slot (·.2.2.1) fun z acc => (acc.1, acc.2.1, some z, acc.2.2.2),
         d.slot (·.2.2.2) fun w acc => (acc.1, acc.2.1, acc.2.2.1, some w)]
      start := (none, none, none, none)
      finish := fun (x, y, z, w) =>
        return make (← a.get x) (← b.get y) (← c.get z) (← d.get w) }

/-! ## Choices -/

/-- What stands under the name of a case. -/
inductive Payload (α : Type) where
  /-- Something to be read. -/
  | of (d : Decoder α)
  /-- A record without members, under the name of the case in messages. -/
  | empty (caseName : String) (value : α)
  /-- Nothing: `null`, or the bare name. -/
  | none (value : α)

/-- The shape of a record without members. -/
def emptyShape (value : α) : Shape Unit α :=
  ⟨"", [], (), fun _ => .ok value⟩

/-- A record without members, where a case of a choice wants one. -/
def emptyPayload (choice caseName : String) (value : α) : Decoder α where
  read budget cs :=
    match skipBlanks cs with
    | '[' :: _ => (emptyShape value).read budget cs
    | '\x7b' :: _ => (emptyShape value).read budget cs
    | [] => .error (Cause.unfinished .value).here
    | rest => .error (mismatchAt (.emptyPayload choice caseName) rest).here
  ofTree
    | .list xs => (emptyShape value).ofTree (.list xs)
    | .object es => (emptyShape value).ofTree (.object es)
    | j => .error (.mismatch (foundIn j) (.emptyPayload choice caseName))

/-- The word `null` and what it stands for. -/
def nullOfTree (value : α) : Json → Except Cause α
  | .null => .ok value
  | j => .error (.mismatch (foundIn j) .null)

/-- The decoder of a payload. -/
def Payload.decoder (choice : String) : Payload α → Decoder α
  | .of d => d
  | .empty caseName value => emptyPayload choice caseName value
  | .none value => ⟨readScalar (fun c => c = 'n') .null (nullOfTree value), nullOfTree value⟩

/-- What the bare name of a case stands for. -/
def Payload.bare : Payload α → Except Cause α
  | .of _ => .error (.mismatch .bareCase .caseWithPayload)
  | .empty _ _ => .error (.mismatch .bareCase .caseWithMembers)
  | .none value => .ok value

/-- A choice from its characters. -/
def readChoice (choice : String) (cases : List (String × Payload α)) : Reader α :=
  fun budget cs =>
    match skipBlanks cs, budget with
    | [], _ => .error (Cause.unfinished .value).here
    | '\x7b' :: _, 0 => .error Cause.tooDeep.here
    | '\x7b' :: rest, budget + 1 => do
      let (name, rest) ← caseKey rest
      let payload ← (caseOf cases name).mapError Cause.here
      let rest ← (colon rest).mapError Cause.here
      let (x, rest) ← PathScan.within (.key name) ((payload.decoder choice).read budget) rest
      match skipBlanks rest with
      | '\x7d' :: rest => return (x, rest)
      | [] => throw (Cause.unfinished .object).here
      | _ => throw Cause.expectedValue.here
    | '"' :: rest, _ => do
      let (name, rest) ← Scan.here scanText rest
      let payload ← (caseOf cases name).mapError Cause.here
      let x ← payload.bare.mapError fun cause => cause.here.within (.key name)
      return (x, rest)
    | _, _ => .error Cause.expectedValue.here
where
  /-- The key that names the case.  An object without a key is no choice at all. -/
  caseKey : PathScan String := fun cs =>
    match skipBlanks cs with
    | '"' :: rest => Scan.here scanText rest
    | '\x7d' :: _ => .error Cause.expectedValue.here
    | [] => .error (Cause.unfinished .object).here
    | _ => .error Cause.keyNotText.here

/-- A choice from its tree. -/
def choiceOfTree (choice : String) (cases : List (String × Payload α)) : Json → Except Cause α
  | .object [(name, j)] => do ((← caseOf cases name).decoder choice).ofTree j
  | .text name => do (← caseOf cases name).bare
  | _ => .error .expectedValue

/-- A choice between named cases. -/
def choice (name : String) (cases : List (String × Payload α)) : Decoder α where
  read := readChoice name cases
  ofTree := choiceOfTree name cases

/-! ## Parts that could be several things -/

/-- A part whose shape shows only in its tree: it is read without asking for a
shape, and refused as a whole if no alternative fits. -/
def untagged (name : String) (fits : Json → Option α) : Decoder α where
  read budget cs := do
    let (j, rest) ← value budget cs
    match fits j with
    | some x => return (x, rest)
    | none => throw (Cause.noAlternative name).here
  ofTree j :=
    match fits j with
    | some x => .ok x
    | none => .error (.noAlternative name)

end Decoder

/-- What a text says according to a decoder. -/
def decode {α : Type} (d : Decoder α) (text : String) : Except Fault α :=
  document d.read text

end Json
end WireSchema
