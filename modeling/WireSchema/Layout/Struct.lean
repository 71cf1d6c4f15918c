import WireSchema.Fault
import WireSchema.TypeSystem.Body

/-!
# Layouts of maps and structs

A declared representation is checked against the definition it belongs to and made
into a layout: details that say nothing are dropped and a missing field order
becomes the declared one.

The faults of a representation and its layout are two functions.  Neither looks
at the other: the faults are all that is wrong, in the order in which they are
reported, and the layout is what is compiled if nothing is.
-/

namespace WireSchema

/-- The elements of a list that have occurred before, each time they do.
`before` is what came earlier. -/
def repeatsAfter {α : Type} [DecidableEq α] (before : List α) : List α → List α
  | [] => []
  | x :: xs => if x ∈ before then x :: repeatsAfter before xs else repeatsAfter (x :: before) xs

/-- The elements of a list that have occurred before, each time they do. -/
def repeats {α : Type} [DecidableEq α] (xs : List α) : List α :=
  repeatsAfter [] xs

/-- The elements of a list, each only the first time.  `before` is what came
earlier. -/
def firstsAfter {α : Type} [DecidableEq α] (before : List α) : List α → List α
  | [] => []
  | x :: xs => if x ∈ before then firstsAfter before xs else x :: firstsAfter (x :: before) xs

/-- The elements of a list, each only the first time. -/
def firsts {α : Type} [DecidableEq α] (xs : List α) : List α :=
  firstsAfter [] xs

/-! ## Delimiters and maps -/

/-- What is wrong with delimiters of pairs: either is empty, or they are
equal. -/
def PairDelimiters.faults (d : PairDelimiters) : List ConfigFault :=
  (if d.inner = "" then [.emptyInnerDelimiter] else []) ++
  (if d.entry = "" then [.emptyEntryDelimiter] else []) ++
  (if d.inner ≠ "" ∧ d.inner = d.entry then [.sameDelimiters d.inner] else [])

/-- What is wrong with a map representation.  It is its own layout. -/
def MapRepresentation.faults : MapRepresentation → List ConfigFault
  | .stringPairs d => d.faults
  | _ => []

/-! ## Details of the fields of a map -/

/-- Whether the first field of a name may be absent. -/
def isOptionalIn (fields : List Field) (name : FieldName) : Bool :=
  match fields.find? fun f => f.name = name with
  | some f => f.optional
  | none => false

/-- What is wrong with the details of one field that is declared and has no
details yet. -/
def FieldDetails.faults (fields : List Field) (name : FieldName) (d : FieldDetails) :
    List ConfigFault :=
  (if d.rename = some "" then [.emptyRename name] else []) ++
  (if d.implicit.isSome ∧ isOptionalIn fields name then [.optionalImplicit name] else [])

/-- What is wrong with a list of details.  `before` are the declared fields that
had details already. -/
def detailFaults (fields : List Field) (before : List FieldName) :
    List (FieldName × FieldDetails) → List ConfigFault
  | [] => []
  | (name, d) :: rest =>
    if name ∉ fields.map Field.name then
      .undeclaredDetails name :: detailFaults fields before rest
    else if name ∈ before then
      .repeatedDetails name :: detailFaults fields before rest
    else
      d.faults fields name ++ detailFaults fields (name :: before) rest

/-- The first details of each declared field, as far as they say something, added
to a table. -/
def detailTable (declared before : List FieldName) (table : Table FieldName FieldDetails) :
    List (FieldName × FieldDetails) → Table FieldName FieldDetails
  | [] => table
  | (name, d) :: rest =>
    if name ∉ declared ∨ name ∈ before then detailTable declared before table rest
    else
      detailTable declared (name :: before)
        (if d.isVoid then table else table.insert name d) rest

/-- The details of a representation; none if there are no entries at all. -/
def compiledDetails (declared : List FieldName)
    (details : Option (Entries FieldName FieldDetails)) : Table FieldName FieldDetails :=
  match details with
  | none => ∅
  | some es => detailTable declared [] ∅ es.toList

/-! ## Field orders -/

/-- What is wrong with the entries of a field order: names of no field, and
repetitions. -/
def orderEntryFaults (declared before : List FieldName) : List FieldName → List ConfigFault
  | [] => []
  | name :: rest =>
    if name ∉ declared then .orderUndeclared name :: orderEntryFaults declared before rest
    else if name ∈ before then .orderRepeated name :: orderEntryFaults declared before rest
    else orderEntryFaults declared (name :: before) rest

/-- What is wrong with a field order: it has to be a rearrangement of the
declared fields, and may only be empty if there are none. -/
def orderFaults (declared : List FieldName) : Option (List FieldName) → List ConfigFault
  | none => []
  | some order =>
    if order = [] ∧ declared ≠ [] then [.emptyFieldOrder]
    else
      orderEntryFaults declared [] order ++
        (declared.filter fun name => decide (name ∉ order)).map .orderOmits

/-! ## Structs -/

namespace StructRepresentation

/-- The layout of a struct with these fields. -/
def layout (fields : List Field) : StructRepresentation → StructLayout
  | .map details => .map (compiledDetails (fields.map Field.name) details)
  | .tuple order => .tuple (order.getD (fields.map Field.name))
  | .stringPairs d => .stringPairs d
  | .stringJoin join order => .stringJoin join (order.getD (fields.map Field.name))
  | .listPairs => .listPairs

/-- What is wrong with the representation of a struct with these fields.  Two
fields of one name are no fault here: the struct itself reports them. -/
def faults (fields : List Field) (representation : StructRepresentation) : List ConfigFault :=
  let declared := fields.map Field.name
  match representation with
  | .map details =>
      let layout := StructLayout.map (compiledDetails declared details)
      (match details with
        | none => []
        | some es => detailFaults fields [] es.toList) ++
      (repeats ((firsts declared).map layout.wireName)).map .repeatedWireName
  | .tuple order => orderFaults declared order
  | .stringPairs d => d.faults
  | .stringJoin join order =>
      (if join = "" then [.emptyJoin] else []) ++ orderFaults declared order
  | .listPairs => []

end StructRepresentation

/-- What is wrong with the names of fields: one is empty, or has been declared
before. -/
def fieldNameFaults (before : List FieldName) : List FieldName → List ConfigFault
  | [] => []
  | name :: rest =>
    if name = "" then .emptyField :: fieldNameFaults before rest
    else if name ∈ before then .repeatedField name :: fieldNameFaults before rest
    else fieldNameFaults (name :: before) rest

end WireSchema
