import WireSchema.Declaration.Canonical
import WireSchema.Json.Decoder

/-!
# Schema documents

The form in which declarations are written down: one JSON object per definition,
keyed by its sort.  Writing is a function on the tree of declarations; reading is
a decoder for each of its parts.

## What writing leaves out

Only members that are absent are left out.  A flag that is off, a default
representation and an empty table are written, so the text of a declaration says
everything about it, and its digest can stand for it.

## How deep reading goes

A reference can hold a definition, so the decoder of definitions would refer to
itself.  Documents nest at most `Json.nestingLimit` containers, and a definition
opens at least one before it comes to the next; unfolding the decoder that often
covers every document.
-/

namespace WireSchema

open Json (Decoder)
open Json.Decoder (Payload record1 record2 record3 record4 required defaulted absentable)

/-! ## Writing -/

/-- The members of an object of which some may be absent. -/
def present (members : List (String × Option Json)) : Json :=
  .object (members.filterMap fun m => m.2.map fun j => (m.1, j))

/-- An object with a single key. -/
def caseObject (name : String) (payload : Json) : Json :=
  .object [(name, payload)]

/-- A list of texts. -/
def textsJson (texts : List String) : Json :=
  .list (texts.map .text)

namespace ImplicitValue

/-- The written form of an implicit value. -/
def toJson : ImplicitValue → Json
  | .bool b => .bool b
  | .int i => .int i
  | .float x => .float x
  | .string s => .text s

end ImplicitValue

/-- The written form of entries. -/
def Entries.toJson {κ ν : Type} (key : κ → String) (value : ν → Json) (es : Entries κ ν) : Json :=
  .object (es.toList.map fun e => (key e.1, value e.2))

/-- The written form of a table from names to names. -/
def namesJson (es : Entries String String) : Json :=
  es.toJson id .text

/-- The written form of a table from names to whole numbers. -/
def numbersJson (es : Entries String Int) : Json :=
  es.toJson id .int

/-- The written form of the delimiters of pairs. -/
def PairDelimiters.toJson (d : PairDelimiters) : Json :=
  .object [("innerDelim", .text d.inner), ("entryDelim", .text d.entry)]

/-- The written form of the details of a field. -/
def FieldDetails.toJson (d : FieldDetails) : Json :=
  present [("rename", d.rename.map .text), ("implicit", d.implicit.map ImplicitValue.toJson)]

/-- The written form of a map representation. -/
def MapRepresentation.toJson : MapRepresentation → Json
  | .map => caseObject "map" (.object [])
  | .listPairs => caseObject "listpairs" (.object [])
  | .stringPairs d => caseObject "stringpairs" d.toJson

/-- The written form of a struct representation. -/
def StructRepresentation.toJson : StructRepresentation → Json
  | .map details => caseObject "map" <|
      present [("fields", details.map (Entries.toJson id FieldDetails.toJson))]
  | .tuple order => caseObject "tuple" (present [("fieldOrder", order.map textsJson)])
  | .stringPairs d => caseObject "stringpairs" d.toJson
  | .stringJoin join order => caseObject "stringjoin" <|
      present [("join", some (.text join)), ("fieldOrder", order.map textsJson)]
  | .listPairs => caseObject "listpairs" (.object [])

/-- The written form of a union representation. -/
def UnionRepresentation.toJson : UnionRepresentation → Json
  | .keyed table => caseObject "keyed" (namesJson table)
  | .kinded table => caseObject "kinded" (table.toJson Kind.name .text)
  | .envelope discriminantKey contentKey table => caseObject "envelope" <|
      .object [("discriminantKey", .text discriminantKey), ("contentKey", .text contentKey),
        ("discriminantTable", namesJson table)]
  | .inline discriminantKey table => caseObject "inline" <|
      .object [("discriminantKey", .text discriminantKey), ("discriminantTable", namesJson table)]
  | .stringPrefix table =>
      caseObject "stringprefix" (.object [("discriminantTable", namesJson table)])
  | .bytePrefix table =>
      caseObject "byteprefix" (.object [("discriminantTable", numbersJson table)])

/-- The written form of an enum representation. -/
def EnumRepresentation.toJson : EnumRepresentation → Json
  | .string table => caseObject "string" (namesJson table)
  | .int table => caseObject "int" (numbersJson table)

mutual

/-- The written form of a reference. -/
def Reference.toJson : Reference → Json
  | .named name => .text name
  | .inline definition => definition.toJson

/-- The written form of a definition. -/
def Definition.toJson : Definition → Json
  | .bool => caseObject "bool" (.object [])
  | .string => caseObject "string" (.object [])
  | .bytes => caseObject "bytes" (.object [])
  | .int => caseObject "int" (.object [])
  | .float => caseObject "float" (.object [])
  | .link none => caseObject "link" (.object [])
  | .link (some target) => caseObject "link" (.object [("expectedType", target.toJson)])
  | .map key value valueNullable representation => caseObject "map" <|
      .object [("keyType", key.toJson), ("valueType", value.toJson),
        ("valueNullable", .bool valueNullable), ("representation", representation.toJson)]
  | .list value valueNullable => caseObject "list" <|
      .object [("valueType", value.toJson), ("valueNullable", .bool valueNullable)]
  | .struct fields representation => caseObject "struct" <|
      .object [("fields", .object (fieldEntriesJson fields)),
        ("representation", representation.toJson)]
  | .union members representation => caseObject "union" <|
      .object [("members", .list (referencesJson members)),
        ("representation", representation.toJson)]
  | .enum members representation => caseObject "enum" <|
      .object [("members", textsJson members), ("representation", representation.toJson)]
  | .copy source => caseObject "copy" (.object [("fromType", .text source)])

/-- The written form of a field, without its name. -/
def Field.toJson : Field → Json
  | .mk _ type optional nullable =>
      .object [("type", type.toJson), ("optional", .bool optional), ("nullable", .bool nullable)]

/-- The written forms of fields under their names. -/
def fieldEntriesJson : List Field → List (String × Json)
  | [] => []
  | .mk name type optional nullable :: rest =>
      (name, (Field.mk name type optional nullable).toJson) :: fieldEntriesJson rest

/-- The written forms of references. -/
def referencesJson : List Reference → List Json
  | [] => []
  | r :: rest => r.toJson :: referencesJson rest

end

/-- The written form of a schema. -/
def Schema.toJson (s : Schema) : Json :=
  .object [("types", s.types.toJson id Definition.toJson)]

/-- The text of a schema. -/
def Schema.text (s : Schema) : String :=
  s.toJson.compact

/-- The text of a definition. -/
def Definition.text (d : Definition) : String :=
  d.toJson.compact

/-! ## Reading -/

namespace Document

/-- Entries under any keys. -/
def entries {α : Type} (d : Decoder α) : Decoder (Entries String α) :=
  (Decoder.entries d).map Entries.mk

/-- An implicit value: the first of truth value, whole number, other number and
text that fits.  A whole number beyond sixty-four bits with a sign counts as
another number. -/
def implicitOfTree : Json → Option ImplicitValue
  | .bool b => some (.bool b)
  | .int i =>
      if Numeral.minInt64 ≤ i ∧ i ≤ Numeral.maxInt64 then some (.int i)
      else some (.float (Binary64.ofNat i.toNat))
  | .float x => some (.float x)
  | .text s => some (.string s)
  | _ => none

/-- An implicit value. -/
def implicitValue : Decoder ImplicitValue :=
  Decoder.untagged "ImplicitValue" implicitOfTree

/-- The delimiters of pairs. -/
def delimiters : Decoder PairDelimiters :=
  record2 "StringPairsRepr" (required "innerDelim" .text) (required "entryDelim" .text)
    PairDelimiters.mk

/-- The details of a field. -/
def fieldDetails : Decoder FieldDetails :=
  record2 "FieldDetails" (absentable "rename" .text) (absentable "implicit" implicitValue)
    FieldDetails.mk

/-- A map representation. -/
def mapRepresentation : Decoder MapRepresentation :=
  .choice "MapRepresentation"
    [("map", .empty "Map" .map),
     ("listpairs", .empty "ListPairs" .listPairs),
     ("stringpairs", .of (delimiters.map .stringPairs))]

/-- A struct representation. -/
def structRepresentation : Decoder StructRepresentation :=
  .choice "StructRepresentation"
    [("map", .of (record1 "StructMapRepr" (absentable "fields" (entries fieldDetails)) .map)),
     ("tuple", .of (record1 "TupleRepr" (absentable "fieldOrder" (.list .text)) .tuple)),
     ("stringpairs", .of (delimiters.map .stringPairs)),
     ("stringjoin", .of (record2 "StringJoinRepr" (required "join" .text)
        (absentable "fieldOrder" (.list .text)) .stringJoin)),
     ("listpairs", .empty "ListPairs" .listPairs)]

/-- A discriminant table, as a member of a representation. -/
def discriminantTable {α : Type} (d : Decoder α) : Decoder.Member (Entries String α) :=
  required "discriminantTable" (entries d)

/-- A union representation. -/
def unionRepresentation : Decoder UnionRepresentation :=
  .choice "UnionRepresentation"
    [("keyed", .of ((entries .text).map .keyed)),
     ("kinded", .of ((Decoder.entriesUnder Kind.byName .text).map fun es => .kinded ⟨es⟩)),
     ("envelope", .of (record3 "EnvelopeRepr" (required "discriminantKey" .text)
        (required "contentKey" .text) (discriminantTable .text) .envelope)),
     ("inline", .of (record2 "InlineRepr" (required "discriminantKey" .text)
        (discriminantTable .text) .inline)),
     ("stringprefix", .of (record1 "StringPrefixRepr" (discriminantTable .text) .stringPrefix)),
     ("byteprefix", .of (record1 "BytePrefixRepr" (discriminantTable .signed) .bytePrefix))]

/-- An enum representation. -/
def enumRepresentation : Decoder EnumRepresentation :=
  .choice "EnumRepresentation"
    [("string", .of ((entries .text).map .string)),
     ("int", .of ((entries .signed).map .int))]

/-- A kind. -/
def kind : Decoder Kind :=
  .choice "Kind" (Kind.byName.map fun k => (k.1, .none k.2))

/-- What stands under the name of a field. -/
structure FieldBody where
  type : Reference
  optional : Bool
  nullable : Bool

/-- The field of a name and what stands under it. -/
def FieldBody.named (name : FieldName) (body : FieldBody) : Field :=
  .mk name body.type body.optional body.nullable

/-- A reference, from a decoder of definitions: a text is a name. -/
def referenceOf (definition : Decoder Definition) : Decoder Reference :=
  Decoder.untagged "TypeReference" fun
    | .text name => some (.named name)
    | j => ((definition.ofTree j).toOption).map .inline

/-- The body of a field, from a decoder of references. -/
def fieldBodyOf (reference : Decoder Reference) : Decoder FieldBody :=
  record3 "FieldDefn" (required "type" reference) (defaulted "optional" .bool false)
    (defaulted "nullable" .bool false) FieldBody.mk

/-- A link, from a decoder of references. -/
def linkOf (reference : Decoder Reference) : Decoder Definition :=
  record1 "LinkDefn" (absentable "expectedType" reference) .link

/-- A map, from a decoder of references. -/
def mapOf (reference : Decoder Reference) : Decoder Definition :=
  record4 "MapDefn" (required "keyType" reference) (required "valueType" reference)
    (defaulted "valueNullable" .bool false)
    (defaulted "representation" mapRepresentation .standard) .map

/-- A list, from a decoder of references. -/
def listOf (reference : Decoder Reference) : Decoder Definition :=
  record2 "ListDefn" (required "valueType" reference) (defaulted "valueNullable" .bool false) .list

/-- A struct, from a decoder of references. -/
def structOf (reference : Decoder Reference) : Decoder Definition :=
  record2 "StructDefn" (required "fields" (Decoder.entries (fieldBodyOf reference)))
    (defaulted "representation" structRepresentation .standard)
    fun fields representation =>
      .struct (fields.map fun f => f.2.named f.1) representation

/-- A union, from a decoder of references. -/
def unionOf (reference : Decoder Reference) : Decoder Definition :=
  record2 "UnionDefn" (required "members" (.list reference))
    (required "representation" unionRepresentation) .union

/-- An enum. -/
def enumeration : Decoder Definition :=
  record2 "EnumDefn" (required "members" (.list .text))
    (defaulted "representation" enumRepresentation .standard) .enum

/-- A copy. -/
def copy : Decoder Definition :=
  record1 "CopyDefn" (required "fromType" .text) .copy

/-- A definition whose references hold definitions that `inner` reads. -/
def definitionOf (inner : Decoder Definition) : Decoder Definition :=
  let reference := referenceOf inner
  .choice "TypeDefn"
    [("bool", .empty "Bool" .bool),
     ("string", .empty "String" .string),
     ("bytes", .empty "Bytes" .bytes),
     ("int", .empty "Int" .int),
     ("float", .empty "Float" .float),
     ("link", .of (linkOf reference)),
     ("map", .of (mapOf reference)),
     ("list", .of (listOf reference)),
     ("struct", .of (structOf reference)),
     ("union", .of (unionOf reference)),
     ("enum", .of enumeration),
     ("copy", .of copy)]

/-- A decoder that refuses everything. -/
def nothing {α : Type} : Decoder α where
  read _ _ := .error Json.Cause.tooDeep.here
  ofTree _ := .error .tooDeep

/-- A definition that contains at most so many definitions inside each other. -/
def definitionWithin : Nat → Decoder Definition
  | 0 => nothing
  | levels + 1 => definitionOf (definitionWithin levels)

/-- A definition. -/
def definition : Decoder Definition :=
  definitionWithin (Json.nestingLimit + 1)

/-- A reference. -/
def reference : Decoder Reference :=
  referenceOf definition

/-- The body of a field. -/
def fieldBody : Decoder FieldBody :=
  fieldBodyOf reference

/-- A schema. -/
def schema : Decoder Schema :=
  record1 "Schema" (required "types" (entries definition)) Schema.mk

end Document

/-- The schema that a document declares, or what is wrong with the document. -/
def Schema.ofText (text : String) : Except Json.Fault Schema :=
  Json.decode Document.schema text

end WireSchema
