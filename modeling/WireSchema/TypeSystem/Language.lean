import WireSchema.TypeSystem.Basic
import WireSchema.Text.Quoted
import WireSchema.Decimal.Notation

/-!
# The schema language

A compiled type is shown in the language in which schemas are written by hand.
What the language takes for granted is not written: a field order that is the
declared one, a wire string that is the member's own name, the target of a link
to any type.

In a union the members follow the discriminant table, each on a line with its
discriminant, one line for every entry; members that no entry names come last,
with nothing behind their names.
-/

namespace WireSchema

/-- The word in front of a type that may be null. -/
def nullableWord (nullable : Bool) : String :=
  if nullable then "nullable " else ""

/-- An implicit value in the schema language. -/
def ImplicitValue.literal : ImplicitValue → String
  | .bool b => if b then "true" else "false"
  | .int i => String.ofList (Decimal.intText i)
  | .float x => String.ofList (x.text Decimal.plain)
  | .string s => Text.quoted s

/-- The text of an implicit value by itself: a text stands for itself. -/
def ImplicitValue.plainText : ImplicitValue → String
  | .string s => s
  | v => v.literal

/-- The delimiters of pairs, as a block behind `stringpairs`. -/
def PairDelimiters.block (d : PairDelimiters) : String :=
  "stringpairs \x7b\n\tinnerDelim " ++ Text.quoted d.inner ++ "\n\tentryDelim " ++
    Text.quoted d.entry ++ "\n\x7d"

/-- The details behind a field, in parentheses. -/
def FieldDetails.clause (d : FieldDetails) : String :=
  let parts :=
    (match d.rename with
      | some wire => ["rename " ++ Text.quoted wire]
      | none => []) ++
    (match d.implicit with
      | some value => ["implicit " ++ value.literal]
      | none => [])
  " (" ++ " ".intercalate parts ++ ")"

namespace StructLayout

/-- What stands behind a field for its details. -/
def fieldClause (layout : StructLayout) (field : FieldName) : String :=
  match layout with
  | .map details =>
    match details.get? field with
    | some d => d.clause
    | none => ""
  | _ => ""

/-- The words for the representation of a struct with these fields. -/
def words (declared : List FieldName) : StructLayout → String
  | .map _ => "map"
  | .listPairs => "listpairs"
  | .tuple order =>
      if order = declared then "tuple"
      else "tuple \x7b\n\tfieldOrder " ++ Text.quotedList order ++ "\n\x7d"
  | .stringPairs d => d.block
  | .stringJoin join order =>
      "stringjoin \x7b\n\tjoin " ++ Text.quoted join ++ "\n" ++
        (if order = declared then "" else "\tfieldOrder " ++ Text.quotedList order ++ "\n") ++
        "\x7d"

end StructLayout

namespace UnionLayout

/-- The members that the discriminant table names, each with its discriminant as
the schema language writes it. -/
def labelled : UnionLayout → List (TypeId × String)
  | .keyed table => table.toList.map fun e => (e.2, Text.quoted e.1)
  | .envelope _ _ table => table.toList.map fun e => (e.2, Text.quoted e.1)
  | .inline _ table => table.toList.map fun e => (e.2, Text.quoted e.1)
  | .stringPrefix table => table.toList.map fun e => (e.2, Text.quoted e.1)
  | .kinded table => table.toList.map fun e => (e.2, e.1.name)
  | .bytePrefix table => table.toList.map fun e => (e.1, toString e.2.toNat)

/-- The keys of a union representation, as a block. -/
def block : UnionLayout → String
  | .envelope discriminantKey contentKey _ =>
      " \x7b\n\tdiscriminantKey " ++ Text.quoted discriminantKey ++ "\n\tcontentKey " ++
        Text.quoted contentKey ++ "\n\x7d"
  | .inline discriminantKey _ =>
      " \x7b\n\tdiscriminantKey " ++ Text.quoted discriminantKey ++ "\n\x7d"
  | _ => ""

end UnionLayout

namespace EnumLayout

/-- What stands behind a member for its wire value. -/
def memberClause (layout : EnumLayout) (member : String) : String :=
  match layout with
  | .string table =>
    match table.get? member with
    | some wire => if wire = member then "" else " (" ++ Text.quoted wire ++ ")"
    | none => ""
  | .int table =>
    match table.get? member with
    | some wire => " (\"" ++ String.ofList (Decimal.intText wire) ++ "\")"
    | none => ""

/-- The word for an enum representation. -/
def word : EnumLayout → String
  | .string _ => "string"
  | .int _ => "int"

end EnumLayout

/-- The lines of a block between braces, each with a tab in front. -/
def bracedLines (lines : List String) : String :=
  "\x7b\n" ++ String.join (lines.map fun line => "\t" ++ line ++ "\n") ++ "\x7d"

namespace Body

/-- A content in the schema language.  `nameOf` names the types it refers to. -/
def inLanguage (nameOf : TypeId → TypeName) : Body → String
  | .link none => "&Any"
  | .link (some target) => "&" ++ nameOf target
  | .list value valueNullable => "[" ++ nullableWord valueNullable ++ nameOf value ++ "]"
  | .map key value valueNullable layout =>
      "\x7b" ++ nameOf key ++ ":" ++ nullableWord valueNullable ++ nameOf value ++ "\x7d" ++
        (match layout with
          | .map => ""
          | .listPairs => " representation listpairs"
          | .stringPairs d => " representation " ++ d.block)
  | .struct fields layout =>
      "struct " ++
        bracedLines (fields.map fun f =>
          f.name ++ " " ++ (if f.optional then "optional " else "") ++ nullableWord f.nullable ++
            nameOf f.type ++ layout.fieldClause f.name) ++
        " representation " ++ layout.words (fields.map StructField.name)
  | .union members layout =>
      let labelled := layout.labelled
      let listed := labelled.map Prod.fst
      let unlisted := members.filter fun id => !listed.contains id
      "union " ++
        bracedLines (labelled.map (fun m => "| " ++ nameOf m.1 ++ " " ++ m.2) ++
          unlisted.map fun id => "| " ++ nameOf id) ++
        " representation " ++ layout.name ++ layout.block
  | .enum members layout =>
      "enum " ++ bracedLines (members.map fun m => "| " ++ m ++ layout.memberClause m) ++
        " representation " ++ layout.word
  | plain => plain.kind.name

end Body

/-- The type at a position in the schema language. -/
def TypeSystem.inLanguage (ts : TypeSystem) (id : TypeId) : String :=
  match ts.type? id with
  | some t => "type " ++ t.name ++ " " ++ t.body.inLanguage ts.nameOf
  | none => ""

/-- The type at a position as it is shown to someone who looks for a mistake: where
it stands, its name and its sort. -/
def TypeSystem.summary (ts : TypeSystem) (id : TypeId) : String :=
  match ts.type? id with
  | some t =>
    "TypeRef \x7b id: TypeId(" ++ toString id ++ "), name: " ++ Text.quoted t.name ++
      ", kind: " ++ capitalized t.body.kind.name ++ " \x7d"
  | none => ""

end WireSchema
