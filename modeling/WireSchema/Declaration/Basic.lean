import WireSchema.Decimal.Binary64
import WireSchema.Entries
import WireSchema.Kind

/-!
# Schema declarations

The input of the compiler: named definitions as a schema document gives them,
before any name is looked up.

A type is referred to by its name, or defined in place; a definition in place may
contain further ones, so references, definitions and struct fields are one mutual
tree.  The representations hang below the tree and refer to types by name only.

Nothing here is checked.  A table may name what does not exist and name it twice,
a struct may have two fields of one name, and a map may define its key type in
place: reporting all this is the work of the compiler, which needs to see it.
-/

namespace WireSchema

/-- The name of a type. -/
abbrev TypeName := String

/-- The name of a struct field. -/
abbrev FieldName := String

/-- A scalar that is assumed for a field absent from the wire. -/
inductive ImplicitValue where
  | bool (value : Bool)
  | int (value : Int)
  | float (value : Binary64)
  | string (value : String)
  deriving DecidableEq

namespace ImplicitValue

/-- The kind of an implicit value. -/
def kind : ImplicitValue → Kind
  | .bool _ => .bool
  | .int _ => .int
  | .float _ => .float
  | .string _ => .string

/-- Whether two implicit values are equal as values: doubles are compared as
numbers, so the two zeros are equal. -/
def same : ImplicitValue → ImplicitValue → Bool
  | .bool a, .bool b => a == b
  | .int a, .int b => a == b
  | .float a, .float b => a.numEq b
  | .string a, .string b => a == b
  | _, _ => false

end ImplicitValue

/-! ## Representations -/

/-- The delimiters of pairs that are written into one text. -/
structure PairDelimiters where
  /-- Between a key and its value. -/
  inner : String
  /-- Between one pair and the next. -/
  entry : String
  deriving DecidableEq

/-- How a map is laid out on the wire. -/
inductive MapRepresentation where
  | map
  | listPairs
  | stringPairs (delimiters : PairDelimiters)
  deriving DecidableEq

/-- The representation of a map that is not told otherwise. -/
def MapRepresentation.standard : MapRepresentation := .map

/-- The wire details of one field of a struct laid out as a map. -/
structure FieldDetails where
  rename : Option String
  implicit : Option ImplicitValue
  deriving DecidableEq

/-- Whether the details of a field say nothing. -/
def FieldDetails.isVoid (d : FieldDetails) : Bool :=
  d.rename.isNone && d.implicit.isNone

/-- How a struct is laid out on the wire.  An absent field order is the declared
order; a present and empty one is a mistake. -/
inductive StructRepresentation where
  | map (details : Option (Entries FieldName FieldDetails))
  | tuple (fieldOrder : Option (List FieldName))
  | stringPairs (delimiters : PairDelimiters)
  | stringJoin (join : String) (fieldOrder : Option (List FieldName))
  | listPairs
  deriving DecidableEq

/-- The representation of a struct that is not told otherwise. -/
def StructRepresentation.standard : StructRepresentation := .map none

/-- How the members of a union are told apart on the wire. -/
inductive UnionRepresentation where
  /-- By the only key of a map. -/
  | keyed (table : Entries String TypeName)
  /-- By the kind of the value. -/
  | kinded (table : Entries Kind TypeName)
  /-- By one entry of a map, beside another with the content. -/
  | envelope (discriminantKey contentKey : String) (table : Entries String TypeName)
  /-- By an entry among the member's own. -/
  | inline (discriminantKey : String) (table : Entries String TypeName)
  /-- By the beginning of a text. -/
  | stringPrefix (table : Entries String TypeName)
  /-- By the first byte; the table is keyed by member. -/
  | bytePrefix (table : Entries TypeName Int)
  deriving DecidableEq

/-- What stands for the members of an enum on the wire. -/
inductive EnumRepresentation where
  | string (table : Entries String String)
  | int (table : Entries String Int)
  deriving DecidableEq

/-- The representation of an enum that is not told otherwise: every member stands
for itself. -/
def EnumRepresentation.standard : EnumRepresentation := .string ∅

/-! ## References and definitions -/

mutual

/-- A reference to a type: by name, or a definition in place. -/
inductive Reference where
  | named (name : TypeName)
  | inline (definition : Definition)

/-- A type definition. -/
inductive Definition where
  | bool
  | string
  | bytes
  | int
  | float
  /-- A link to a value of the target type, or of any type. -/
  | link (target : Option Reference)
  | map (key value : Reference) (valueNullable : Bool) (representation : MapRepresentation)
  | list (value : Reference) (valueNullable : Bool)
  | struct (fields : List Field) (representation : StructRepresentation)
  | union (members : List Reference) (representation : UnionRepresentation)
  | enum (members : List String) (representation : EnumRepresentation)
  /-- Another name for a type.  Documents may say so; it cannot be compiled. -/
  | copy (source : TypeName)

/-- A field of a struct. -/
inductive Field where
  | mk (name : FieldName) (type : Reference) (optional nullable : Bool)

end

namespace Field

/-- The name of a field. -/
def name : Field → FieldName
  | mk name _ _ _ => name

/-- The reference to the type of a field. -/
def type : Field → Reference
  | mk _ type _ _ => type

/-- Whether a field may be absent. -/
def optional : Field → Bool
  | mk _ _ optional _ => optional

/-- Whether a field may hold null. -/
def nullable : Field → Bool
  | mk _ _ _ nullable => nullable

end Field

namespace Definition

/-- The word for the sort of a definition, as documents write it. -/
def keyword : Definition → String
  | .bool => "bool"
  | .string => "string"
  | .bytes => "bytes"
  | .int => "int"
  | .float => "float"
  | .link _ => "link"
  | .map .. => "map"
  | .list .. => "list"
  | .struct .. => "struct"
  | .union .. => "union"
  | .enum .. => "enum"
  | .copy _ => "copy"

end Definition

/-! ## Schemas -/

/-- A schema: definitions under names, in the order of the document.  A name may
be given twice. -/
structure Schema where
  types : Entries TypeName Definition

namespace Schema

/-- The schema that declares nothing. -/
def empty : Schema := ⟨∅⟩

/-- The schema with one more declaration at the end. -/
def declare (s : Schema) (name : TypeName) (definition : Definition) : Schema :=
  ⟨s.types.push name definition⟩

end Schema
end WireSchema
