import WireSchema.Declaration.Basic

/-!
# What a compiled type is made of

A compiled type refers to others by their position in the type system, its
representation has every default filled in, and its tables have been checked: no
key occurs twice, and what they name exists.
-/

namespace WireSchema

/-- The position of a type in its type system. -/
abbrev TypeId := Nat

/-- A position as it is shown. -/
def handleText (id : TypeId) : String :=
  "#" ++ toString id

/-- A field of a compiled struct. -/
structure StructField where
  name : FieldName
  type : TypeId
  optional : Bool
  nullable : Bool
  deriving DecidableEq

/-- The checked representation of a struct. -/
inductive StructLayout where
  /-- Only fields with a rename or an implicit value have details. -/
  | map (details : Table FieldName FieldDetails)
  | tuple (fieldOrder : List FieldName)
  | stringPairs (delimiters : PairDelimiters)
  | stringJoin (join : String) (fieldOrder : List FieldName)
  | listPairs
  deriving DecidableEq

/-- The checked representation of a union. -/
inductive UnionLayout where
  | keyed (table : Table String TypeId)
  | kinded (table : Table Kind TypeId)
  | envelope (discriminantKey contentKey : String) (table : Table String TypeId)
  | inline (discriminantKey : String) (table : Table String TypeId)
  | stringPrefix (table : Table String TypeId)
  | bytePrefix (table : Table TypeId UInt8)
  deriving DecidableEq

/-- The word for the way in which a union tells its members apart. -/
def UnionLayout.name : UnionLayout → String
  | .keyed _ => "keyed"
  | .kinded _ => "kinded"
  | .envelope .. => "envelope"
  | .inline .. => "inline"
  | .stringPrefix _ => "stringprefix"
  | .bytePrefix _ => "byteprefix"

/-- The checked representation of an enum: the wire value of every member. -/
inductive EnumLayout where
  | string (table : Table String String)
  | int (table : Table String Int)
  deriving DecidableEq

/-- The content of a compiled type. -/
inductive Body where
  | bool
  | string
  | bytes
  | int
  | float
  /-- A link to values of a type, or of any type. -/
  | link (target : Option TypeId)
  | map (key value : TypeId) (valueNullable : Bool) (layout : MapRepresentation)
  | list (value : TypeId) (valueNullable : Bool)
  | struct (fields : List StructField) (layout : StructLayout)
  | union (members : List TypeId) (layout : UnionLayout)
  | enum (members : List String) (layout : EnumLayout)
  deriving DecidableEq

/-- A keyword with its first letter in upper case. -/
def capitalized (keyword : String) : String :=
  match keyword.toList with
  | [] => ""
  | c :: cs => String.ofList (c.toUpper :: cs)

/-- The sort of a compiled type. -/
inductive TypeKind where
  | bool
  | string
  | bytes
  | int
  | float
  | link
  | map
  | list
  | struct
  | union
  | enum
  deriving DecidableEq

/-- The word for a sort of type. -/
def TypeKind.name : TypeKind → String
  | .bool => "bool"
  | .string => "string"
  | .bytes => "bytes"
  | .int => "int"
  | .float => "float"
  | .link => "link"
  | .map => "map"
  | .list => "list"
  | .struct => "struct"
  | .union => "union"
  | .enum => "enum"

/-- The wire name of a field: its new name if it is renamed. -/
def StructLayout.wireName (layout : StructLayout) (field : FieldName) : String :=
  match layout with
  | .map details => ((details.get? field).bind FieldDetails.rename).getD field
  | _ => field

namespace Body

/-- The sort of a type with this content. -/
def kind : Body → TypeKind
  | .bool => .bool
  | .string => .string
  | .bytes => .bytes
  | .int => .int
  | .float => .float
  | .link _ => .link
  | .map .. => .map
  | .list .. => .list
  | .struct .. => .struct
  | .union .. => .union
  | .enum .. => .enum

/-- The kind of the values on the wire.  A kinded union has values of several
kinds. -/
def wireKind : Body → Option Kind
  | .bool => some .bool
  | .string => some .string
  | .bytes => some .bytes
  | .int => some .int
  | .float => some .float
  | .link _ => some .link
  | .list .. => some .list
  | .map _ _ _ .map => some .map
  | .map _ _ _ .listPairs => some .list
  | .map _ _ _ (.stringPairs _) => some .string
  | .struct _ (.map _) => some .map
  | .struct _ (.tuple _) => some .list
  | .struct _ .listPairs => some .list
  | .struct _ (.stringPairs _) => some .string
  | .struct _ (.stringJoin _ _) => some .string
  | .union _ (.keyed _) => some .map
  | .union _ (.envelope ..) => some .map
  | .union _ (.inline ..) => some .map
  | .union _ (.kinded _) => none
  | .union _ (.stringPrefix _) => some .string
  | .union _ (.bytePrefix _) => some .bytes
  | .enum _ (.string _) => some .string
  | .enum _ (.int _) => some .int

/-- The types referred to, in the order of the declaration and with
repetitions. -/
def references : Body → List TypeId
  | .link target => target.toList
  | .map key value _ _ => [key, value]
  | .list value _ => [value]
  | .struct fields _ => fields.map StructField.type
  | .union members _ => members
  | _ => []

/-- The names of a struct's fields on the wire, in declared order. -/
def wireNames : Body → List String
  | .struct fields layout => fields.map fun f => layout.wireName f.name
  | _ => []

end Body

/-! ## Equality of contents

Two contents are equal if their tables hold the same entries, in whatever order,
and implicit values are compared as values. -/

/-- Whether two struct representations say the same. -/
def StructLayout.same : StructLayout → StructLayout → Bool
  | .map s, .map t => s.sameEntries (fun a b =>
      a.rename == b.rename &&
        match a.implicit, b.implicit with
        | none, none => true
        | some x, some y => x.same y
        | _, _ => false) t
  | a, b => a == b

/-- Whether two union representations say the same. -/
def UnionLayout.same : UnionLayout → UnionLayout → Bool
  | .keyed s, .keyed t => s.sameEntries (· == ·) t
  | .kinded s, .kinded t => s.sameEntries (· == ·) t
  | .envelope k c s, .envelope k' c' t => k == k' && c == c' && s.sameEntries (· == ·) t
  | .inline k s, .inline k' t => k == k' && s.sameEntries (· == ·) t
  | .stringPrefix s, .stringPrefix t => s.sameEntries (· == ·) t
  | .bytePrefix s, .bytePrefix t => s.sameEntries (· == ·) t
  | _, _ => false

/-- Whether two enum representations say the same. -/
def EnumLayout.same : EnumLayout → EnumLayout → Bool
  | .string s, .string t => s.sameEntries (· == ·) t
  | .int s, .int t => s.sameEntries (· == ·) t
  | _, _ => false

/-- Whether two contents say the same. -/
def Body.same : Body → Body → Bool
  | .struct fs a, .struct gs b => fs == gs && a.same b
  | .union ms a, .union ns b => ms == ns && a.same b
  | .enum ms a, .enum ns b => ms == ns && a.same b
  | a, b => a == b

end WireSchema
