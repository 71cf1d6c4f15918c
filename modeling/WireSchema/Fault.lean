import WireSchema.Declaration.Basic

/-!
# What can be wrong with a declaration

A mistake in a schema is a *fault*.  The compiler collects faults and reports all
of them together, so a fault is data: what was found, not a sentence about it.
The sentences are in the `message` functions, one for each sort of fault.

A fault by itself does not say whose it is.  A definition in place can be part of
several declarations, and what is wrong with it is wrong with each of them; so
the same fault is charged to one declared type after another, and `CompileError`
is a fault with the type it is charged to.
-/

namespace WireSchema

/-- A definition of a form that cannot be compiled. -/
inductive FormFault where
  /-- A map defines its key type in place. -/
  | inlineMapKey
  /-- A union defines a member in place. -/
  | inlineMember (keyword : String)
  /-- A definition in place was met again inside itself. -/
  | containsItself (keyword : String)
  /-- Definitions in place are nested deeper than the settings allow. -/
  | tooDeep (limit : Nat)
  deriving DecidableEq

/-- The message of a fault of form. -/
def FormFault.message : FormFault → String
  | .inlineMapKey => "map key types must be named, not defined inline"
  | .inlineMember keyword =>
      "union members must be named types, found inline " ++ keyword ++ " definition"
  | .containsItself keyword => "inline " ++ keyword ++ " definition contains itself"
  | .tooDeep limit => "inline definitions nested deeper than " ++ toString limit ++ " levels"

/-- The sort of key of a discriminant table. -/
inductive TableKey where
  | wireKey
  | discriminant
  | stringPrefix
  deriving DecidableEq

/-- The words for a sort of key. -/
def TableKey.words : TableKey → String
  | .wireKey => "wire key"
  | .discriminant => "discriminant"
  | .stringPrefix => "prefix"

/-- The words for the kind that a type has on the wire. -/
def kindLabel : Option Kind → String
  | some kind => kind.name
  | none => "varying"

/-- A definition or representation that contradicts itself or the types it is
about. -/
inductive ConfigFault where
  -- Names of fields and members.
  | emptyField
  | repeatedField (name : FieldName)
  | repeatedUnionMember (name : TypeName)
  | emptyEnumMember
  | repeatedEnumMember (member : String)
  -- Delimiters of pairs.
  | emptyInnerDelimiter
  | emptyEntryDelimiter
  | sameDelimiters (delimiter : String)
  -- Structs.
  | undeclaredDetails (field : FieldName)
  | repeatedDetails (field : FieldName)
  | emptyRename (field : FieldName)
  | optionalImplicit (field : FieldName)
  | repeatedWireName (wire : String)
  | emptyJoin
  | emptyFieldOrder
  | orderUndeclared (field : FieldName)
  | orderRepeated (field : FieldName)
  | orderOmits (field : FieldName)
  -- Unions.
  | notMember (name : TypeName)
  | repeatedKey (sort : TableKey) (key : String)
  | repeatedKind (kind : Kind)
  | emptyEnvelopeDiscriminant
  | emptyEnvelopeContent
  | sameEnvelopeKeys (key : String)
  | emptyInlineDiscriminant
  | emptyStringPrefix
  | overlappingPrefixes (first second : String)
  | byteOutside (value : Int) (member : TypeName)
  | repeatedByte (byte : UInt8)
  | repeatedByteMember (member : TypeName)
  -- Enums.
  | unknownEnumMember (member : String)
  | repeatedWireValue (member : String)
  | emptyWireString (member : String)
  | repeatedWireString (wire : String)
  | repeatedWireInt (wire : Int)
  | missingWireInt (member : String)
  -- Types that do not go together.
  | mapKeyKind (map key : TypeName) (actual : Option Kind)
  | memberKind (union : TypeName) (kind : Kind) (member : TypeName) (actual : Option Kind)
  | memberHasDiscriminant (union member : TypeName) (key : String)
  | memberNotMapStruct (union member : TypeName)
  | implicitKind (field : FieldName) (struct : TypeName) (implicit : Kind) (type : TypeName)
      (actual : Option Kind)
  deriving DecidableEq

/-- A name between single quotes. -/
def inQuotes (s : String) : String :=
  "'" ++ s ++ "'"

/-- The message of a fault of configuration. -/
def ConfigFault.message : ConfigFault → String
  | .emptyField => "field name is empty"
  | .repeatedField name => "field " ++ inQuotes name ++ " is declared more than once"
  | .repeatedUnionMember name => "union member " ++ inQuotes name ++ " is listed more than once"
  | .emptyEnumMember => "enum member is empty"
  | .repeatedEnumMember member => "enum member " ++ inQuotes member ++ " is listed more than once"
  | .emptyInnerDelimiter => "stringpairs innerDelim is empty"
  | .emptyEntryDelimiter => "stringpairs entryDelim is empty"
  | .sameDelimiters d => "stringpairs innerDelim and entryDelim are both " ++ inQuotes d
  | .undeclaredDetails field =>
      "representation details name undeclared field " ++ inQuotes field
  | .repeatedDetails field =>
      "representation details for field " ++ inQuotes field ++ " are given more than once"
  | .emptyRename field => "field " ++ inQuotes field ++ " is renamed to an empty string"
  | .optionalImplicit field =>
      "field " ++ inQuotes field ++ " is optional and cannot have an implicit value"
  | .repeatedWireName wire => "wire name " ++ inQuotes wire ++ " is used by more than one field"
  | .emptyJoin => "stringjoin join delimiter is empty"
  | .emptyFieldOrder => "fieldOrder is present but empty"
  | .orderUndeclared field => "fieldOrder names undeclared field " ++ inQuotes field
  | .orderRepeated field => "fieldOrder lists field " ++ inQuotes field ++ " more than once"
  | .orderOmits field => "fieldOrder omits field " ++ inQuotes field
  | .notMember name => inQuotes name ++ " is not a member of the union"
  | .repeatedKey sort key => sort.words ++ " " ++ inQuotes key ++ " is used more than once"
  | .repeatedKind kind => "kind " ++ inQuotes kind.name ++ " is listed more than once"
  | .emptyEnvelopeDiscriminant => "envelope discriminantKey is empty"
  | .emptyEnvelopeContent => "envelope contentKey is empty"
  | .sameEnvelopeKeys key => "envelope discriminantKey and contentKey are both " ++ inQuotes key
  | .emptyInlineDiscriminant => "inline discriminantKey is empty"
  | .emptyStringPrefix => "stringprefix prefix is empty"
  | .overlappingPrefixes a b => "prefixes " ++ inQuotes a ++ " and " ++ inQuotes b ++ " overlap"
  | .byteOutside value member =>
      "byte prefix " ++ toString value ++ " for " ++ inQuotes member ++ " is outside 0..=255"
  | .repeatedByte byte => "byte prefix " ++ toString byte.toNat ++ " is used more than once"
  | .repeatedByteMember member =>
      "member " ++ inQuotes member ++ " has more than one byte prefix"
  | .unknownEnumMember member =>
      "representation names unknown enum member " ++ inQuotes member
  | .repeatedWireValue member =>
      "enum member " ++ inQuotes member ++ " is given more than one wire value"
  | .emptyWireString member => "enum member " ++ inQuotes member ++ " has an empty wire string"
  | .repeatedWireString wire =>
      "wire string " ++ inQuotes wire ++ " is used by more than one member"
  | .repeatedWireInt wire => "wire int " ++ toString wire ++ " is used by more than one member"
  | .missingWireInt member => "enum member " ++ inQuotes member ++ " has no int value"
  | .mapKeyKind map key actual =>
      "map " ++ map ++ " key type " ++ key ++ " has " ++ kindLabel actual ++
        " representation, expected string"
  | .memberKind union kind member actual =>
      "kinded union " ++ union ++ " maps kind " ++ kind.name ++ " to " ++ member ++
        ", which has " ++ kindLabel actual ++ " representation"
  | .memberHasDiscriminant union member key =>
      "inline union " ++ union ++ " member " ++ member ++
        " has a field named like discriminant key " ++ inQuotes key
  | .memberNotMapStruct union member =>
      "inline union " ++ union ++ " member " ++ member ++
        " must be a struct with map representation"
  | .implicitKind field struct implicit type actual =>
      "field " ++ inQuotes field ++ " of " ++ struct ++ " has " ++ implicit.name ++
        " implicit value but type " ++ type ++ " has " ++ kindLabel actual ++ " representation"

/-- Something wrong with a declaration. -/
inductive Fault where
  /-- A name that no type is declared under, and the declared name most like
  it. -/
  | unresolved (name : TypeName) (suggestion : Option TypeName)
  | unsupportedKind (keyword : String)
  | unsupportedForm (fault : FormFault)
  | invalidConfig (fault : ConfigFault)
  deriving DecidableEq

/-- A result, and the faults found on the way to it. -/
structure Checked (α : Type) where
  value : α
  faults : List Fault

namespace Checked

variable {α β : Type}

/-- The result if nothing is wrong. -/
def get? (c : Checked α) : Option α :=
  if c.faults.isEmpty then some c.value else none

/-- A result without faults. -/
def ok (value : α) : Checked α :=
  ⟨value, []⟩

/-- The same faults with another result. -/
def map (f : α → β) (c : Checked α) : Checked β :=
  ⟨f c.value, c.faults⟩

/-- The same result with faults in front. -/
def after (faults : List Fault) (c : Checked α) : Checked α :=
  ⟨c.value, faults ++ c.faults⟩

end Checked

/-- An error of a compile. -/
inductive CompileError where
  /-- A fault and the declared type it is charged to. -/
  | charged (owner : TypeName) (fault : Fault)
  /-- A name that was declared already. -/
  | duplicateName (name : TypeName)
  deriving DecidableEq

namespace CompileError

/-- The type that an error is about. -/
def typeName : CompileError → TypeName
  | .charged owner _ => owner
  | .duplicateName name => name

/-- The message of an error. -/
def message : CompileError → String
  | .charged owner (.unresolved name suggestion) =>
      "unresolved type reference " ++ inQuotes name ++ " in type " ++ owner ++
        (match suggestion with
          | some other => " (did you mean " ++ inQuotes other ++ "?)"
          | none => "")
  | .charged owner (.unsupportedKind keyword) =>
      "type " ++ owner ++ ": kind " ++ inQuotes keyword ++ " is not supported"
  | .charged owner (.unsupportedForm fault) =>
      "type " ++ owner ++ ": unsupported form: " ++ fault.message
  | .charged owner (.invalidConfig fault) =>
      "type " ++ owner ++ ": invalid representation config: " ++ fault.message
  | .duplicateName name => "type name " ++ inQuotes name ++ " is declared more than once"

end CompileError

/-- The errors of a compile that failed; there is at least one. -/
structure CompileErrors where
  first : CompileError
  rest : List CompileError
  deriving DecidableEq

namespace CompileErrors

/-- The errors in the order of the report. -/
def toList (es : CompileErrors) : List CompileError :=
  es.first :: es.rest

/-- The errors of a list, unless it is empty. -/
def ofList? : List CompileError → Option CompileErrors
  | [] => none
  | e :: es => some ⟨e, es⟩

/-- How many errors there are. -/
def size (es : CompileErrors) : Nat :=
  es.toList.length

/-- The errors about one type. -/
def about (es : CompileErrors) (name : TypeName) : List CompileError :=
  es.toList.filter fun e => e.typeName = name

/-- The report: how many errors there are, and each on a line of its own. -/
def message (es : CompileErrors) : String :=
  "schema compilation failed with " ++ toString es.size ++ " error(s)" ++
    String.join (es.toList.map fun e => "\n  - " ++ e.message)

@[simp] theorem ofList?_toList (es : CompileErrors) : ofList? es.toList = some es := rfl

theorem ofList?_eq_some_iff {l : List CompileError} {es : CompileErrors} :
    ofList? l = some es ↔ l = es.toList := by
  cases l with
  | nil => simp [ofList?, toList]
  | cons e l =>
    cases es
    simp [ofList?, toList]

end CompileErrors
end WireSchema
