import WireSchema.TypeSystem.Body

/-!
# Type systems

A compiled schema: its types in one row, the declared ones first in the order of
the document, then the anonymous ones in the order in which they were first met.
A type is known by its position in the row and by its name.

Positions are only meaningful together with the system that issued them, so the
functions that take one say what happens to a position beyond the row.
-/

namespace WireSchema

/-- A type of a type system. -/
structure CompiledType where
  name : TypeName
  /-- Whether the type comes from a definition in place. -/
  anonymous : Bool
  body : Body
  deriving DecidableEq

/-- A compiled schema. -/
structure TypeSystem where
  types : List CompiledType
  /-- The digest of the schema it was compiled from. -/
  fingerprint : String
  deriving DecidableEq

namespace TypeSystem

/-- How many types there are. -/
def size (ts : TypeSystem) : Nat :=
  ts.types.length

/-- The positions of all types. -/
def ids (ts : TypeSystem) : List TypeId :=
  List.range ts.size

/-- The names of all types, in order. -/
def names (ts : TypeSystem) : List TypeName :=
  ts.types.map CompiledType.name

/-- The type at a position. -/
def type? (ts : TypeSystem) (id : TypeId) : Option CompiledType :=
  ts.types[id]?

/-- The type at a position, or what is said of a position that another system must
have issued. -/
def typeAt (ts : TypeSystem) (id : TypeId) : Except String CompiledType :=
  match ts.type? id with
  | some t => .ok t
  | none => .error ("type id " ++ handleText id ++ " is not from this type system")

/-- The name of the type at a position; empty beyond the row. -/
def nameOf (ts : TypeSystem) (id : TypeId) : TypeName :=
  ((ts.type? id).map CompiledType.name).getD ""

/-- The position of the type of a name, declared or made up; of a repeated name the
last one. -/
def find? (ts : TypeSystem) (name : TypeName) : Option TypeId :=
  (ts.names.zip ts.ids).reverse.lookup name

/-- The types that come from declarations. -/
def declared (ts : TypeSystem) : List CompiledType :=
  ts.types.filter fun t => !t.anonymous

/-- The types that come from definitions in place. -/
def anonymous (ts : TypeSystem) : List CompiledType :=
  ts.types.filter fun t => t.anonymous

/-- The types that the type at a position refers to, in order and with
repetitions. -/
def references (ts : TypeSystem) (id : TypeId) : List TypeId :=
  match ts.type? id with
  | some t => t.body.references
  | none => []

/-- Whether two lists of types are equal, type by type. -/
def sameTypes : List CompiledType → List CompiledType → Bool
  | [], [] => true
  | s :: ss, t :: ts =>
      s.name == t.name && s.anonymous == t.anonymous && s.body.same t.body && sameTypes ss ts
  | _, _ => false

/-- Whether two type systems are equal: the same types at the same positions,
compiled from the same schema. -/
def same (s t : TypeSystem) : Bool :=
  s.fingerprint == t.fingerprint && sameTypes s.types t.types

end TypeSystem
end WireSchema
