import WireSchema.TypeSystem.Basic

/-!
# Walking through a type system

From a type one can go to the types its content refers to, one hop at a time.  A
hop that does not fit the type leads nowhere, and so does a walk from there on.
-/

namespace WireSchema

/-- One step from a type to a type it refers to. -/
inductive Hop where
  /-- To the key type of a map. -/
  | key
  /-- To the value type of a map or list. -/
  | value
  /-- To the target type of a link. -/
  | target
  /-- To the type of the first struct field of a name. -/
  | field (name : FieldName)
  /-- To the type of a struct field by its position. -/
  | nthField (index : Nat)
  /-- To a union member by its position. -/
  | member (index : Nat)
  /-- To any referred type by its position. -/
  | reference (index : Nat)
  deriving DecidableEq

namespace Body

/-- The target of a link; `none` also for a link to any type. -/
def target? : Body → Option TypeId
  | .link target => target
  | _ => none

/-- The fields of a struct. -/
def fields : Body → List StructField
  | .struct fields _ => fields
  | _ => []

/-- The members of a union. -/
def members : Body → List TypeId
  | .union members _ => members
  | _ => []

/-- Where a hop leads from a type with this content. -/
def hop? (body : Body) : Hop → Option TypeId
  | .key =>
    match body with
    | .map key _ _ _ => some key
    | _ => none
  | .value =>
    match body with
    | .map _ value _ _ => some value
    | .list value _ => some value
    | _ => none
  | .target => body.target?
  | .field name => (body.fields.find? fun f => f.name = name).map StructField.type
  | .nthField i => body.fields[i]?.map StructField.type
  | .member i => body.members[i]?
  | .reference i => body.references[i]?

end Body

namespace TypeSystem

/-- Where a hop leads from the type at a position. -/
def hop? (ts : TypeSystem) (id : TypeId) (hop : Hop) : Option TypeId :=
  (ts.type? id).bind fun t => t.body.hop? hop

/-- The positions a walk visits, its start included.  It ends at the first hop
that leads nowhere. -/
def walk (ts : TypeSystem) (id : TypeId) : List Hop → List TypeId × Bool
  | [] => ([id], true)
  | hop :: hops =>
    match ts.hop? id hop with
    | none => ([id], false)
    | some next =>
      let (rest, arrived) := ts.walk next hops
      (id :: rest, arrived)

end TypeSystem
end WireSchema
