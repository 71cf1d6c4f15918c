import WireSchema.Arena
import WireSchema.Layout.Struct
import WireSchema.Layout.Union
import WireSchema.Layout.Enum

/-!
# Resolving references

Compiling a definition means compiling what it contains: its references are
resolved one after the other, in the order of the declaration, and its
representation is checked.  A name is looked up among the declared ones; a
definition in place is compiled into a slot of its own, unless one with the same
canonical form has been already.

A definition with any fault has no content, nor has a definition that contains a
faulty one.  A reference to a faulty definition in place is resolved all the same:
its faults have been reported, and the definition around it need not be blamed a
second time.
-/

namespace WireSchema

/-- What a definition is compiled against. -/
structure Scope where
  settings : Settings
  /-- The digest by which definitions in place are recognised. -/
  digest : String → String
  /-- The declared names, each once, in order. -/
  declared : List TypeName
  /-- The declared type on whose behalf this happens. -/
  owner : TypeName

namespace Scope

/-- The position of a name, or the fault that there is none. -/
def resolveName (scope : Scope) (name : TypeName) : Checked (Option TypeId) :=
  match positionOf? scope.declared name with
  | some id => .ok (some id)
  | none => ⟨none, [unresolvedFault scope.declared name]⟩

/-- The slot of a definition in place `depth` others deep.  One that has been met
is shared; a new one is compiled by `compile`. -/
def place (scope : Scope) (depth : Nat) (definition : Definition)
    (compile : Pass (Option Body)) : Pass (Option TypeId) := fun a =>
  let digest := scope.digest definition.canonical.text
  match a.state? digest with
  | some (.finished id) =>
    let (shared, a) := share scope.owner a.slots.length id a
    (shared.map fun _ => some id, a)
  | some .inProgress =>
    (⟨none, [.unsupportedForm (.containsItself definition.keyword)]⟩, a)
  | none =>
    if scope.settings.maxInlineDepth ≤ depth then
      (⟨none, [.unsupportedForm (.tooDeep scope.settings.maxInlineDepth)]⟩, a)
    else
      let id := a.slots.length
      let (checked, a) := compile (a.reserve scope.owner digest)
      let name := a.freeName definition.keyword checked.value digest
      (checked.map fun _ => some id, a.fill id digest name checked.value checked.faults)

/-! ## Unions and enums

Neither contains definitions in place, so neither looks at the arena. -/

/-- The members of a union so far, and the faults found among them. -/
def members (scope : Scope) (names : MemberNames) : List Reference → Checked MemberNames
  | [] => .ok names
  | .named name :: rest =>
    match (scope.resolveName name).value with
    | none =>
      (scope.members { names with unresolved := name :: names.unresolved } rest).after
        (scope.resolveName name).faults
    | some id =>
      (scope.members { names with members := names.members.insert name id } rest).after
        (if names.members.contains name then [.invalidConfig (.repeatedUnionMember name)] else [])
  | .inline definition :: rest =>
    (scope.members names rest).after
      [.unsupportedForm (.inlineMember definition.keyword)]

/-- The content of a union. -/
def union (scope : Scope) (members : List Reference) (representation : UnionRepresentation) :
    Checked Body :=
  let names := scope.members ⟨∅, [], scope.declared⟩ members
  ((representation.layout names.value).map (.union names.value.members.values)).after names.faults

/-- The content of an enum. -/
def enumeration (members : List String) (representation : EnumRepresentation) : Checked Body :=
  ⟨.enum members (representation.layout members),
    (enumMemberFaults [] members ++ representation.faults members).map .invalidConfig⟩

/-! ## Definitions -/

/-- The key type of a map, which has to be named. -/
def mapKey (scope : Scope) : Reference → Checked (Option TypeId)
  | .named name => scope.resolveName name
  | .inline _ => ⟨none, [.unsupportedForm .inlineMapKey]⟩

mutual

/-- The type that a reference refers to, `depth` definitions in place deep. -/
def resolve (scope : Scope) (depth : Nat) : Reference → Pass (Option TypeId)
  | .named name => Pass.check (scope.resolveName name)
  | .inline definition => scope.place depth definition (scope.compile (depth + 1) definition)

/-- The content of a definition `depth` definitions in place deep; none if
anything is wrong with it or inside it. -/
def compile (scope : Scope) (depth : Nat) : Definition → Pass (Option Body)
  | .bool => pure (some .bool)
  | .string => pure (some .string)
  | .bytes => pure (some .bytes)
  | .int => pure (some .int)
  | .float => pure (some .float)
  | .link none => pure (some (.link none))
  | .link (some target) => Pass.unlessFaulty do
      let id ← scope.resolve depth target
      return id.map fun id => .link (some id)
  | .map key value valueNullable representation => Pass.unlessFaulty do
      let key ← Pass.check (scope.mapKey key)
      let value ← scope.resolve depth value
      Pass.report (representation.faults.map .invalidConfig)
      return do return .map (← key) (← value) valueNullable representation
  | .list value valueNullable => Pass.unlessFaulty do
      let id ← scope.resolve depth value
      return id.map fun id => .list id valueNullable
  | .struct fields representation => Pass.unlessFaulty do
      Pass.report ((fieldNameFaults [] (fields.map Field.name)).map .invalidConfig)
      let compiled ← scope.resolveFields depth fields
      Pass.report ((representation.faults fields).map .invalidConfig)
      return compiled.map fun compiled => .struct compiled (representation.layout fields)
  | .union members representation =>
      Pass.unlessFaulty (Pass.check ((scope.union members representation).map some))
  | .enum members representation =>
      Pass.unlessFaulty (Pass.check ((Scope.enumeration members representation).map some))
  | .copy source =>
      Pass.check ⟨none, [.unsupportedKind (Definition.copy source).keyword]⟩

/-- The compiled fields of a struct.  All of them are resolved, even behind one
that cannot be. -/
def resolveFields (scope : Scope) (depth : Nat) : List Field → Pass (Option (List StructField))
  | [] => pure (some [])
  | .mk name type optional nullable :: rest => do
      let id ← scope.resolve depth type
      let rest ← scope.resolveFields depth rest
      return do return ⟨name, ← id, optional, nullable⟩ :: (← rest)

end

end Scope
end WireSchema
