import WireSchema.Arena

/-!
# Types that do not go together

Some rules are about two types at once: a map and its key type, a union and its
members, a struct field and its implicit value.  They are checked when every type
has its content.  A type without content is passed over, on either side: its own
faults have been reported.

A fault found in a type is charged to each of its owners, which for a declared
type is that type alone.
-/

namespace WireSchema
namespace CrossType

/-- Whether an implicit value fits a type with values of a kind.  A whole number
fits where another number is wanted. -/
def implicitFits (value : ImplicitValue) (expected : Option Kind) : Bool :=
  expected = some value.kind || (value.kind = .int && expected = some .float)

/-- What is wrong between a map and its key type. -/
def mapKeyFaults (a : Arena) (name : TypeName) (key : TypeId) : List ConfigFault :=
  match a.body? key with
  | none => []
  | some body =>
    if body.wireKind = some .string then [] else [.mapKeyKind name (a.nameOf key) body.wireKind]

/-- What is wrong between a kinded union and the member of a table entry. -/
def kindedFaults (a : Arena) (name : TypeName) (kind : Kind) (member : TypeId) :
    List ConfigFault :=
  match a.body? member with
  | none => []
  | some body =>
    if body.wireKind = some kind then []
    else [.memberKind name kind (a.nameOf member) body.wireKind]

/-- What is wrong between an inline union and the member of a table entry. -/
def inlineFaults (a : Arena) (name : TypeName) (discriminantKey : String) (member : TypeId) :
    List ConfigFault :=
  match a.body? member with
  | none => []
  | some (.struct fields (.map details)) =>
    if discriminantKey ∈ (Body.struct fields (.map details)).wireNames then
      [.memberHasDiscriminant name (a.nameOf member) discriminantKey]
    else []
  | some _ => [.memberNotMapStruct name (a.nameOf member)]

/-- What is wrong between the implicit value of a struct field and the type of
the field. -/
def implicitFaults (a : Arena) (name : TypeName) (fields : List StructField)
    (field : FieldName) (details : FieldDetails) : List ConfigFault :=
  match details.implicit, fields.find? (fun f => f.name = field) with
  | some value, some f =>
    match a.body? f.type with
    | none => []
    | some body =>
      if implicitFits value body.wireKind then []
      else [.implicitKind field name value.kind (a.nameOf f.type) body.wireKind]
  | _, _ => []

/-- What is wrong between a type and the types it refers to. -/
def bodyFaults (settings : Settings) (a : Arena) (name : TypeName) : Body → List ConfigFault
  | .map key _ _ _ => if settings.strictMapKeys then mapKeyFaults a name key else []
  | .union _ (.kinded table) => table.toList.flatMap fun e => kindedFaults a name e.1 e.2
  | .union _ (.inline discriminantKey table) =>
      table.toList.flatMap fun e => inlineFaults a name discriminantKey e.2
  | .struct fields (.map details) =>
      details.toList.flatMap fun e => implicitFaults a name fields e.1 e.2
  | _ => []

/-- What is wrong between the type of a slot and the types it refers to, charged
to each of its owners. -/
def slotErrors (settings : Settings) (a : Arena) (slot : Slot) : List CompileError :=
  match slot.body with
  | none => []
  | some body =>
    (bodyFaults settings a slot.name body).flatMap fun fault =>
      slot.owners.map fun owner => .charged owner (.invalidConfig fault)

/-- Everything that is wrong between two types of an arena. -/
def errors (settings : Settings) (a : Arena) : List CompileError :=
  a.slots.flatMap (slotErrors settings a)

end CrossType
end WireSchema
