import WireSchema.Declaration.Basic

/-!
# Making declarations

Most parts of a declaration are usually left at what a document that does not
mention them means.  The functions here take the parts that vary; a name stands
for a reference to the type of that name, and a definition for itself in place.
-/

namespace WireSchema

instance : Coe TypeName Reference := ⟨.named⟩

instance : Coe Definition Reference := ⟨.inline⟩

namespace Field

/-- A field that is always there and never null. -/
def plain (name : FieldName) (type : Reference) : Field :=
  .mk name type false false

/-- The field, which may be absent. -/
def asOptional : Field → Field
  | .mk name type _ nullable => .mk name type true nullable

/-- The field, which may hold null. -/
def asNullable : Field → Field
  | .mk name type optional _ => .mk name type optional true

end Field

namespace Definition

/-- A link to a value of any type. -/
def anyLink : Definition := .link none

/-- A link to a value of a type. -/
def linkTo (target : Reference) : Definition := .link (some target)

/-- A list of values of a type. -/
def listOf (value : Reference) : Definition := .list value false

/-- A map from keys of a type to values of another. -/
def mapOf (key value : Reference) : Definition := .map key value false .standard

/-- A struct with these fields. -/
def structOf (fields : List Field) : Definition := .struct fields .standard

/-- An enum with these members. -/
def enumOf (members : List String) : Definition := .enum members .standard

/-- The definition whose values may be null, if it is that of a list or map. -/
def withNullableValues : Definition → Definition
  | .list value _ => .list value true
  | .map key value _ representation => .map key value true representation
  | other => other

end Definition

end WireSchema
