import WireSchema.Declaration.Basic

/-!
# Canonical forms

A definition can be spelled in several ways that mean the same.  Three spellings
are redundant: details of a struct field that change nothing, the wire string of
an enum member that is the member's own name, and a field order that is the
declared one.  The canonical form drops them, everywhere in a definition, and
definitions in place with equal canonical forms become one type.

A spelling is dropped only if dropping it cannot hide a mistake.  An entry for a
name that is not declared, or one of several entries for the same name, stays
whatever it says: the compiler has to report it.  For the same reason a field
order stays where two fields share a name.
-/

namespace WireSchema

/-- The entries for fields that either say something or are mistaken; absent if
there are none.  `declared` are the names of the fields. -/
def canonicalDetails (declared : List FieldName) (details : Entries FieldName FieldDetails) :
    Option (Entries FieldName FieldDetails) :=
  let kept := details.filter fun name d =>
    !d.isVoid || decide (1 < details.occurrences name) || !declared.contains name
  if kept.isEmpty then none else some kept

/-- Whether no name occurs twice. -/
def allDistinct : List String → Bool
  | [] => true
  | x :: xs => !xs.contains x && allDistinct xs

/-- A field order, absent if it is the declared one and that one is clear. -/
def canonicalOrder (declared : List FieldName) :
    Option (List FieldName) → Option (List FieldName)
  | none => none
  | some order => if allDistinct declared ∧ order = declared then none else some order

/-- A struct representation without redundant spellings. -/
def StructRepresentation.canonical (declared : List FieldName) :
    StructRepresentation → StructRepresentation
  | .map details => .map (details.bind (canonicalDetails declared))
  | .tuple order => .tuple (canonicalOrder declared order)
  | .stringJoin join order => .stringJoin join (canonicalOrder declared order)
  | .stringPairs delimiters => .stringPairs delimiters
  | .listPairs => .listPairs

/-- An enum representation without redundant spellings. -/
def EnumRepresentation.canonical (members : List String) :
    EnumRepresentation → EnumRepresentation
  | .string table => .string <| table.filter fun member value =>
      member != value || decide (1 < table.occurrences member) || !members.contains member
  | .int table => .int table

mutual

/-- A reference whose definition in place, if it is one, is canonical. -/
def Reference.canonical : Reference → Reference
  | .named name => .named name
  | .inline definition => .inline definition.canonical

/-- The same definition without redundant spellings.  The members of a union are
kept as they are: a definition in place is a mistake there. -/
def Definition.canonical : Definition → Definition
  | .link none => .link none
  | .link (some target) => .link (some target.canonical)
  | .map key value valueNullable representation =>
      .map key.canonical value.canonical valueNullable representation
  | .list value valueNullable => .list value.canonical valueNullable
  | .struct fields representation =>
      .struct (canonicalFields fields) (representation.canonical (fields.map Field.name))
  | .enum members representation => .enum members (representation.canonical members)
  | other => other

/-- Fields whose types are canonical. -/
def canonicalFields : List Field → List Field
  | [] => []
  | .mk name type optional nullable :: rest =>
      .mk name type.canonical optional nullable :: canonicalFields rest

end

/-! ## Equality of declarations -/

/-- Whether two details are equal, with implicit values compared as values. -/
def FieldDetails.same (a b : FieldDetails) : Bool :=
  a.rename == b.rename &&
    match a.implicit, b.implicit with
    | none, none => true
    | some x, some y => x.same y
    | _, _ => false

/-- Whether two lists of details are equal, entry by entry. -/
def sameDetails : List (FieldName × FieldDetails) → List (FieldName × FieldDetails) → Bool
  | [], [] => true
  | (n, x) :: xs, (m, y) :: ys => n == m && x.same y && sameDetails xs ys
  | _, _ => false

/-- Whether two struct representations are equal, with implicit values compared as
values. -/
def StructRepresentation.same : StructRepresentation → StructRepresentation → Bool
  | .map (some a), .map (some b) => sameDetails a.toList b.toList
  | .map a, .map b => a.isNone && b.isNone
  | a, b => a == b

mutual

/-- Whether two references are equal, with implicit values compared as values. -/
def Reference.same : Reference → Reference → Bool
  | .named a, .named b => a == b
  | .inline a, .inline b => a.same b
  | _, _ => false

/-- Whether two definitions are equal, with implicit values compared as values. -/
def Definition.same : Definition → Definition → Bool
  | .bool, .bool => true
  | .string, .string => true
  | .bytes, .bytes => true
  | .int, .int => true
  | .float, .float => true
  | .link none, .link none => true
  | .link (some a), .link (some b) => a.same b
  | .map k v n r, .map k' v' n' r' => k.same k' && v.same v' && n == n' && r == r'
  | .list v n, .list v' n' => v.same v' && n == n'
  | .struct fs r, .struct fs' r' => sameFields fs fs' && r.same r'
  | .union ms r, .union ms' r' => sameReferences ms ms' && r == r'
  | .enum ms r, .enum ms' r' => ms == ms' && r == r'
  | .copy a, .copy b => a == b
  | _, _ => false

/-- Whether two lists of fields are equal, field by field. -/
def sameFields : List Field → List Field → Bool
  | [], [] => true
  | .mk n t o u :: fs, .mk n' t' o' u' :: fs' =>
      n == n' && t.same t' && o == o' && u == u' && sameFields fs fs'
  | _, _ => false

/-- Whether two lists of references are equal, reference by reference. -/
def sameReferences : List Reference → List Reference → Bool
  | [], [] => true
  | r :: rs, r' :: rs' => r.same r' && sameReferences rs rs'
  | _, _ => false

end

/-- Whether two lists of declarations are equal, in order. -/
def sameDeclarations :
    List (TypeName × Definition) → List (TypeName × Definition) → Bool
  | [], [] => true
  | (n, d) :: ds, (m, e) :: es => n == m && d.same e && sameDeclarations ds es
  | _, _ => false

/-- Whether two schemas declare the same in the same order. -/
def Schema.same (s t : Schema) : Bool :=
  sameDeclarations s.types.toList t.types.toList

end WireSchema
