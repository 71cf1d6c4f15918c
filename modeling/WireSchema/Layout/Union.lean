import WireSchema.Fault
import WireSchema.TypeSystem.Body
import WireSchema.Suggestion

/-!
# Layouts of unions

A discriminant table says by which key, kind, beginning or byte each member is
known.  Here a table and its faults cannot be told apart: a key counts as used
only once an entry under it has been accepted, and whether an entry is accepted
depends on its member.  So each table is one pass over its entries, which carries
the table so far and the faults so far.

## Members that are already in trouble

An entry may name a member that is not declared.  If the union lists that member
its fault has been reported, and the entry adds none; if the union does not list
it, the entry is where the missing name is met first.
-/

namespace WireSchema

/-- The position of a declared name, in the order of declaration. -/
def positionOf? (declared : List TypeName) (name : TypeName) : Option TypeId :=
  if name ∈ declared then some (declared.idxOf name) else none

/-- The fault of a name that is not declared. -/
def unresolvedFault (declared : List TypeName) (name : TypeName) : Fault :=
  .unresolved name (Suggestion.suggest name declared)

/-- What a union knows about names. -/
structure MemberNames where
  /-- The members that were found, with their positions. -/
  members : Table TypeName TypeId
  /-- The members that are not declared; their faults are reported already. -/
  unresolved : List TypeName
  /-- All declared names. -/
  declared : List TypeName

namespace MemberNames

/-- The member that a table entry names, or what is wrong with the entry. -/
def find (names : MemberNames) (name : TypeName) : Checked (Option TypeId) :=
  match names.members.get? name with
  | some id => .ok (some id)
  | none =>
    if name ∈ names.unresolved then .ok none
    else if name ∈ names.declared then ⟨none, [.invalidConfig (.notMember name)]⟩
    else ⟨none, [unresolvedFault names.declared name]⟩

end MemberNames

/-- A table from keys to members, and what is wrong with it.  `repeated` is the
fault of a key that is used already. -/
def memberTable {κ : Type} [DecidableEq κ] (names : MemberNames) (repeated : κ → ConfigFault) :
    Table κ TypeId → List (κ × TypeName) → Checked (Table κ TypeId)
  | table, [] => .ok table
  | table, (key, member) :: rest =>
    if table.contains key then
      (memberTable names repeated table rest).after [.invalidConfig (repeated key)]
    else
      let found := names.find member
      let table :=
        match found.value with
        | some id => table.insert key id
        | none => table
      (memberTable names repeated table rest).after found.faults

/-- A discriminant table, and what is wrong with it. -/
def discriminants (names : MemberNames) (sort : TableKey) (es : Entries String TypeName) :
    Checked (Table String TypeId) :=
  memberTable names (.repeatedKey sort) ∅ es.toList

/-- A table of kinds, and what is wrong with it. -/
def kinds (names : MemberNames) (es : Entries Kind TypeName) : Checked (Table Kind TypeId) :=
  memberTable names .repeatedKind ∅ es.toList

/-- A whole number as a byte. -/
def byte? (value : Int) : Option UInt8 :=
  if 0 ≤ value ∧ value ≤ 255 then some (UInt8.ofNat value.toNat) else none

/-- A table from members to bytes, and what is wrong with it.  `used` are the
bytes so far. -/
def byteTable (names : MemberNames) :
    Table TypeId UInt8 → (used : List UInt8) → List (TypeName × Int) → Checked (Table TypeId UInt8)
  | table, _, [] => .ok table
  | table, used, (member, value) :: rest =>
    match byte? value with
    | none =>
      (byteTable names table used rest).after [.invalidConfig (.byteOutside value member)]
    | some byte =>
      let found := names.find member
      let repeatedByte := if byte ∈ used then [Fault.invalidConfig (.repeatedByte byte)] else []
      match found.value with
      | none => (byteTable names table (byte :: used) rest).after (repeatedByte ++ found.faults)
      | some id =>
        let repeatedMember :=
          if table.contains id then [Fault.invalidConfig (.repeatedByteMember member)] else []
        (byteTable names (table.insert id byte) (byte :: used) rest).after
          (repeatedByte ++ found.faults ++ repeatedMember)

/-- Whether one of two texts begins with the other. -/
def overlap (a b : String) : Bool :=
  a.toList.isPrefixOf b.toList || b.toList.isPrefixOf a.toList

/-- What is wrong with the prefixes of a union: one is empty, or begins with
another.  Equal prefixes are reported as repeated keys. -/
def stringPrefixFaults : List String → List ConfigFault
  | [] => []
  | a :: rest =>
    (if a = "" then [.emptyStringPrefix]
      else (rest.filter fun b => a != b && overlap a b).map (.overlappingPrefixes a)) ++
      stringPrefixFaults rest

namespace UnionRepresentation

/-- The layout of a union, and what is wrong with its representation. -/
def layout (names : MemberNames) : UnionRepresentation → Checked UnionLayout
  | .keyed table => (discriminants names .wireKey table).map .keyed
  | .kinded table => (kinds names table).map .kinded
  | .envelope discriminantKey contentKey table =>
      let keyFaults : List ConfigFault :=
        (if discriminantKey = "" then [.emptyEnvelopeDiscriminant] else []) ++
        (if contentKey = "" then [.emptyEnvelopeContent] else []) ++
        (if contentKey ≠ "" ∧ discriminantKey = contentKey then [.sameEnvelopeKeys contentKey]
          else [])
      ((discriminants names .discriminant table).map (.envelope discriminantKey contentKey)).after
        (keyFaults.map .invalidConfig)
  | .inline discriminantKey table =>
      ((discriminants names .discriminant table).map (.inline discriminantKey)).after
        (if discriminantKey = "" then [.invalidConfig .emptyInlineDiscriminant] else [])
  | .stringPrefix table =>
      let checked := discriminants names .stringPrefix table
      ⟨.stringPrefix checked.value,
        checked.faults ++ (stringPrefixFaults table.keys).map .invalidConfig⟩
  | .bytePrefix table => (byteTable names ∅ [] table.toList).map .bytePrefix

end UnionRepresentation
end WireSchema
