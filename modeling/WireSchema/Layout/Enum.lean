import WireSchema.Fault
import WireSchema.TypeSystem.Body

/-!
# Layouts of enums

Every member of an enum has a wire value.  In the string form a member that the
table does not list stands for itself; in the integer form every member has to be
listed.  Two members must not share a wire value, whether it is listed or taken
for granted.
-/

namespace WireSchema

/-- What is wrong with the keys of a representation: one is no member, or occurs
again.  `before` are the members that occurred. -/
def memberKeyFaults (members before : List String) : List String → List ConfigFault
  | [] => []
  | key :: rest =>
    if key ∉ members then .unknownEnumMember key :: memberKeyFaults members before rest
    else if key ∈ before then .repeatedWireValue key :: memberKeyFaults members before rest
    else memberKeyFaults members (key :: before) rest

/-- The wire string of a member: the first one listed, or the member itself. -/
def wireString (table : Entries String String) (member : String) : String :=
  (table.get? member).getD member

/-- What is wrong with the wire strings of members: one is empty, or used by an
earlier member. -/
def wireStringFaults (table : Entries String String) (used : List String) :
    List String → List ConfigFault
  | [] => []
  | member :: rest =>
    let wire := wireString table member
    if wire = "" then .emptyWireString member :: wireStringFaults table used rest
    else if wire ∈ used then .repeatedWireString wire :: wireStringFaults table used rest
    else wireStringFaults table (wire :: used) rest

/-- What is wrong with the wire integers of members: one is missing, or used by
an earlier member. -/
def wireIntFaults (table : Entries String Int) (used : List Int) : List String → List ConfigFault
  | [] => []
  | member :: rest =>
    match table.get? member with
    | none => .missingWireInt member :: wireIntFaults table used rest
    | some wire =>
      if wire ∈ used then .repeatedWireInt wire :: wireIntFaults table used rest
      else wireIntFaults table (wire :: used) rest

namespace EnumRepresentation

/-- The layout of an enum with these members. -/
def layout (members : List String) : EnumRepresentation → EnumLayout
  | .string table => .string (Table.ofList (members.map fun m => (m, wireString table m)))
  | .int table =>
      .int (Table.ofList (members.filterMap fun m => (table.get? m).map fun wire => (m, wire)))

/-- What is wrong with the representation of an enum with these members. -/
def faults (members : List String) : EnumRepresentation → List ConfigFault
  | .string table =>
      memberKeyFaults members [] table.keys ++ wireStringFaults table [] members
  | .int table => memberKeyFaults members [] table.keys ++ wireIntFaults table [] members

end EnumRepresentation

/-- What is wrong with the members of an enum: one is empty, or has been listed
before. -/
def enumMemberFaults (before : List String) : List String → List ConfigFault
  | [] => []
  | member :: rest =>
    if member = "" then .emptyEnumMember :: enumMemberFaults before rest
    else if member ∈ before then .repeatedEnumMember member :: enumMemberFaults before rest
    else enumMemberFaults (member :: before) rest

end WireSchema
