import Mathlib.Data.List.Nodup
import WireSchema.Proofs.Layout.Redundancy
import WireSchema.Proofs.Layout.Tables
import WireSchema.Proofs.Resolution.LocalFault
import WireSchema.Proofs.Resolution.Passes

/-!
# Enums with injective tables

Every member of an enum stands for a wire value, and nobody can read the value back if two
members share one.  `EnumRepresentation.Injective` says of the declaration alone when this does
not happen.  In the string form the values are partly listed and partly taken for granted: a
member that the table leaves out stands for itself, and so its name is among the values that the
listed members must not use.

The keys of a table and the values of the members are checked apart from each other.  The check of
the values looks members up in the table as it is written, where a first entry wins over a
repeated one; only because the other check refuses repetitions are these all the values there
are (`Entries.filterMap_get?_keys`).

Main statement: `EnumRepresentation.accepted_iff_injective`.
-/

namespace WireSchema

/-! ## What the checks accept -/

theorem memberKeyFaults_eq_nil_iff {members before keys : List String} :
    memberKeyFaults members before keys = [] ↔
      keys ⊆ members ∧ keys.Nodup ∧ ∀ key ∈ keys, key ∉ before := by
  induction keys generalizing before with
  | nil => simp [memberKeyFaults]
  | cons key rest ih =>
    rw [memberKeyFaults, List.cons_subset, List.nodup_cons, List.forall_mem_cons]
    by_cases hmember : key ∈ members
    · rw [if_neg (not_not_intro hmember)]
      by_cases hmet : key ∈ before
      · simp [hmet]
      · rw [if_neg hmet, ih]
        grind
    · simp [hmember]

theorem wireStringFaults_eq_nil_iff {table : Entries String String} {used members : List String} :
    wireStringFaults table used members = [] ↔
      "" ∉ members.map (wireString table) ∧ (members.map (wireString table)).Nodup ∧
        ∀ wire ∈ members.map (wireString table), wire ∉ used := by
  induction members generalizing used with
  | nil => simp [wireStringFaults]
  | cons member rest ih =>
    rw [wireStringFaults, List.map_cons, List.nodup_cons, List.forall_mem_cons]
    by_cases hempty : wireString table member = ""
    · simp [hempty]
    · simp only [if_neg hempty]
      by_cases hused : wireString table member ∈ used
      · simp [hused]
      · rw [if_neg hused, ih]
        grind

theorem wireIntFaults_eq_nil_iff {table : Entries String Int} {used : List Int}
    {members : List String} :
    wireIntFaults table used members = [] ↔
      members ⊆ table.keys ∧ (members.filterMap table.get?).Nodup ∧
        ∀ wire ∈ members.filterMap table.get?, wire ∉ used := by
  induction members generalizing used with
  | nil => simp [wireIntFaults]
  | cons member rest ih =>
    rw [wireIntFaults, List.cons_subset]
    cases hget : table.get? member with
    | none =>
      refine iff_of_false (List.cons_ne_nil _ _) fun h => ?_
      exact Entries.get?_eq_none_iff.1 hget h.1.1
    | some wire =>
      have hlisted : member ∈ table.keys :=
        List.mem_map_of_mem (Entries.mem_toList_of_get? hget)
      rw [List.filterMap_cons_some hget, List.nodup_cons, List.forall_mem_cons]
      by_cases hused : wire ∈ used
      · simp [hused]
      · simp only [if_neg hused, ih]
        grind

/-- A wire string is listed, or the name of a member that is not. -/
theorem wireString_cases (table : Entries String String) (member : String) :
    (member, wireString table member) ∈ table.toList ∨
      member ∉ table.keys ∧ wireString table member = member := by
  rw [wireString]
  cases hget : table.get? member with
  | none => exact Or.inr ⟨Entries.get?_eq_none_iff.1 hget, rfl⟩
  | some wire => exact Or.inl (Entries.mem_toList_of_get? hget)

theorem wireString_of_notMem {table : Entries String String} {member : String}
    (h : member ∉ table.keys) : wireString table member = member := by
  rw [wireString, Entries.get?_eq_none_iff.2 h]
  rfl

/-! ## The rules -/

/-- Every wire value stands for one member at most. -/
def EnumLayout.TellsApart : EnumLayout → Prop
  | .string table => ∀ e ∈ table.toList, ∀ f ∈ table.toList, e.2 = f.2 → e = f
  | .int table => ∀ e ∈ table.toList, ∀ f ∈ table.toList, e.2 = f.2 → e = f

namespace EnumRepresentation

variable {members : List String} {representation : EnumRepresentation}

/-- The rules by which the members of an enum get wire values of their own. -/
def Injective (members : List String) : EnumRepresentation → Prop
  | .string table =>
      table.keys ⊆ members ∧ table.keys.Nodup ∧
        "" ∉ members.map (wireString table) ∧ (members.map (wireString table)).Nodup
  | .int table =>
      table.keys ⊆ members ∧ table.keys.Nodup ∧ members ⊆ table.keys ∧ table.values.Nodup

/-- A layout has the form of a representation, and the members for keys, in declared order.  Its
values are those that are listed; for a member that is not, its own name. -/
inductive Assigns (members : List String) : EnumRepresentation → EnumLayout → Prop
  | string {table : Entries String String} {compiled : Table String String}
      (keys : compiled.keys = members)
      (values : ∀ e ∈ compiled.toList, e ∈ table.toList ∨ e.1 ∉ table.keys ∧ e.2 = e.1) :
      Assigns members (.string table) (.string compiled)
  | int {table : Entries String Int} {compiled : Table String Int}
      (keys : compiled.keys = members) (values : ∀ e ∈ compiled.toList, e ∈ table.toList) :
      Assigns members (.int table) (.int compiled)

/-- The members of an integer form have all values of its table. -/
theorem perm_values {table : Entries String Int} (hdistinct : members.Nodup)
    (hkeys : table.keys ⊆ members) (hnodup : table.keys.Nodup) (hlisted : members ⊆ table.keys) :
    (members.filterMap table.get?).Perm table.values := by
  have hperm : members.Perm table.keys :=
    (List.perm_ext_iff_of_nodup hdistinct hnodup).2 fun _ =>
      ⟨fun hmem => hlisted hmem, fun hmem => hkeys hmem⟩
  exact Entries.filterMap_get?_keys hnodup ▸ hperm.filterMap _

/-- **The translator's rules.**  Of an enum with distinct members it accepts the injective
representations. -/
theorem faults_eq_nil_iff_injective (hdistinct : members.Nodup)
    (representation : EnumRepresentation) :
    representation.faults members = [] ↔ representation.Injective members := by
  cases representation with
  | string table =>
    simp only [faults, List.append_eq_nil_iff, memberKeyFaults_eq_nil_iff,
      wireStringFaults_eq_nil_iff, Injective, List.not_mem_nil, not_false_eq_true, implies_true,
      and_true, and_assoc]
  | int table =>
    simp only [faults, List.append_eq_nil_iff, memberKeyFaults_eq_nil_iff,
      wireIntFaults_eq_nil_iff, Injective, List.not_mem_nil, not_false_eq_true, implies_true,
      and_true, and_assoc]
    refine and_congr_right fun hkeys => and_congr_right fun hnodup =>
      and_congr_right fun hlisted => ?_
    exact (perm_values hdistinct hkeys hnodup hlisted).nodup_iff

/-- The layout of an injective representation gives every member its value, and no two the
same. -/
theorem Injective.assigns_layout (h : representation.Injective members)
    (hdistinct : members.Nodup) :
    representation.Assigns members (representation.layout members) ∧
      (representation.layout members).TellsApart := by
  cases representation with
  | string table =>
    have hentries : (Table.ofList (members.map fun m => (m, wireString table m))).toList =
        members.map fun m => (m, wireString table m) := by
      refine Table.toList_ofList ?_
      rw [List.map_map]
      exact (List.map_id members).symm ▸ hdistinct
    refine ⟨.string ?_ ?_, ?_⟩
    · rw [Table.keys, hentries, List.map_map]
      exact List.map_id members
    · rw [hentries, List.forall_mem_map]
      exact fun member _ => wireString_cases table member
    · refine List.inj_on_of_nodup_map (f := Prod.snd) ?_
      rw [hentries, List.map_map]
      exact h.2.2.2
  | int table =>
    obtain ⟨hkeys, hnodup, hlisted, hvalues⟩ := h
    have hfound : ∀ member ∈ members, ∃ wire, table.get? member = some wire := fun member hmem =>
      Option.ne_none_iff_exists'.1 fun hnone =>
        Entries.get?_eq_none_iff.1 hnone (hlisted hmem)
    have hmembers : (members.filterMap fun m => (table.get? m).map fun wire => (m, wire)).map
        Prod.fst = members := by
      rw [List.map_filterMap]
      refine (List.filterMap_congr fun member hmem => ?_).trans List.filterMap_some
      obtain ⟨wire, hwire⟩ := hfound member hmem
      rw [hwire]
      rfl
    have hentries : (Table.ofList (members.filterMap fun m =>
        (table.get? m).map fun wire => (m, wire))).toList =
          members.filterMap fun m => (table.get? m).map fun wire => (m, wire) :=
      Table.toList_ofList (hmembers.symm ▸ hdistinct)
    refine ⟨.int ?_ ?_, ?_⟩
    · rw [Table.keys, hentries, hmembers]
    · intro e he
      rw [hentries, List.mem_filterMap] at he
      obtain ⟨member, -, hmap⟩ := he
      obtain ⟨wire, hwire, rfl⟩ := Option.map_eq_some_iff.1 hmap
      exact Entries.mem_toList_of_get? hwire
    · refine List.inj_on_of_nodup_map (f := Prod.snd) ?_
      have hwires : (members.filterMap fun m => (table.get? m).map fun wire => (m, wire)).map
          Prod.snd = members.filterMap table.get? := by
        rw [List.map_filterMap]
        refine List.filterMap_congr fun member _ => ?_
        cases table.get? member <;> rfl
      rw [hentries, hwires]
      exact (perm_values hdistinct hkeys hnodup hlisted).nodup_iff.2 hvalues

/-- A listed string is not the name of another member that stands for itself. -/
theorem Injective.ne_unlisted {table : Entries String String}
    (h : (EnumRepresentation.string table).Injective members) {e : String × String}
    (he : e ∈ table.toList) (hmember : e.2 ∈ members) : e.2 ∈ table.keys := by
  by_contra hunlisted
  obtain ⟨hkeys, hnodup, -, hwires⟩ := h
  have hlisted : e.1 ∈ table.keys := List.mem_map_of_mem he
  have hsame : wireString table e.1 = wireString table e.2 := by
    rw [wireString_of_notMem hunlisted, wireString,
      (Entries.get?_eq_some_iff_of_nodup hnodup e.1 e.2).2 he]
    rfl
  have heq := List.inj_on_of_nodup_map hwires (hkeys hlisted) hmember hsame
  exact hunlisted (heq ▸ hlisted)

end EnumRepresentation

/-- An enum is compiled from its members and its representation alone. -/
theorem Scope.compile_enum (scope : Scope) (depth : Nat) (members : List String)
    (representation : EnumRepresentation) (a : Arena) :
    let faults := (enumMemberFaults [] members ++ representation.faults members).map
      Fault.invalidConfig
    scope.compile depth (.enum members representation) a =
      (⟨if faults.isEmpty then some (.enum members (representation.layout members)) else none,
        faults⟩, a) := by
  rw [compile, Pass.unlessFaulty_apply, Pass.check_apply]
  rfl

namespace EnumRepresentation

/-- **An enum is accepted exactly if its table is injective.**  No fault is found in it if and
only if its members are distinct and not empty, and its representation follows the rules.  Then
it has a content, whose layout gives the members their values in declared order, and every value
stands for one member at most.  A listed string that is the name of a member which is not listed
is refused, whatever else the table says. -/
theorem accepted_iff_injective (scope : Scope) (depth : Nat) (a : Arena) (members : List String)
    (representation : EnumRepresentation) :
    let compiled := (scope.compile depth (.enum members representation) a).1
    (compiled.faults = [] ↔
        "" ∉ members ∧ members.Nodup ∧ representation.Injective members) ∧
      (compiled.faults = [] → ∃ layout, compiled.value = some (.enum members layout) ∧
        representation.Assigns members layout ∧ layout.TellsApart) ∧
      ∀ table, representation = .string table → ∀ e ∈ table.toList, e.2 ∈ members →
        e.2 ∉ table.keys → compiled.faults ≠ [] := by
  have hcompile := scope.compile_enum depth members representation a
  have haccepted : (scope.compile depth (.enum members representation) a).1.faults = [] ↔
      "" ∉ members ∧ members.Nodup ∧ representation.Injective members := by
    simp only [hcompile, List.map_eq_nil_iff, List.append_eq_nil_iff, enumMemberFaults_eq_nil_iff,
      List.not_mem_nil, not_false_eq_true, implies_true, and_true, and_assoc]
    exact and_congr_right fun _ => and_congr_right fun hdistinct =>
      faults_eq_nil_iff_injective hdistinct representation
  refine ⟨haccepted, fun hnone => ⟨representation.layout members, ?_, ?_⟩, ?_⟩
  · rw [hcompile] at hnone ⊢
    exact if_pos (List.isEmpty_iff.2 hnone)
  · obtain ⟨-, hdistinct, hinjective⟩ := haccepted.1 hnone
    exact hinjective.assigns_layout hdistinct
  · rintro table rfl e he hmember hunlisted hnone
    exact hunlisted ((haccepted.1 hnone).2.2.ne_unlisted he hmember)

/-- Two members with each other's names, and one that stands for itself. -/
def swappedMembers : EnumRepresentation :=
  .string ⟨[("b", "a"), ("a", "b")]⟩

/-- The first member has the name of the last one, which is not listed. -/
def borrowedMember : EnumRepresentation :=
  .string ⟨[("b", "a"), ("a", "c")]⟩

theorem accepted_iff_injective_swappedMembers (scope : Scope) :
    (∃ layout, (scope.compile 0 (.enum ["a", "b", "c"] swappedMembers) ⟨[], []⟩).1.value =
        some (.enum ["a", "b", "c"] layout) ∧
      swappedMembers.Assigns ["a", "b", "c"] layout ∧ layout.TellsApart) ∧
    (scope.compile 0 (.enum ["a", "b", "c"] borrowedMember) ⟨[], []⟩).1.faults ≠ [] := by
  obtain ⟨haccepted, hlayout, -⟩ :=
    accepted_iff_injective scope 0 ⟨[], []⟩ ["a", "b", "c"] swappedMembers
  obtain ⟨-, -, hrefused⟩ :=
    accepted_iff_injective scope 0 ⟨[], []⟩ ["a", "b", "c"] borrowedMember
  have hinjective : swappedMembers.Injective ["a", "b", "c"] :=
    ⟨by decide, by decide, by decide, by decide⟩
  exact ⟨hlayout (haccepted.2 ⟨by decide, by decide, hinjective⟩),
    hrefused _ rfl ("a", "c") (by decide) (by decide) (by decide)⟩

end EnumRepresentation
end WireSchema
