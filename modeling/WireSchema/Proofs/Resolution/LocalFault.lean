import WireSchema.Proofs.Declaration.Linked
import WireSchema.Resolution

/-!
# Faults of a definition itself

Some mistakes show in a definition whatever is wrong with the definitions it contains: a
name that is not declared, a copy, a definition in place where a name has to stand, a name
given twice, and a representation that its translator rejects.  `Definition.LocalFault`
says this of a definition; no compile, no arena and no order of declarations is involved.

What a compile reports of the definition itself is `Scope.ownFaults`, and

* `Scope.ownFaults_eq_nil_iff` says that it reports something exactly if there is a local
  fault,
* `Definition.localFault_congr` says that definitions with one canonical text have local
  faults together.

A definition is `Definition.Faulty` if it has a local fault or contains a definition that
has one.  This too is a matter of its canonical text (`Definition.not_faulty_of_text`).
-/

namespace WireSchema

/-! ## Local faults -/

/-- The name that a reference is, if it is one. -/
def Reference.name? : Reference → Option TypeName
  | .named name => some name
  | .inline _ => none

/-- The names among the references. -/
def namesOf (rs : List Reference) : List TypeName :=
  rs.filterMap Reference.name?

/-- What the translator of a union representation is told of the members, if all are
declared. -/
def MemberNames.ofMembers (declared : List TypeName) (members : List Reference) : MemberNames :=
  ⟨Table.ofList ((namesOf members).map fun name => (name, declared.idxOf name)), [], declared⟩

namespace Definition

/-- Whether the translator rejects the representation of a definition. -/
def Rejected (declared : List TypeName) : Definition → Prop
  | .map _ _ _ representation => representation.faults ≠ []
  | .struct fields representation => representation.faults fields ≠ []
  | .union members representation =>
      (representation.layout (.ofMembers declared members)).faults ≠ []
  | .enum members representation => representation.faults members ≠ []
  | _ => False

/-- The names that a definition gives to its fields or members. -/
def givenNames : Definition → List String
  | .struct fields _ => fields.map Field.name
  | .enum members _ => members
  | _ => []

/-- The members of a union, as far as they are names. -/
def memberNames : Definition → List TypeName
  | .union members _ => namesOf members
  | _ => []

/-- A mistake in a definition, apart from what the definitions in place in it contain. -/
inductive LocalFault (declared : List TypeName) (d : Definition) : Prop
  /-- A name is not declared. -/
  | undeclared (name : TypeName) (reference : .named name ∈ d.references)
      (missing : name ∉ declared)
  /-- The definition is a copy. -/
  | copy (source : TypeName) (form : d = .copy source)
  /-- A map defines its key type in place, or a union a member. -/
  | inPlace (e : Definition) (reference : .inline e ∈ d.closedReferences)
  /-- A union has a member twice. -/
  | repeatedMember (names : ¬ d.memberNames.Nodup)
  /-- A field or a member of an enum has no name. -/
  | emptyName (names : "" ∈ d.givenNames)
  /-- Two fields or two members of an enum have one name. -/
  | repeatedName (names : ¬ d.givenNames.Nodup)
  /-- The translator rejects the representation. -/
  | representation (rejected : d.Rejected declared)

end Definition

/-! ## Names of fields and members -/

theorem fieldNameFaults_eq_nil_iff {names before : List FieldName} :
    fieldNameFaults before names = [] ↔
      "" ∉ names ∧ names.Nodup ∧ ∀ name ∈ names, name ∉ before := by
  induction names generalizing before with
  | nil => simp [fieldNameFaults]
  | cons name rest ih =>
    rw [fieldNameFaults]
    split
    · next h => simp [h]
    · next h =>
      split
      · next hmem => simp [hmem]
      · next hmem =>
        rw [ih]
        grind

theorem enumMemberFaults_eq_nil_iff {members before : List String} :
    enumMemberFaults before members = [] ↔
      "" ∉ members ∧ members.Nodup ∧ ∀ member ∈ members, member ∉ before := by
  induction members generalizing before with
  | nil => simp [enumMemberFaults]
  | cons member rest ih =>
    rw [enumMemberFaults]
    split
    · next h => simp [h]
    · next h =>
      split
      · next hmem => simp [hmem]
      · next hmem =>
        rw [ih]
        grind

/-! ## Unions -/

theorem Table.mem_toList_insertAll {κ ν : Type} [DecidableEq κ] {e : κ × ν} {es : List (κ × ν)}
    {t : Table κ ν} (h : e ∈ (t.insertAll es).toList) : e ∈ t.toList ∨ e ∈ es := by
  induction es generalizing t with
  | nil => exact Or.inl h
  | cons f es ih =>
    rw [insertAll_cons] at h
    rcases ih h with h | h
    · rcases mem_insertList h with rfl | h
      · exact Or.inr (List.mem_cons_self ..)
      · exact Or.inl h
    · exact Or.inr (List.mem_cons_of_mem _ h)

theorem Table.mem_keys_insertAll {κ ν : Type} [DecidableEq κ] {t : Table κ ν}
    {es : List (κ × ν)} {key : κ} :
    key ∈ (t.insertAll es).keys ↔ key ∈ t.keys ∨ key ∈ es.map Prod.fst := by
  induction es generalizing t with
  | nil => simp [insertAll]
  | cons e es ih =>
    rw [insertAll_cons, ih, mem_keys_insert, List.map_cons, List.mem_cons, or_assoc, or_left_comm]

theorem namesOf_map_named (names : List TypeName) : namesOf (names.map .named) = names := by
  induction names with
  | nil => rfl
  | cons name names ih =>
    rw [List.map_cons]
    exact congrArg (name :: ·) ih

theorem mem_namesOf {rs : List Reference} {name : TypeName} :
    name ∈ namesOf rs ↔ .named name ∈ rs := by
  rw [namesOf, List.mem_filterMap]
  constructor
  · rintro ⟨r, hr, hname⟩
    cases r with
    | named name' =>
      obtain rfl := Option.some.inj hname
      exact hr
    | inline d => cases hname
  · intro h
    exact ⟨_, h, rfl⟩

/-- The members that a translator is told of are those that the union names. -/
theorem MemberNames.mem_keys_ofMembers {declared : List TypeName} {members : List Reference}
    {name : TypeName} :
    name ∈ (ofMembers declared members).members.keys ↔ name ∈ namesOf members := by
  have hempty : (∅ : Table TypeName TypeId).keys = [] := rfl
  refine Table.mem_keys_insertAll.trans ?_
  simp [hempty]

theorem MemberNames.mem_of_mem_keys {declared : List TypeName} {members : List Reference}
    {name : TypeName} (h : name ∈ (ofMembers declared members).members.keys) :
    .named name ∈ members :=
  mem_namesOf.1 (mem_keys_ofMembers.1 h)

/-- If they are distinct, they stand in the order of the declaration. -/
theorem MemberNames.values_ofMembers {declared : List TypeName} {members : List Reference}
    (h : (namesOf members).Nodup) :
    (ofMembers declared members).members.values = (namesOf members).map declared.idxOf := by
  have hlist : (ofMembers declared members).members.toList =
      (namesOf members).map fun name => (name, declared.idxOf name) :=
    Table.toList_ofList (by simpa [List.map_map, Function.comp_def] using h)
  rw [Table.values, hlist, List.map_map]
  rfl

theorem MemberNames.locates_ofMembers (declared : List TypeName) (members : List Reference) :
    (ofMembers declared members).Locates declared.idxOf where
  members e he := by
    rcases Table.mem_toList_insertAll he with h | h
    · cases h
    · obtain ⟨name, -, rfl⟩ := List.mem_map.1 h
      rfl
  unresolved := rfl

namespace Scope

variable (scope : Scope)

theorem resolveName_of_mem {name : TypeName} (h : name ∈ scope.declared) :
    scope.resolveName name = .ok (some (scope.declared.idxOf name)) := by
  rw [resolveName, positionOf?, if_pos h]

theorem resolveName_of_notMem {name : TypeName} (h : name ∉ scope.declared) :
    scope.resolveName name = ⟨none, [unresolvedFault scope.declared name]⟩ := by
  rw [resolveName, positionOf?, if_neg h]

/-- The members of a union raise no fault if they are distinct declared names, and then
all of them are found. -/
theorem members_eq : ∀ (members : List Reference) (names : MemberNames),
    ((scope.members names members).faults = [] ↔
      (∀ e, .inline e ∉ members) ∧ (∀ name, .named name ∈ members → name ∈ scope.declared) ∧
        (names.members.keys ++ namesOf members).Nodup) ∧
    ((scope.members names members).faults = [] →
      (scope.members names members).value =
        { names with
          members := names.members.insertAll
            ((namesOf members).map fun name => (name, scope.declared.idxOf name)) })
  | [], names => by
    refine ⟨?_, fun _ => rfl⟩
    simpa [members, Checked.ok, namesOf, Table.keys] using names.members.nodup
  | .inline e :: rest, names => by
    have hfault : (scope.members names (.inline e :: rest)).faults ≠ [] := by
      rw [members]
      exact List.cons_ne_nil _ _
    refine ⟨⟨fun h => absurd h hfault, fun h => ?_⟩, fun h => absurd h hfault⟩
    exact absurd (List.mem_cons_self ..) (h.1 e)
  | .named name :: rest, names => by
    have hnames : namesOf (.named name :: rest) = name :: namesOf rest := rfl
    by_cases hdeclared : name ∈ scope.declared
    · rw [members, resolveName_of_mem scope hdeclared]
      by_cases hcontains : names.members.contains name = true
      · have hmem : name ∈ names.members.keys := Table.contains_iff.1 hcontains
        simp only [Checked.ok, Checked.after, hcontains, if_true, hnames]
        refine ⟨⟨fun h => (by cases h), fun h => ?_⟩, fun h => (by cases h)⟩
        exact absurd rfl ((List.nodup_append.1 h.2.2).2.2 name hmem name (List.mem_cons_self ..))
      · have hnew : name ∉ names.members.keys := fun h => hcontains (Table.contains_iff.2 h)
        obtain ⟨hiff, hvalue⟩ := members_eq rest
          { names with members := names.members.insert name (scope.declared.idxOf name) }
        simp only [Checked.ok, Checked.after, hcontains, Bool.false_eq_true, if_false,
          List.nil_append, hnames]
        refine ⟨?_, hvalue⟩
        rw [hiff, Table.keys, Table.toList_insert _ hnew, List.map_append, List.append_assoc]
        simp [Table.keys, hdeclared]
    · rw [members, resolveName_of_notMem scope hdeclared]
      simp [Checked.after, hdeclared]

/-- What is wrong with a union, piece by piece. -/
theorem union_faults_eq_nil_iff (members : List Reference)
    (representation : UnionRepresentation) :
    (scope.union members representation).faults = [] ↔
      (∀ e, .inline e ∉ members) ∧ (∀ name, .named name ∈ members → name ∈ scope.declared) ∧
        (namesOf members).Nodup ∧
          (representation.layout (.ofMembers scope.declared members)).faults = [] := by
  obtain ⟨hiff, hvalue⟩ := scope.members_eq members ⟨∅, [], scope.declared⟩
  simp only [union, Checked.after, Checked.map, List.append_eq_nil_iff]
  constructor
  · rintro ⟨hmembers, hlayout⟩
    obtain ⟨hinline, hdeclared, hnodup⟩ := hiff.1 hmembers
    rw [hvalue hmembers] at hlayout
    exact ⟨hinline, hdeclared, hnodup, hlayout⟩
  · rintro ⟨hinline, hdeclared, hnodup, hlayout⟩
    have hmembers := hiff.2 ⟨hinline, hdeclared, hnodup⟩
    rw [hvalue hmembers]
    exact ⟨hmembers, hlayout⟩

theorem map_idxOf_namesOf {declared : List TypeName} {ρ : Reference → TypeId}
    (hρ : ∀ name, ρ (.named name) = declared.idxOf name) {members : List Reference}
    (h : ∀ e, .inline e ∉ members) :
    (namesOf members).map declared.idxOf = members.map ρ := by
  induction members with
  | nil => rfl
  | cons r rest ih =>
    have hrest := ih fun e he => h e (List.mem_cons_of_mem _ he)
    cases r with
    | inline e => exact absurd (List.mem_cons_self ..) (h e)
    | named name =>
      have hnames : namesOf (.named name :: rest) = name :: namesOf rest := rfl
      rw [hnames, List.map_cons, List.map_cons, hρ, hrest]

/-- **A union without faults is compiled as declared.** -/
theorem value_union {members : List Reference} {representation : UnionRepresentation}
    (h : (scope.union members representation).faults = []) {ρ : Reference → TypeId}
    (hρ : ∀ name, ρ (.named name) = scope.declared.idxOf name) :
    some (scope.union members representation).value =
      (Definition.union members representation).linked ρ := by
  obtain ⟨hinline, hdeclared, hnodup, hlayout⟩ :=
    (scope.union_faults_eq_nil_iff members representation).1 h
  obtain ⟨hiff, hvalue⟩ := scope.members_eq members ⟨∅, [], scope.declared⟩
  have hlinked := (UnionRepresentation.value_layout
    (MemberNames.locates_ofMembers scope.declared members) hlayout).1
  have hids : (MemberNames.ofMembers scope.declared members).members.values = members.map ρ := by
    rw [MemberNames.values_ofMembers hnodup, map_idxOf_namesOf hρ hinline]
  simp only [union, Checked.after, Checked.map, Definition.linked, hρ]
  rw [hvalue (hiff.2 ⟨hinline, hdeclared, hnodup⟩)]
  exact congrArg some (congrArg₂ Body.union hids hlinked)

/-! ## What is reported of a definition itself -/

/-- What is wrong with a reference itself. -/
def referenceFaults : Reference → List Fault
  | .named name => (scope.resolveName name).faults
  | .inline _ => []

/-- What is wrong with a definition, apart from the references that may be definitions in
place. -/
def formFaults : Definition → List Fault
  | .map key _ _ representation =>
      (scope.mapKey key).faults ++ representation.faults.map .invalidConfig
  | .struct fields representation =>
      (fieldNameFaults [] (fields.map Field.name)).map .invalidConfig ++
        (representation.faults fields).map .invalidConfig
  | .union members representation => (scope.union members representation).faults
  | .enum members representation => (enumeration members representation).faults
  | .copy source => [.unsupportedKind (Definition.copy source).keyword]
  | _ => []

/-- What is wrong with a definition itself. -/
def ownFaults (d : Definition) : List Fault :=
  scope.formFaults d ++ d.openReferences.flatMap scope.referenceFaults

theorem referenceFaults_named {name : TypeName} :
    scope.referenceFaults (.named name) = [] ↔ name ∈ scope.declared := by
  rw [referenceFaults]
  by_cases h : name ∈ scope.declared
  · simp [scope.resolveName_of_mem h, Checked.ok, h]
  · simp [scope.resolveName_of_notMem h, h]

theorem flatMap_referenceFaults {rs : List Reference} :
    rs.flatMap scope.referenceFaults = [] ↔ ∀ name, .named name ∈ rs → name ∈ scope.declared := by
  rw [List.flatMap_eq_nil_iff]
  constructor
  · intro h name hname
    exact scope.referenceFaults_named.1 (h _ hname)
  · intro h r hr
    cases r with
    | named name => exact scope.referenceFaults_named.2 (h name hr)
    | inline d => rfl

theorem mapKey_faults_eq_nil_iff {key : Reference} :
    (scope.mapKey key).faults = [] ↔
      (∀ e, .inline e ≠ key) ∧ ∀ name, .named name = key → name ∈ scope.declared := by
  cases key with
  | named name =>
    rw [mapKey]
    by_cases h : name ∈ scope.declared
    · simp [scope.resolveName_of_mem h, Checked.ok, h]
    · simp [scope.resolveName_of_notMem h, h]
  | inline e => simp [mapKey]

/-- Apart from what may be a definition in place, something is wrong exactly if there is a
local fault. -/
theorem formFaults_eq_nil_iff (d : Definition) :
    scope.formFaults d = [] ↔
      (∀ name, .named name ∈ d.closedReferences → name ∈ scope.declared) ∧
        (∀ source, d ≠ .copy source) ∧ (∀ e, .inline e ∉ d.closedReferences) ∧
          d.memberNames.Nodup ∧ "" ∉ d.givenNames ∧ d.givenNames.Nodup ∧
            ¬ d.Rejected scope.declared := by
  cases d with
  | map key value _ representation =>
    simp only [formFaults, List.append_eq_nil_iff, List.map_eq_nil_iff, mapKey_faults_eq_nil_iff,
      Definition.closedReferences, Definition.memberNames, Definition.givenNames,
      Definition.Rejected, List.mem_singleton]
    grind
  | struct fields representation =>
    simp only [formFaults, List.append_eq_nil_iff, List.map_eq_nil_iff,
      fieldNameFaults_eq_nil_iff, Definition.closedReferences, Definition.memberNames,
      Definition.givenNames, Definition.Rejected]
    grind
  | union members representation =>
    simp only [formFaults, union_faults_eq_nil_iff, Definition.closedReferences,
      Definition.memberNames, Definition.givenNames, Definition.Rejected]
    grind
  | enum members representation =>
    simp only [formFaults, enumeration, List.append_eq_nil_iff, List.map_eq_nil_iff,
      enumMemberFaults_eq_nil_iff, Definition.closedReferences, Definition.memberNames,
      Definition.givenNames, Definition.Rejected]
    grind
  | _ =>
    simp [formFaults, Definition.closedReferences, Definition.memberNames, Definition.givenNames,
      Definition.Rejected]

/-- **What is reported of a definition itself.**  Something is exactly if the definition
has a local fault. -/
theorem ownFaults_eq_nil_iff (d : Definition) :
    scope.ownFaults d = [] ↔ ¬ d.LocalFault scope.declared := by
  rw [ownFaults, List.append_eq_nil_iff, formFaults_eq_nil_iff, flatMap_referenceFaults]
  constructor
  · rintro ⟨⟨hclosed, hcopy, hinline, hmembers, hempty, hnames, haccepted⟩, hopen⟩ hfault
    cases hfault with
    | undeclared name reference missing =>
      rcases Definition.mem_references.1 reference with h | h
      · exact missing (hclosed name h)
      · exact missing (hopen name h)
    | copy source form => exact hcopy source form
    | inPlace e reference => exact hinline e reference
    | repeatedMember names => exact names hmembers
    | emptyName names => exact hempty names
    | repeatedName names => exact names hnames
    | representation rejected => exact haccepted rejected
  · intro hsound
    refine ⟨⟨?_, fun source h => hsound (.copy source h), fun e h => hsound (.inPlace e h),
      ?_, fun h => hsound (.emptyName h), ?_, fun h => hsound (.representation h)⟩, ?_⟩
    · intro name h
      by_contra hmissing
      exact hsound (.undeclared name (Definition.mem_references.2 (Or.inl h)) hmissing)
    · by_contra h
      exact hsound (.repeatedMember h)
    · by_contra h
      exact hsound (.repeatedName h)
    · intro name h
      by_contra hmissing
      exact hsound (.undeclared name (Definition.mem_references.2 (Or.inr h)) hmissing)

/-! ### Canonical forms -/

theorem formFaults_canonical (d : Definition) :
    scope.formFaults d.canonical = scope.formFaults d := by
  cases d with
  | link target => cases target <;> simp only [Definition.canonical, formFaults]
  | map key value _ _ =>
    rw [Definition.canonical, formFaults, formFaults]
    cases key <;> rfl
  | struct fields representation =>
    rw [Definition.canonical, formFaults, formFaults, map_name_canonicalFields,
      StructRepresentation.faults_fields (map_name_canonicalFields fields)
        (isOptionalIn_canonicalFields fields),
      StructRepresentation.faults_canonical]
  | enum members representation =>
    rw [Definition.canonical, formFaults, formFaults, enumeration, enumeration,
      EnumRepresentation.faults_canonical]
  | _ => rw [Definition.canonical] <;> first | rfl | simp

theorem openReferences_canonical (d : Definition) :
    d.canonical.openReferences = d.openReferences.map Reference.canonical := by
  cases d with
  | link target => cases target <;> (rw [Definition.canonical]; rfl)
  | struct fields _ =>
    rw [Definition.canonical, Definition.openReferences, Definition.openReferences,
      map_type_canonicalFields]
  | _ => rw [Definition.canonical] <;> first | rfl | simp

theorem ownFaults_canonical (d : Definition) : scope.ownFaults d.canonical = scope.ownFaults d := by
  rw [ownFaults, ownFaults, formFaults_canonical, openReferences_canonical, List.flatMap_map]
  congr 2
  funext r
  cases r <;> rfl

end Scope

/-! ### What is written -/

theorem isOptionalIn_fieldsAsWritten (fields : List Field) (name : FieldName) :
    isOptionalIn (fieldsAsWritten fields) name = isOptionalIn fields name := by
  induction fields with
  | nil => rw [fieldsAsWritten]
  | cons f rest ih =>
    obtain ⟨field, type, optional, nullable⟩ := f
    simp only [isOptionalIn] at ih ⊢
    by_cases h : field = name
    · simp [fieldsAsWritten, Field.name, Field.optional, h]
    · simpa [fieldsAsWritten, Field.name, h] using ih

theorem detailFaults_asWritten (fields : List Field) (es : List (FieldName × FieldDetails))
    (before : List FieldName) :
    detailFaults fields before (es.map fun e => (e.1, e.2.asWritten)) =
      detailFaults fields before es := by
  induction es generalizing before with
  | nil => rfl
  | cons e es ih =>
    obtain ⟨name, d⟩ := e
    have hd : d.asWritten.faults fields name = d.faults fields name := by
      obtain ⟨rename, implicit⟩ := d
      cases implicit <;> rfl
    simp only [List.map_cons, detailFaults, hd, ih]

theorem StructRepresentation.faults_asWritten (fields : List Field)
    (representation : StructRepresentation) :
    representation.asWritten.faults fields = representation.faults fields := by
  cases representation with
  | map details =>
    cases details with
    | none => rfl
    | some es =>
      have htable : StructLayout.map (compiledDetails (fields.map Field.name)
          (some (detailsAsWritten es))) =
            (StructLayout.map (compiledDetails (fields.map Field.name) (some es))).asWritten :=
        congrArg StructLayout.map (detailTable_asWritten (fields.map Field.name) es.toList [] ∅)
      simp only [asWritten, Option.map_some, faults, htable]
      congr 1
      · exact detailFaults_asWritten fields es.toList []
      · congr 3
        funext field
        rw [StructLayout.wireName_asWritten]
  | _ => rfl

@[simp] theorem Definition.keyword_asWritten (d : Definition) :
    d.asWritten.keyword = d.keyword := by
  cases d with
  | link target => cases target <;> simp only [asWritten, keyword]
  | _ => simp only [asWritten, keyword]

namespace Scope

variable (scope : Scope)

theorem members_asWritten (rs : List Reference) (names : MemberNames) :
    scope.members names (rs.map Reference.asWritten) = scope.members names rs := by
  induction rs generalizing names with
  | nil => rfl
  | cons r rest ih =>
    cases r with
    | named name => simp only [List.map_cons, Reference.asWritten, members, ih]
    | inline d =>
      simp only [List.map_cons, Reference.asWritten, members, ih, Definition.keyword_asWritten]

theorem formFaults_asWritten (d : Definition) :
    scope.formFaults d.asWritten = scope.formFaults d := by
  cases d with
  | link target => cases target <;> simp only [Definition.asWritten, formFaults]
  | map key value _ _ =>
    rw [Definition.asWritten, formFaults, formFaults]
    cases key <;> rfl
  | struct fields representation =>
    rw [Definition.asWritten, formFaults, formFaults, map_name_fieldsAsWritten,
      StructRepresentation.faults_fields (map_name_fieldsAsWritten fields)
        (isOptionalIn_fieldsAsWritten fields),
      StructRepresentation.faults_asWritten]
  | union members representation =>
    rw [Definition.asWritten, formFaults, formFaults, union, union, referencesAsWritten_eq_map,
      members_asWritten]
  | _ => rw [Definition.asWritten] <;> first | rfl | simp

theorem openReferences_asWritten (d : Definition) :
    d.asWritten.openReferences = d.openReferences.map Reference.asWritten := by
  cases d with
  | link target => cases target <;> (rw [Definition.asWritten]; rfl)
  | struct fields _ =>
    rw [Definition.asWritten, Definition.openReferences, Definition.openReferences,
      map_type_fieldsAsWritten]
  | _ => rw [Definition.asWritten] <;> first | rfl | simp

theorem ownFaults_asWritten (d : Definition) : scope.ownFaults d.asWritten = scope.ownFaults d := by
  rw [ownFaults, ownFaults, formFaults_asWritten, openReferences_asWritten, List.flatMap_map]
  congr 2
  funext r
  cases r <;> rfl

end Scope

/-- **Definitions with one canonical text have local faults together.** -/
theorem Definition.localFault_congr {declared : List TypeName} {d e : Definition}
    (h : d.canonical.text = e.canonical.text) : d.LocalFault declared ↔ e.LocalFault declared := by
  let scope : Scope := ⟨⟨0, false⟩, id, declared, ""⟩
  have hown : ∀ f : Definition, scope.ownFaults f.canonical.asWritten = scope.ownFaults f :=
    fun f => (scope.ownFaults_asWritten _).trans (scope.ownFaults_canonical f)
  have hiff := scope.ownFaults_eq_nil_iff
  rw [← not_iff_not, ← hiff d, ← hiff e, ← hown d, ← hown e, asWritten_eq_of_text_eq h]

/-- Without a local fault, what has to be a name is one. -/
theorem Definition.namesOnly_of_not_localFault {declared : List TypeName} {d : Definition}
    (h : ¬ d.LocalFault declared) : d.NamesOnly :=
  fun e he => h (.inPlace e he)

/-! ## Faults in what a definition contains -/

namespace Definition

/-- Whether a definition has a local fault, or one that it contains. -/
def Faulty (declared : List TypeName) (d : Definition) : Prop :=
  ∃ e ∈ d :: d.inlines, e.LocalFault declared

variable {declared : List TypeName} {d e : Definition}

/-- A definition is faulty if it has a local fault or a definition in place in it is
faulty. -/
theorem faulty_iff :
    d.Faulty declared ↔
      d.LocalFault declared ∨ ∃ e, .inline e ∈ d.references ∧ e.Faulty declared := by
  constructor
  · rintro ⟨f, hf, hfault⟩
    rcases List.mem_cons.1 hf with rfl | hf
    · exact Or.inl hfault
    · obtain ⟨e, he, hmem⟩ := mem_inlines.1 hf
      exact Or.inr ⟨e, he, f, hmem, hfault⟩
  · rintro (hfault | ⟨e, he, f, hf, hfault⟩)
    · exact ⟨d, List.mem_cons_self .., hfault⟩
    · exact ⟨f, List.mem_cons_of_mem _ ((sublist_inlines_of_mem_references he).subset hf), hfault⟩

/-- What a sound definition contains is sound. -/
theorem not_faulty_of_mem_inlines (h : ¬ d.Faulty declared) (he : e ∈ d.inlines) :
    ¬ e.Faulty declared := by
  rintro ⟨f, hf, hfault⟩
  refine h ⟨f, List.mem_cons_of_mem _ ?_, hfault⟩
  rcases List.mem_cons.1 hf with rfl | hf
  · exact he
  · exact inlines_subset he hf

/-- **Definitions with one canonical text are faulty together.** -/
theorem not_faulty_of_text (htext : d.canonical.text = e.canonical.text)
    (h : ¬ d.Faulty declared) : ¬ e.Faulty declared := by
  induction e using reference_induction generalizing d with
  | step e ih =>
    have hd : ¬ d.LocalFault declared := fun hfault => h (faulty_iff.2 (Or.inl hfault))
    have he : ¬ e.LocalFault declared := by
      rw [← localFault_congr htext]
      exact hd
    intro hfaulty
    rcases faulty_iff.1 hfaulty with hfault | ⟨g, hg, hfault⟩
    · exact he hfault
    · obtain ⟨f, hf, hfg⟩ := exists_reference_of_text (namesOnly_of_not_localFault he)
        (namesOnly_of_not_localFault hd) htext.symm hg
      exact ih g hg hfg (not_faulty_of_mem_inlines h (mem_inlines_of_mem_references hf)) hfault

end Definition

/-- Nothing is reported of a sound definition itself. -/
theorem Scope.ownFaults_of_not_faulty (scope : Scope) {d : Definition}
    (h : ¬ d.Faulty scope.declared) : scope.ownFaults d = [] :=
  (scope.ownFaults_eq_nil_iff d).2 fun hlocal => h (Definition.faulty_iff.2 (Or.inl hlocal))

end WireSchema
