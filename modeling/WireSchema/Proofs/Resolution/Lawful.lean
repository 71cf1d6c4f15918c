import WireSchema.Proofs.Declaration.Wire
import WireSchema.Proofs.Resolution.Order

/-!
# Lawful structs

A struct is written as a map, a tuple or a text, and its representation says under which names
and in which order its fields stand there.  `StructRepresentation.Lawful` are the rules for this.
They speak of the declaration only: that details belong to fields, that an order is a
rearrangement of the fields, that the names on the wire are distinct.

The translator looks at details, orders and wire names entry by entry, and passes over an entry
once it has reported it; its faults amount to these rules
(`StructRepresentation.faults_eq_nil_iff_lawful`).  The wire names it compares are those of the
details as they are compiled, so a rename that is given twice or for no field is not among them.
If nothing is wrong they are the names of the declaration, and those that the compiled struct
shows (`StructRepresentation.accepted_iff_lawful`).
-/

namespace WireSchema

/-! ## Details of fields -/

/-- Where names are distinct, a field is the one that its name stands for. -/
theorem isOptionalIn_eq {fields : List Field} (hdistinct : (fields.map Field.name).Nodup)
    {f : Field} (hf : f ∈ fields) : isOptionalIn fields f.name = f.optional := by
  rw [isOptionalIn]
  cases hfind : fields.find? fun g => g.name = f.name with
  | none =>
    rw [List.find?_eq_none] at hfind
    exact absurd (decide_eq_true rfl) (hfind f hf)
  | some g =>
    have hname : g.name = f.name := by simpa using List.find?_some hfind
    rw [List.inj_on_of_nodup_map hdistinct (List.mem_of_find?_eq_some hfind) hf hname]

/-- The details of one field are accepted if they give it no empty name, and no value that is
assumed for it if it may be absent. -/
theorem FieldDetails.faults_eq_nil_iff {fields : List Field}
    (hdistinct : (fields.map Field.name).Nodup) {f : Field} (hf : f ∈ fields)
    (d : FieldDetails) :
    d.faults fields f.name = [] ↔
      d.rename ≠ some "" ∧ (f.optional = true → d.implicit = none) := by
  rw [faults, isOptionalIn_eq hdistinct hf]
  cases d.implicit <;> simp

/-- The name of a field on the wire is its own or a new one. -/
theorem FieldName.onWire_cases (field : FieldName)
    (details : Option (Entries FieldName FieldDetails)) :
    FieldName.onWire field details = field ∨
      ∃ es ∈ details, ∃ e ∈ es.toList, e.2.rename = some (FieldName.onWire field details) := by
  cases details with
  | none => exact Or.inl rfl
  | some es =>
    rw [onWire]
    cases hget : es.get? field with
    | none => exact Or.inl rfl
    | some d =>
      obtain ⟨e, hfind, rfl⟩ := Option.map_eq_some_iff.1 hget
      cases hrename : e.2.rename with
      | none => exact Or.inl (by simp [hrename])
      | some name =>
        refine Or.inr ⟨es, rfl, e, List.mem_of_find?_eq_some hfind, ?_⟩
        simp [hrename]

theorem detailFaults_eq_nil_iff {fields : List Field} {es : List (FieldName × FieldDetails)}
    {before : List FieldName} :
    detailFaults fields before es = [] ↔
      es.map Prod.fst ⊆ fields.map Field.name ∧ (es.map Prod.fst).Nodup ∧
        (∀ e ∈ es, e.1 ∉ before) ∧ ∀ e ∈ es, e.2.faults fields e.1 = [] := by
  induction es generalizing before with
  | nil => simp [detailFaults]
  | cons e es ih =>
    obtain ⟨name, d⟩ := e
    rw [detailFaults, List.map_cons, List.cons_subset, List.nodup_cons, List.forall_mem_cons,
      List.forall_mem_cons]
    by_cases hdeclared : name ∈ fields.map Field.name
    · rw [if_neg (not_not_intro hdeclared)]
      by_cases hmet : name ∈ before
      · simp [hmet]
      · rw [if_neg hmet, List.append_eq_nil_iff, ih]
        have hnew : (∀ e ∈ es, e.1 ∉ name :: before) ↔
            name ∉ es.map Prod.fst ∧ ∀ e ∈ es, e.1 ∉ before := by
          simp only [List.mem_cons, not_or, List.mem_map, not_exists, not_and]
          exact ⟨fun h => ⟨fun e he => (h e he).1, fun e he => (h e he).2⟩,
            fun h e he => ⟨h.1 e he, h.2 e he⟩⟩
        rw [hnew]
        tauto
    · simp [hdeclared]

/-- Where every field has details once at most, the table leaves out those that say nothing. -/
theorem toList_detailTable {declared : List FieldName} {es : List (FieldName × FieldDetails)}
    {before : List FieldName} {table : Table FieldName FieldDetails}
    (hdeclared : es.map Prod.fst ⊆ declared) (hnodup : (es.map Prod.fst).Nodup)
    (hbefore : ∀ e ∈ es, e.1 ∉ before) (htable : ∀ e ∈ es, e.1 ∉ table.keys) :
    (detailTable declared before table es).toList =
      table.toList ++ es.filter fun e => !e.2.isVoid := by
  induction es generalizing before table with
  | nil => simp [detailTable]
  | cons e es ih =>
    obtain ⟨name, d⟩ := e
    rw [List.map_cons, List.cons_subset] at hdeclared
    rw [List.map_cons, List.nodup_cons] at hnodup
    rw [List.forall_mem_cons] at hbefore htable
    have hne : ∀ e ∈ es, e.1 ≠ name := by
      intro e he heq
      exact hnodup.1 (List.mem_map.2 ⟨e, he, heq⟩)
    have hnew : ∀ e ∈ es, e.1 ∉ name :: before := by
      intro e he
      rw [List.mem_cons, not_or]
      exact ⟨hne e he, hbefore.2 e he⟩
    have hcondition : ¬ (name ∉ declared ∨ name ∈ before) := by
      rintro (hmissing | hmet)
      · exact hmissing hdeclared.1
      · exact hbefore.1 hmet
    rw [detailTable, if_neg hcondition]
    cases hvoid : d.isVoid with
    | true =>
      rw [if_pos rfl, ih hdeclared.2 hnodup.2 hnew htable.2]
      simp [hvoid]
    | false =>
      have hinserted := Table.toList_insert d htable.1
      have hkeys : ∀ e ∈ es, e.1 ∉ (table.insert name d).keys := by
        intro e he
        rw [Table.keys, hinserted, List.map_append, List.mem_append, not_or]
        exact ⟨htable.2 e he, by simpa using hne e he⟩
      rw [if_neg Bool.false_ne_true, ih hdeclared.2 hnodup.2 hnew hkeys, hinserted]
      simp [hvoid]

/-! ## The rules -/

/-- The rules for the details of the fields of a map. -/
structure LawfulDetails (fields : List Field) (details : Entries FieldName FieldDetails) :
    Prop where
  /-- Details are about declared fields. -/
  declared : details.keys ⊆ fields.map Field.name
  /-- No field has details twice. -/
  once : details.keys.Nodup
  /-- No field is renamed to the empty name. -/
  renamed : ∀ e ∈ details.toList, e.2.rename ≠ some ""
  /-- Nothing is assumed for a field that may be absent. -/
  assumed : ∀ e ∈ details.toList, ∀ f ∈ fields, f.name = e.1 → f.optional = true →
    e.2.implicit = none

theorem detailFaults_eq_nil_iff_lawful {fields : List Field}
    (hdistinct : (fields.map Field.name).Nodup) (details : Entries FieldName FieldDetails) :
    detailFaults fields [] details.toList = [] ↔ LawfulDetails fields details := by
  rw [detailFaults_eq_nil_iff]
  constructor
  · rintro ⟨hdeclared, hnodup, -, hfaults⟩
    have heach : ∀ e ∈ details.toList, ∀ f ∈ fields, f.name = e.1 →
        e.2.rename ≠ some "" ∧ (f.optional = true → e.2.implicit = none) := by
      intro e he f hf hname
      exact (FieldDetails.faults_eq_nil_iff hdistinct hf e.2).1 (hname ▸ hfaults e he)
    refine ⟨hdeclared, hnodup, fun e he => ?_, fun e he f hf hname => (heach e he f hf hname).2⟩
    obtain ⟨f, hf, hname⟩ := List.mem_map.1 (hdeclared (List.mem_map_of_mem he))
    exact (heach e he f hf hname).1
  · rintro ⟨hdeclared, hnodup, hrenamed, hassumed⟩
    refine ⟨hdeclared, hnodup, fun _ _ => List.not_mem_nil, fun e he => ?_⟩
    obtain ⟨f, hf, hname⟩ := List.mem_map.1 (hdeclared (List.mem_map_of_mem he))
    rw [← hname, FieldDetails.faults_eq_nil_iff hdistinct hf]
    exact ⟨hrenamed e he, hassumed e he f hf hname⟩

theorem PairDelimiters.faults_eq_nil_iff {d : PairDelimiters} :
    d.faults = [] ↔ d.inner ≠ "" ∧ d.entry ≠ "" ∧ d.inner ≠ d.entry := by
  rw [faults]
  grind

namespace StructRepresentation

/-- The name of a field on the wire. -/
def wireName (field : FieldName) : StructRepresentation → String
  | .map details => FieldName.onWire field details
  | _ => field

/-- The rules for the representation of a struct. -/
def Lawful (fields : List Field) : StructRepresentation → Prop
  | .map details =>
      (∀ es ∈ details, LawfulDetails fields es) ∧
        (fields.map fun f => FieldName.onWire f.name details).Nodup
  | .tuple order => ∀ names ∈ order, names.Perm (fields.map Field.name)
  | .stringPairs d => d.inner ≠ "" ∧ d.entry ≠ "" ∧ d.inner ≠ d.entry
  | .stringJoin join order => join ≠ "" ∧ ∀ names ∈ order, names.Perm (fields.map Field.name)
  | .listPairs => True

/-- A layout has the form of a representation.  Its details are those that rename a field or
assume a value for it; its order is the given one, or else the declared one. -/
inductive Realizes (declared : List FieldName) : StructRepresentation → StructLayout → Prop
  | map {details : Option (Entries FieldName FieldDetails)}
      {compiled : Table FieldName FieldDetails}
      (entries : compiled.toList = (details.elim [] Entries.toList).filter fun e =>
        e.2.rename.isSome || e.2.implicit.isSome) :
      Realizes declared (.map details) (.map compiled)
  | tuple {order : Option (List FieldName)} {compiled : List FieldName}
      (given : compiled = order.getD declared) (perm : compiled.Perm declared) :
      Realizes declared (.tuple order) (.tuple compiled)
  | stringPairs (d : PairDelimiters) : Realizes declared (.stringPairs d) (.stringPairs d)
  | stringJoin (join : String) {order : Option (List FieldName)} {compiled : List FieldName}
      (given : compiled = order.getD declared) (perm : compiled.Perm declared) :
      Realizes declared (.stringJoin join order) (.stringJoin join compiled)
  | listPairs : Realizes declared .listPairs .listPairs

variable {fields : List Field} {representation : StructRepresentation}

theorem orderFaults_eq_nil_iff_perm {declared : List FieldName} (h : declared.Nodup)
    (order : Option (List FieldName)) :
    orderFaults declared order = [] ↔ ∀ names ∈ order, names.Perm declared := by
  cases order with
  | none => simp [orderFaults]
  | some order => simp [orderFaults_eq_nil_iff h]

/-- **The translator's rules.**  Of a struct with distinct fields it accepts the lawful
representations. -/
theorem faults_eq_nil_iff_lawful (hdistinct : (fields.map Field.name).Nodup)
    (representation : StructRepresentation) :
    representation.faults fields = [] ↔ representation.Lawful fields := by
  cases representation with
  | map details =>
    have hfirsts : firsts (fields.map Field.name) = fields.map Field.name :=
      firstsAfter_eq_self hdistinct fun _ _ => List.not_mem_nil
    have hnames : (fields.map Field.name).map
        (StructLayout.map (compiledDetails (fields.map Field.name) details)).wireName =
          fields.map fun f => FieldName.onWire f.name details := by
      rw [List.map_map]
      exact List.map_congr_left fun f hf => wireName_compiledDetails hf details
    have hwire : ∀ names : List String, repeats names = [] ↔ names.Nodup := by
      intro names
      rw [repeats, repeatsAfter_eq_nil_iff]
      simp
    simp only [faults, List.append_eq_nil_iff, List.map_eq_nil_iff, hfirsts, hnames, hwire, Lawful]
    refine and_congr_left fun _ => ?_
    cases details with
    | none => simp
    | some es => simp [detailFaults_eq_nil_iff_lawful hdistinct]
  | tuple order => exact orderFaults_eq_nil_iff_perm hdistinct order
  | stringPairs d => exact PairDelimiters.faults_eq_nil_iff
  | stringJoin join order =>
    rw [faults, List.append_eq_nil_iff, orderFaults_eq_nil_iff_perm hdistinct, Lawful]
    simp
  | listPairs => exact iff_of_true rfl trivial

/-- The layout of a lawful representation realizes it. -/
theorem Lawful.realizes_layout (h : representation.Lawful fields) :
    representation.Realizes (fields.map Field.name) (representation.layout fields) := by
  have hperm : ∀ order : Option (List FieldName),
      (∀ names ∈ order, names.Perm (fields.map Field.name)) →
        (order.getD (fields.map Field.name)).Perm (fields.map Field.name) := by
    rintro (_ | names) hnames
    · exact List.Perm.refl _
    · exact hnames names rfl
  cases representation with
  | map details =>
    refine .map ?_
    cases details with
    | none => rfl
    | some es =>
      obtain ⟨hdeclared, honce, -, -⟩ := h.1 es rfl
      rw [compiledDetails, toList_detailTable hdeclared honce (fun _ _ => List.not_mem_nil)
        fun _ _ => List.not_mem_nil]
      refine List.filter_congr fun e _ => ?_
      rw [FieldDetails.isVoid]
      cases e.2.rename <;> cases e.2.implicit <;> rfl
  | tuple order => exact .tuple rfl (hperm order h)
  | stringPairs d => exact .stringPairs d
  | stringJoin join order => exact .stringJoin join rfl (hperm order h.2)
  | listPairs => exact .listPairs

/-- A compiled struct shows its fields under the names of the declaration. -/
theorem wireNames_layout (representation : StructRepresentation) {compiled : List StructField}
    (h : compiled.map StructField.name = fields.map Field.name) :
    (Body.struct compiled (representation.layout fields)).wireNames =
      fields.map fun f => representation.wireName f.name := by
  have hmap : (Body.struct compiled (representation.layout fields)).wireNames =
      (compiled.map StructField.name).map (representation.layout fields).wireName := by
    rw [List.map_map]
    rfl
  rw [hmap, h, List.map_map]
  refine List.map_congr_left fun f hf => ?_
  cases representation with
  | map details => exact wireName_compiledDetails hf details
  | _ => rfl

/-- The names of a lawful representation are distinct, and none is empty. -/
theorem Lawful.names (h : representation.Lawful fields)
    (hdistinct : (fields.map Field.name).Nodup) (hnamed : "" ∉ fields.map Field.name) :
    (fields.map fun f => representation.wireName f.name).Nodup ∧
      "" ∉ fields.map fun f => representation.wireName f.name := by
  cases representation with
  | map details =>
    refine ⟨h.2, fun hempty => ?_⟩
    obtain ⟨f, hf, hname⟩ := List.mem_map.1 hempty
    have hf' : f.name ≠ "" := fun heq => hnamed (heq ▸ List.mem_map_of_mem hf)
    rw [wireName] at hname
    rcases FieldName.onWire_cases f.name details with heq | ⟨es, hes, e, he, hrename⟩
    · exact hf' (heq.symm.trans hname)
    · rw [hname] at hrename
      exact (h.1 es hes).renamed e he hrename
  | _ => exact ⟨hdistinct, hnamed⟩

/-- **A struct representation is accepted exactly if it is lawful.**  Its layout then has the
order and the details that are declared, and the compiled struct, whatever the types of its
fields, shows one name for every field, none of them empty and no two alike.  A struct that has
a content has this one. -/
theorem accepted_iff_lawful (hdistinct : (fields.map Field.name).Nodup)
    (hnamed : "" ∉ fields.map Field.name) (representation : StructRepresentation) :
    (representation.faults fields = [] ↔ representation.Lawful fields) ∧
      (representation.faults fields = [] →
        representation.Realizes (fields.map Field.name) (representation.layout fields) ∧
          ∀ compiled : List StructField,
            compiled.map StructField.name = fields.map Field.name →
              let names := (Body.struct compiled (representation.layout fields)).wireNames
              names = fields.map (fun f => representation.wireName f.name) ∧ names.Nodup ∧
                "" ∉ names) ∧
      ∀ (scope : Scope) (depth : Nat) (a : Arena) (body : Body),
        (scope.compile depth (.struct fields representation) a).1.value = some body →
          representation.faults fields = [] ∧ ∃ compiled : List StructField,
            compiled.map StructField.name = fields.map Field.name ∧
              body = .struct compiled (representation.layout fields) := by
  have hlawful := faults_eq_nil_iff_lawful hdistinct representation
  refine ⟨hlawful, fun haccepted => ⟨(hlawful.1 haccepted).realizes_layout, ?_⟩, ?_⟩
  · intro compiled hcompiled names
    have hnames : names = fields.map fun f => representation.wireName f.name :=
      wireNames_layout representation hcompiled
    obtain ⟨hnodup, hnonempty⟩ := (hlawful.1 haccepted).names hdistinct hnamed
    exact ⟨hnames, hnames ▸ hnodup, hnames ▸ hnonempty⟩
  · intro scope depth a body hbody
    rcases scope.compile_links depth (.struct fields representation) a with
      ⟨-, hnone⟩ | ⟨-, b, hsome, hlinks⟩
    · rw [hnone] at hbody
      cases hbody
    · rw [hsome] at hbody
      obtain rfl := Option.some.inj hbody
      refine ⟨?_, _, ?_, (Option.some.inj hlinks.linked).symm⟩
      · by_contra hrejected
        exact hlinks.sound (.representation hrejected)
      · rw [List.map_map]
        rfl

/-- Two fields that stand on the wire under each other's names, one of them with a value that is
assumed for it, and a third field about which nothing is said. -/
def swappedNames : StructRepresentation :=
  .map (some ⟨[("a", ⟨some "b", none⟩), ("b", ⟨some "a", some (.int 0)⟩), ("c", ⟨none, none⟩)]⟩)

/-- The fields of a struct with swapped names. -/
def swappedFields : List Field :=
  [.mk "a" (.named "S") false false, .mk "b" (.named "N") false false,
    .mk "c" (.named "S") true true]

theorem accepted_iff_lawful_swappedNames :
    swappedNames.Lawful swappedFields ∧
      swappedNames.Realizes ["a", "b", "c"] (swappedNames.layout swappedFields) ∧
        (Body.struct [⟨"a", 0, false, false⟩, ⟨"b", 1, false, false⟩, ⟨"c", 0, true, true⟩]
          (swappedNames.layout swappedFields)).wireNames = ["b", "a", "c"] := by
  obtain ⟨hiff, haccepted, -⟩ := accepted_iff_lawful
    (by decide : (swappedFields.map Field.name).Nodup) (by decide) swappedNames
  have hfaults : swappedNames.faults swappedFields = [] := by decide
  obtain ⟨hrealizes, hnames⟩ := haccepted hfaults
  exact ⟨hiff.1 hfaults, hrealizes, (hnames _ rfl).1⟩

end StructRepresentation
end WireSchema
