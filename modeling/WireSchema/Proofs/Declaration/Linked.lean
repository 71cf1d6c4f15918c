import WireSchema.Layout.Enum
import WireSchema.Proofs.Declaration.Canonical
import WireSchema.Proofs.Declaration.Contained
import WireSchema.Proofs.Declaration.Text
import WireSchema.Proofs.Layout.Tables

/-!
# Contents of definitions

Once every reference has a position, a definition has a content: the same sort, the same
fields, members and flags in the same order, and a checked representation.
`Definition.linked` is this content.  It mentions neither an arena nor faults, and it is
what a compile is measured against.

Which of several definitions with one canonical text is compiled does not matter, as long
as positions are given to references by their canonical texts: `Definition.linked_congr`
says that their contents are written alike.
-/

namespace WireSchema

/-! ## Linking -/

/-- The compiled field of a field. -/
def Field.linked (ρ : Reference → TypeId) (f : Field) : StructField :=
  ⟨f.name, ρ f.type, f.optional, f.nullable⟩

/-- The content of a definition when its references are at these positions.  A copy has
none. -/
def Definition.linked (ρ : Reference → TypeId) : Definition → Option Body
  | .bool => some .bool
  | .string => some .string
  | .bytes => some .bytes
  | .int => some .int
  | .float => some .float
  | .link target => some (.link (target.map ρ))
  | .map key value valueNullable representation =>
      some (.map (ρ key) (ρ value) valueNullable representation)
  | .list value valueNullable => some (.list (ρ value) valueNullable)
  | .struct fields representation =>
      some (.struct (fields.map (Field.linked ρ)) (representation.layout fields))
  | .union members representation =>
      some (.union (members.map ρ) (representation.linked fun name => ρ (.named name)))
  | .enum members representation => some (.enum members (representation.layout members))
  | .copy _ => none

/-- A content refers to the positions of the references, in their order. -/
theorem Definition.references_linked {ρ : Reference → TypeId} {d : Definition} {b : Body}
    (h : d.linked ρ = some b) : b.references = d.references.map ρ := by
  cases d <;> cases h
  case link target => cases target <;> rfl
  case struct fields _ =>
    rw [references, Body.references, List.map_map, List.map_map]
    rfl
  all_goals rfl

/-- The names that the representation of a definition lists. -/
def Definition.listed : Definition → List TypeName
  | .union _ representation => representation.listed
  | _ => []

/-- A content depends on the positions of the definition's references and of the names that
its representation lists. -/
theorem Definition.linked_eq_of_positions {ρ σ : Reference → TypeId} {d : Definition}
    (hlisted : ∀ name ∈ d.listed, ρ (.named name) = σ (.named name))
    (hreferences : ∀ r ∈ d.references, ρ r = σ r) : d.linked ρ = d.linked σ := by
  cases d with
  | link target =>
    cases target with
    | none => rfl
    | some target =>
      rw [linked, linked, Option.map_some, Option.map_some,
        hreferences target (List.mem_singleton_self _)]
  | map key value _ _ =>
    rw [linked, linked, hreferences key (List.mem_cons_self ..),
      hreferences value (List.mem_cons_of_mem _ (List.mem_singleton_self _))]
  | list value _ => rw [linked, linked, hreferences value (List.mem_singleton_self _)]
  | struct fields _ =>
    have hfields : fields.map (Field.linked ρ) = fields.map (Field.linked σ) := by
      refine List.map_congr_left fun f hf => ?_
      rw [Field.linked, Field.linked, hreferences f.type (List.mem_map_of_mem hf)]
    rw [linked, linked, hfields]
  | union members _ =>
    have hmembers : members.map ρ = members.map σ := List.map_congr_left hreferences
    rw [linked, linked, hmembers, UnionRepresentation.linked_congr hlisted]
  | _ => rfl

/-! ## What is written of a content -/

namespace Table

variable {κ ν μ : Type}

/-- The table with every value changed. -/
def mapValues (f : ν → μ) (t : Table κ ν) : Table κ μ :=
  ⟨t.toList.map fun e => (e.1, f e.2), by
    rw [List.map_map]
    exact t.nodup⟩

variable [DecidableEq κ]

theorem mapValues_insert (f : ν → μ) (t : Table κ ν) (key : κ) (value : ν) :
    (t.insert key value).mapValues f = (t.mapValues f).insert key (f value) := by
  have hlist : ∀ es : List (κ × ν), (insertList key value es).map (fun e => (e.1, f e.2)) =
      insertList key (f value) (es.map fun e => (e.1, f e.2)) := by
    intro es
    induction es with
    | nil => rfl
    | cons e es ih =>
      rw [insertList, List.map_cons, insertList]
      split
      · rw [List.map_cons]
      · rw [List.map_cons, ih]
  exact ext_toList (hlist t.toList)

theorem get?_mapValues (f : ν → μ) (t : Table κ ν) (key : κ) :
    (t.mapValues f).get? key = (t.get? key).map f := by
  simp only [get?, mapValues, List.find?_map, Option.map_map]
  rfl

end Table

/-- The struct layout that is written. -/
def StructLayout.asWritten : StructLayout → StructLayout
  | .map details => .map (details.mapValues FieldDetails.asWritten)
  | other => other

/-- The content that is written. -/
def Body.asWritten : Body → Body
  | .struct fields layout => .struct fields layout.asWritten
  | other => other

@[simp] theorem Body.references_asWritten (b : Body) : b.asWritten.references = b.references := by
  cases b <;> rfl

@[simp] theorem Body.wireKind_asWritten (b : Body) : b.asWritten.wireKind = b.wireKind := by
  cases b with
  | struct fields layout => cases layout <;> rfl
  | _ => rfl

@[simp] theorem StructLayout.wireName_asWritten (layout : StructLayout) (field : FieldName) :
    layout.asWritten.wireName field = layout.wireName field := by
  cases layout with
  | map details =>
    simp only [asWritten, wireName, Table.get?_mapValues, Option.bind_map]
    rfl
  | _ => rfl

@[simp] theorem FieldDetails.isVoid_asWritten (d : FieldDetails) :
    d.asWritten.isVoid = d.isVoid := by
  simp [isVoid, asWritten]

theorem detailTable_asWritten (declared : List FieldName) (es : List (FieldName × FieldDetails))
    (before : List FieldName) (table : Table FieldName FieldDetails) :
    detailTable declared before (table.mapValues FieldDetails.asWritten)
        (es.map fun e => (e.1, e.2.asWritten)) =
      (detailTable declared before table es).mapValues FieldDetails.asWritten := by
  induction es generalizing before table with
  | nil => rfl
  | cons e es ih =>
    obtain ⟨name, d⟩ := e
    rw [List.map_cons, detailTable, detailTable]
    split
    · exact ih before table
    · rw [← ih, FieldDetails.isVoid_asWritten]
      split
      · rfl
      · rw [Table.mapValues_insert]

theorem map_name_fieldsAsWritten (fields : List Field) :
    (fieldsAsWritten fields).map Field.name = fields.map Field.name := by
  induction fields with
  | nil => rw [fieldsAsWritten]
  | cons f rest ih =>
    cases f
    rw [fieldsAsWritten, List.map_cons, List.map_cons, ih]
    rfl

theorem StructRepresentation.layout_asWritten (fields : List Field)
    (representation : StructRepresentation) :
    representation.asWritten.layout (fieldsAsWritten fields) =
      (representation.layout fields).asWritten := by
  rw [layout_fields (map_name_fieldsAsWritten fields)]
  cases representation with
  | map details =>
    cases details with
    | none => rfl
    | some es =>
      have htable := detailTable_asWritten (fields.map Field.name) es.toList [] ∅
      exact congrArg StructLayout.map htable
  | _ => rfl

/-! ## Contents and canonical texts -/

/-- Where a reference goes when names and canonical texts have places. -/
def Reference.locate {α : Type} (position : TypeName → α) (slot : String → α) : Reference → α
  | .named name => position name
  | .inline d => slot d.canonical.text

/-- Whether the references that have to be names are names. -/
def Definition.NamesOnly (d : Definition) : Prop :=
  ∀ e, .inline e ∉ d.closedReferences

theorem map_canonical_of_named {rs : List Reference} (h : ∀ e, .inline e ∉ rs) :
    rs.map Reference.canonical = rs := by
  induction rs with
  | nil => rfl
  | cons r rs ih =>
    have hrest := ih fun e he => h e (List.mem_cons_of_mem _ he)
    cases r with
    | named name => rw [List.map_cons, Reference.canonical, hrest]
    | inline d => exact absurd (List.mem_cons_self ..) (h d)

theorem map_type_canonicalFields (fields : List Field) :
    (canonicalFields fields).map Field.type = (fields.map Field.type).map Reference.canonical := by
  induction fields with
  | nil =>
    rw [canonicalFields]
    rfl
  | cons f rest ih =>
    cases f
    rw [canonicalFields, List.map_cons, ih]
    rfl

theorem map_type_fieldsAsWritten (fields : List Field) :
    (fieldsAsWritten fields).map Field.type = (fields.map Field.type).map Reference.asWritten := by
  induction fields with
  | nil =>
    rw [fieldsAsWritten]
    rfl
  | cons f rest ih =>
    cases f
    rw [fieldsAsWritten, List.map_cons, ih]
    rfl

theorem referencesAsWritten_eq_map (rs : List Reference) :
    referencesAsWritten rs = rs.map Reference.asWritten := by
  induction rs with
  | nil => rw [referencesAsWritten, List.map_nil]
  | cons r rs ih => rw [referencesAsWritten, ih, List.map_cons]

theorem map_linked_canonicalFields (ρ : Reference → TypeId) (fields : List Field) :
    (canonicalFields fields).map (Field.linked ρ) =
      fields.map (Field.linked fun r => ρ r.canonical) := by
  induction fields with
  | nil =>
    rw [canonicalFields]
    rfl
  | cons f rest ih =>
    cases f
    rw [canonicalFields, List.map_cons, ih]
    rfl

theorem map_linked_fieldsAsWritten (ρ : Reference → TypeId) (fields : List Field) :
    (fieldsAsWritten fields).map (Field.linked ρ) =
      fields.map (Field.linked fun r => ρ r.asWritten) := by
  induction fields with
  | nil =>
    rw [fieldsAsWritten]
    rfl
  | cons f rest ih =>
    cases f
    rw [fieldsAsWritten, List.map_cons, ih]
    rfl

namespace Definition

/-- A canonical form has the content of its definition. -/
theorem linked_canonical {d : Definition} (h : d.NamesOnly) (ρ : Reference → TypeId) :
    d.canonical.linked ρ = d.linked fun r => ρ r.canonical := by
  cases d with
  | link target => cases target <;> rw [canonical] <;> rfl
  | struct fields representation =>
    rw [canonical, linked, linked, map_linked_canonicalFields,
      StructRepresentation.layout_fields (map_name_canonicalFields fields),
      StructRepresentation.layout_canonical]
  | union members representation =>
    have hmembers : members.map (fun r => ρ r.canonical) = members.map ρ :=
      List.map_map.symm.trans (congrArg (List.map ρ) (map_canonical_of_named h))
    rw [canonical, linked, linked, hmembers]
    · rfl
    all_goals simp
  | enum members representation =>
    rw [canonical, linked, linked, EnumRepresentation.layout_canonical]
  | _ => rw [canonical] <;> first | rfl | simp

theorem linked_asWritten (d : Definition) (ρ : Reference → TypeId) :
    d.asWritten.linked ρ = (d.linked fun r => ρ r.asWritten).map Body.asWritten := by
  cases d with
  | link target => cases target <;> rw [asWritten] <;> rfl
  | struct fields representation =>
    rw [asWritten, linked, linked, map_linked_fieldsAsWritten,
      StructRepresentation.layout_asWritten]
    rfl
  | union members representation =>
    rw [asWritten, linked, linked, referencesAsWritten_eq_map, List.map_map]
    rfl
  | _ => rw [asWritten] <;> first | rfl | simp

theorem references_canonical {d : Definition} (h : d.NamesOnly) :
    d.canonical.references = d.references.map Reference.canonical := by
  cases d with
  | link target => cases target <;> rw [canonical] <;> rfl
  | struct fields representation =>
    rw [canonical, references, references, map_type_canonicalFields]
  | union members representation =>
    have hmembers : members.map Reference.canonical = members := map_canonical_of_named h
    rw [canonical, references, hmembers]
    all_goals simp
  | _ => rw [canonical] <;> first | rfl | simp

theorem references_asWritten (d : Definition) :
    d.asWritten.references = d.references.map Reference.asWritten := by
  cases d with
  | link target => cases target <;> rw [asWritten] <;> rfl
  | struct fields representation =>
    rw [asWritten, references, references, map_type_fieldsAsWritten]
  | union members representation =>
    rw [asWritten, references, references, referencesAsWritten_eq_map]
  | _ => rw [asWritten] <;> first | rfl | simp

/-! ### Equal canonical texts -/

section

variable {d e : Definition} (hd : d.NamesOnly) (he : e.NamesOnly)
  (htext : d.canonical.text = e.canonical.text)

include hd he htext

/-- References go to the same places in the same order. -/
theorem map_locate_references {α : Type} (position : TypeName → α) (slot : String → α) :
    d.references.map (Reference.locate position slot) =
      e.references.map (Reference.locate position slot) := by
  have hplaces : ∀ {f : Definition}, f.NamesOnly →
      f.references.map (Reference.locate position slot) =
        f.canonical.asWritten.references.map fun
          | .named name => position name
          | .inline g => slot g.text := by
    intro f hf
    rw [references_asWritten, references_canonical hf, List.map_map, List.map_map]
    refine List.map_congr_left fun r _ => ?_
    cases r with
    | named name => rfl
    | inline g =>
      simp only [Reference.locate, Function.comp_apply, Reference.canonical, Reference.asWritten,
        text_asWritten]
  rw [hplaces hd, hplaces he, asWritten_eq_of_text_eq htext]

/-- A definition in place in one of them has a counterpart in the other. -/
theorem exists_reference_of_text {f : Definition} (hf : .inline f ∈ d.references) :
    ∃ g, .inline g ∈ e.references ∧ g.canonical.text = f.canonical.text := by
  have htexts := map_locate_references hd he htext (fun _ => none) some
  have hmem : some f.canonical.text ∈ e.references.map (Reference.locate (fun _ => none) some) := by
    rw [← htexts]
    exact List.mem_map.2 ⟨_, hf, rfl⟩
  obtain ⟨r, hr, hlocate⟩ := List.mem_map.1 hmem
  cases r with
  | named name => cases hlocate
  | inline g => exact ⟨g, hr, Option.some.inj hlocate⟩

/-- **Definitions with one canonical text have contents that are written alike**, when
their references are placed by canonical texts. -/
theorem linked_congr (position : TypeName → TypeId) (slot : String → TypeId) :
    (d.linked (Reference.locate position slot)).map Body.asWritten =
      (e.linked (Reference.locate position slot)).map Body.asWritten := by
  have hcontent : ∀ {f : Definition}, f.NamesOnly →
      (f.linked (Reference.locate position slot)).map Body.asWritten =
        f.canonical.asWritten.linked fun
          | .named name => position name
          | .inline g => slot g.text := by
    intro f hf
    rw [linked_asWritten, linked_canonical hf]
    refine congrArg (Option.map Body.asWritten) (linked_eq_of_positions (fun _ _ => rfl) ?_)
    intro r _
    cases r with
    | named name => rfl
    | inline g =>
      simp only [Reference.locate, Reference.canonical, Reference.asWritten, text_asWritten]
  rw [hcontent hd, hcontent he, asWritten_eq_of_text_eq htext]

end

end Definition

/-! ### Sizes -/

mutual

theorem Reference.length_inlines_canonical :
    ∀ r : Reference, r.canonical.inlines.length = r.inlines.length
  | .named _ => by rw [Reference.canonical]
  | .inline d => by
    rw [Reference.canonical, Reference.inlines, Reference.inlines, List.length_cons,
      List.length_cons, Definition.length_inlines_canonical d]

theorem Definition.length_inlines_canonical :
    ∀ d : Definition, d.canonical.inlines.length = d.inlines.length
  | .bool | .string | .bytes | .int | .float | .union .. | .enum .. | .copy _ => by
    rw [Definition.canonical] <;> first | rfl | simp
  | .link none => by rw [Definition.canonical]
  | .link (some target) => by
    rw [Definition.canonical, Definition.inlines, Definition.inlines,
      Reference.length_inlines_canonical target]
  | .map key value _ _ => by
    rw [Definition.canonical, Definition.inlines, Definition.inlines, List.length_append,
      List.length_append, Reference.length_inlines_canonical key,
      Reference.length_inlines_canonical value]
  | .list value _ => by
    rw [Definition.canonical, Definition.inlines, Definition.inlines,
      Reference.length_inlines_canonical value]
  | .struct fields _ => by
    rw [Definition.canonical, Definition.inlines, Definition.inlines,
      length_fieldInlines_canonicalFields fields]

theorem length_fieldInlines_canonicalFields :
    ∀ fields : List Field, (fieldInlines (canonicalFields fields)).length =
      (fieldInlines fields).length
  | [] => by rw [canonicalFields]
  | .mk _ type _ _ :: rest => by
    rw [canonicalFields, fieldInlines, fieldInlines, List.length_append, List.length_append,
      Reference.length_inlines_canonical type, length_fieldInlines_canonicalFields rest]

end

mutual

theorem Reference.length_inlines_asWritten :
    ∀ r : Reference, r.asWritten.inlines.length = r.inlines.length
  | .named _ => by rw [Reference.asWritten]
  | .inline d => by
    rw [Reference.asWritten, Reference.inlines, Reference.inlines, List.length_cons,
      List.length_cons, Definition.length_inlines_asWritten d]

theorem Definition.length_inlines_asWritten :
    ∀ d : Definition, d.asWritten.inlines.length = d.inlines.length
  | .bool | .string | .bytes | .int | .float | .enum .. | .copy _ => by
    rw [Definition.asWritten] <;> first | rfl | simp
  | .link none => by rw [Definition.asWritten]
  | .link (some target) => by
    rw [Definition.asWritten, Definition.inlines, Definition.inlines,
      Reference.length_inlines_asWritten target]
  | .map key value _ _ => by
    rw [Definition.asWritten, Definition.inlines, Definition.inlines, List.length_append,
      List.length_append, Reference.length_inlines_asWritten key,
      Reference.length_inlines_asWritten value]
  | .list value _ => by
    rw [Definition.asWritten, Definition.inlines, Definition.inlines,
      Reference.length_inlines_asWritten value]
  | .struct fields _ => by
    rw [Definition.asWritten, Definition.inlines, Definition.inlines,
      length_fieldInlines_fieldsAsWritten fields]
  | .union members _ => by
    rw [Definition.asWritten, Definition.inlines, Definition.inlines,
      length_referenceInlines_asWritten members]

theorem length_fieldInlines_fieldsAsWritten :
    ∀ fields : List Field, (fieldInlines (fieldsAsWritten fields)).length =
      (fieldInlines fields).length
  | [] => by rw [fieldsAsWritten]
  | .mk _ type _ _ :: rest => by
    rw [fieldsAsWritten, fieldInlines, fieldInlines, List.length_append, List.length_append,
      Reference.length_inlines_asWritten type, length_fieldInlines_fieldsAsWritten rest]

theorem length_referenceInlines_asWritten :
    ∀ rs : List Reference, (referenceInlines (referencesAsWritten rs)).length =
      (referenceInlines rs).length
  | [] => by rw [referencesAsWritten]
  | r :: rest => by
    rw [referencesAsWritten, referenceInlines, referenceInlines, List.length_append,
      List.length_append, Reference.length_inlines_asWritten r,
      length_referenceInlines_asWritten rest]

end

/-- Definitions with one canonical text are of one size. -/
theorem Definition.length_inlines_congr {d e : Definition}
    (h : d.canonical.text = e.canonical.text) : d.inlines.length = e.inlines.length := by
  have hsize : ∀ f : Definition, f.canonical.asWritten.inlines.length = f.inlines.length :=
    fun f => (length_inlines_asWritten _).trans (length_inlines_canonical f)
  rw [← hsize d, asWritten_eq_of_text_eq h, hsize]

end WireSchema
