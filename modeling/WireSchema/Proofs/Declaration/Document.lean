import WireSchema.Declaration.Document
import WireSchema.Proofs.Declaration.Contained
import WireSchema.Proofs.Declaration.Text
import WireSchema.Proofs.Json.Decoding

/-!
# Schemas are read back from their text

A schema is what its text says (`Schema.ofText_text`), if it is written exactly and its text
nests no deeper than documents may.  Nothing about the schema is assumed besides: its names
and keys may be anything, and any of them may be repeated.

The decoder of every part reads what is written of the part; a definition is read along its
references, and each definition in place inside of another takes one level of the decoder
that was unfolded (`Document.reads_definitionWithin`).
-/

namespace WireSchema

open Json (Decoder)
open Json.Decoder (ReadsEntry caseOf given reads_text reads_bool reads_signed reads_emptyPayload
  reads_record1 reads_record2 reads_record3 reads_record4 reads_absentable reads_untagged)

/-! ## What is written exactly -/

/-- Whether an implicit value is written exactly: it is no double, and a whole number fits in
sixty-four bits. -/
def ImplicitValue.IsExact : ImplicitValue → Prop
  | .int i => Json.IsSigned i
  | .float _ => False
  | _ => True

/-- Whether the implicit value of a field, if it has one, is written exactly. -/
def FieldDetails.IsExact (d : FieldDetails) : Prop :=
  ∀ v, d.implicit = some v → v.IsExact

/-- Whether the implicit values in a struct representation are written exactly. -/
def StructRepresentation.IsExact : StructRepresentation → Prop
  | .map (some details) => ∀ d ∈ details.values, d.IsExact
  | _ => True

/-- Whether the bytes in a union representation fit in sixty-four bits. -/
def UnionRepresentation.IsExact : UnionRepresentation → Prop
  | .bytePrefix table => ∀ i ∈ table.values, Json.IsSigned i
  | _ => True

/-- Whether the numbers in an enum representation fit in sixty-four bits. -/
def EnumRepresentation.IsExact : EnumRepresentation → Prop
  | .int table => ∀ i ∈ table.values, Json.IsSigned i
  | _ => True

/-- Whether the representation of a definition is written exactly. -/
def Definition.IsExact : Definition → Prop
  | .struct _ representation => representation.IsExact
  | .union _ representation => representation.IsExact
  | .enum _ representation => representation.IsExact
  | _ => True

/-- Whether everything in a schema is written exactly. -/
def Schema.IsExact (s : Schema) : Prop :=
  ∀ d, d ∈ s.types.values ∨ d ∈ s.inlines → d.IsExact

/-! ## Written forms -/

theorem Entries.nesting_lt_toJson {κ ν : Type} (key : κ → String) (value : ν → Json)
    {es : Entries κ ν} {x : ν} (h : x ∈ es.values) :
    (value x).nesting < (es.toJson key value).nesting := by
  obtain ⟨e, he, rfl⟩ := List.mem_map.1 h
  have hentry := Json.nesting_le_entryNesting
    (List.mem_map_of_mem (f := fun e => (key e.1, value e.2)) he)
  rw [toJson, Json.nesting]
  exact Nat.lt_succ_of_le hentry

theorem ImplicitValue.toJson_ne_null (v : ImplicitValue) : v.toJson ≠ .null := by
  cases v <;> nofun

theorem Reference.toJson_ne_null (r : Reference) : r.toJson ≠ .null := by
  cases r with
  | named name => nofun
  | inline d =>
    obtain ⟨payload, hd⟩ := d.exists_toJson_eq
    rw [toJson, hd]
    nofun

theorem fieldEntriesJson_eq_map (fields : List Field) :
    fieldEntriesJson fields = fields.map fun f => (f.name, f.toJson) := by
  induction fields with
  | nil => rfl
  | cons f fields ih =>
    obtain ⟨name, type, optional, nullable⟩ := f
    rw [fieldEntriesJson, ih]
    rfl

theorem referencesJson_eq_map (rs : List Reference) :
    referencesJson rs = rs.map Reference.toJson := by
  induction rs with
  | nil => rfl
  | cons r rs ih => rw [referencesJson, ih, List.map_cons]

theorem Field.nesting_toJson_type_lt (f : Field) : f.type.toJson.nesting < f.toJson.nesting := by
  obtain ⟨name, type, optional, nullable⟩ := f
  simp only [toJson, Field.type, Json.nesting, Json.entryNesting]
  omega

/-- What is written of a reference of a definition is nested less deep than the definition. -/
theorem Definition.nesting_toJson_lt_of_mem_references {d : Definition} {r : Reference}
    (h : r ∈ d.references) : r.toJson.nesting < d.toJson.nesting := by
  cases d <;>
    simp only [references, List.mem_cons, List.not_mem_nil, or_false, Option.mem_toList] at h
  case link target =>
    subst h
    simp only [toJson, caseObject, Json.nesting, Json.entryNesting]
    omega
  case map key value valueNullable representation =>
    rcases h with rfl | rfl <;>
    · simp only [toJson, caseObject, Json.nesting, Json.entryNesting]
      omega
  case list value valueNullable =>
    subst h
    simp only [toJson, caseObject, Json.nesting, Json.entryNesting]
    omega
  case struct fields representation =>
    obtain ⟨f, hf, rfl⟩ := List.mem_map.1 h
    have hfield := f.nesting_toJson_type_lt
    have hentry : f.toJson.nesting ≤ Json.entryNesting (fieldEntriesJson fields) := by
      rw [fieldEntriesJson_eq_map]
      exact Json.nesting_le_entryNesting (List.mem_map_of_mem (f := fun f => (f.name, f.toJson)) hf)
    simp only [toJson, caseObject, Json.nesting, Json.entryNesting]
    omega
  case union members representation =>
    have hitem : r.toJson.nesting ≤ Json.itemNesting (referencesJson members) := by
      rw [referencesJson_eq_map]
      exact Json.nesting_le_itemNesting (List.mem_map_of_mem h)
    simp only [toJson, caseObject, Json.nesting, Json.entryNesting]
    omega

theorem Definition.nesting_toJson_pos (d : Definition) : 0 < d.toJson.nesting := by
  obtain ⟨payload, hd⟩ := d.exists_toJson_eq
  rw [hd, caseObject, Json.nesting]
  exact Nat.succ_pos _

namespace Document

/-! ## Tables -/

theorem forall₂_map_self {α β : Type} {f : α → β} {P : β → α → Prop} {xs : List α}
    (h : ∀ x ∈ xs, P (f x) x) : List.Forall₂ P (xs.map f) xs :=
  List.forall₂_map_left_iff.2 (List.forall₂_same.2 h)

theorem reads_texts (texts : List String) :
    (Decoder.list .text).Reads (textsJson texts) texts :=
  .list (forall₂_map_self fun t _ => reads_text t)

theorem reads_entries {α : Type} {d : Decoder α} {toJson : α → Json} {es : Entries String α}
    (h : ∀ x ∈ es.values, d.Reads (toJson x) x) : (entries d).Reads (es.toJson id toJson) es := by
  have hentries : List.Forall₂ (ReadsEntry .ok d) (es.toList.map fun e => (e.1, toJson e.2))
      es.toList :=
    forall₂_map_self fun e he => ⟨rfl, h e.2 (List.mem_map_of_mem he)⟩
  exact (Decoder.Reads.entries hentries).map Entries.mk

theorem reads_names (table : Entries String String) :
    (entries .text).Reads (namesJson table) table :=
  reads_entries fun s _ => reads_text s

theorem reads_numbers {table : Entries String Int} (h : ∀ i ∈ table.values, Json.IsSigned i) :
    (entries .signed).Reads (numbersJson table) table :=
  reads_entries fun i hi => reads_signed (h i hi)

theorem caseOf_byName (k : Kind) : caseOf Kind.byName k.name = .ok k := by
  have hlookup : Kind.byName.lookup k.name = some k := Kind.ofName?_name k
  rw [caseOf, hlookup]

theorem reads_kinds (table : Entries Kind TypeName) :
    (Decoder.entriesUnder Kind.byName .text).Reads (table.toJson Kind.name .text) table.toList :=
  .entriesUnder (forall₂_map_self fun e _ => ⟨caseOf_byName e.1, reads_text e.2⟩)

/-! ## Representations -/

theorem reads_implicitValue {v : ImplicitValue} (hv : v.IsExact) :
    implicitValue.Reads v.toJson v := by
  cases v with
  | bool b => exact reads_untagged (.bool b) rfl
  | int i => exact reads_untagged (.int hv) (if_pos hv)
  | float x => exact hv.elim
  | string s => exact reads_untagged (.text s) rfl

theorem reads_delimiters (d : PairDelimiters) : delimiters.Reads d.toJson d :=
  reads_record2 (by decide) (.of (reads_text d.inner)) (.of (reads_text d.entry))

theorem reads_fieldDetails {d : FieldDetails} (hd : d.IsExact) : fieldDetails.Reads d.toJson d :=
  reads_record2 (by decide)
    (reads_absentable fun s _ => ⟨reads_text s, nofun⟩)
    (reads_absentable fun v hv => ⟨reads_implicitValue (hd v hv), v.toJson_ne_null⟩)

theorem reads_fieldOrder (order : Option (List FieldName)) :
    (Decoder.absentable "fieldOrder" (.list .text)).Reads (order.map textsJson) order :=
  reads_absentable fun names _ => ⟨reads_texts names, nofun⟩

theorem reads_mapRepresentation (r : MapRepresentation) : mapRepresentation.Reads r.toJson r := by
  cases r <;> refine .choice rfl ?_
  case map => exact reads_emptyPayload ..
  case listPairs => exact reads_emptyPayload ..
  case stringPairs d => exact (reads_delimiters d).map _

theorem reads_structRepresentation {r : StructRepresentation} (hr : r.IsExact) :
    structRepresentation.Reads r.toJson r := by
  cases r <;> refine .choice rfl ?_
  case map details =>
    refine reads_record1 (reads_absentable fun es hes => ⟨reads_entries fun d hd => ?_, nofun⟩)
    subst hes
    exact reads_fieldDetails (hr d hd)
  case tuple order => exact reads_record1 (reads_fieldOrder order)
  case stringPairs d => exact (reads_delimiters d).map _
  case stringJoin join order =>
    exact reads_record2 (by decide) (.of (reads_text join)) (reads_fieldOrder order)
  case listPairs => exact reads_emptyPayload ..

theorem reads_unionRepresentation {r : UnionRepresentation} (hr : r.IsExact) :
    unionRepresentation.Reads r.toJson r := by
  cases r <;> refine .choice rfl ?_
  case keyed table => exact (reads_names table).map _
  case kinded table => exact (reads_kinds table).map fun es => UnionRepresentation.kinded ⟨es⟩
  case envelope discriminantKey contentKey table =>
    exact reads_record3 (by decide) (.of (reads_text discriminantKey))
      (.of (reads_text contentKey)) (.of (reads_names table))
  case inline discriminantKey table =>
    exact reads_record2 (by decide) (.of (reads_text discriminantKey)) (.of (reads_names table))
  case stringPrefix table => exact reads_record1 (.of (reads_names table))
  case bytePrefix table => exact reads_record1 (.of (reads_numbers hr))

theorem reads_enumRepresentation {r : EnumRepresentation} (hr : r.IsExact) :
    enumRepresentation.Reads r.toJson r := by
  cases r <;> refine .choice rfl ?_
  case string table => exact (reads_names table).map _
  case int table => exact (reads_numbers hr).map _

/-! ## Definitions -/

/-- A definition in place is read as it would be elsewhere, if it is not written as a text. -/
theorem reads_inline {inner : Decoder Definition} {j : Json} {d : Definition}
    (h : inner.Reads j d) (hj : ∀ s, j ≠ .text s) : (referenceOf inner).Reads j (.inline d) := by
  refine reads_untagged h.plain ?_
  split
  · next s => exact absurd rfl (hj s)
  · rw [h.ofTree]
    rfl

theorem reads_referenceOf {inner : Decoder Definition} {r : Reference}
    (h : ∀ d, r = .inline d → inner.Reads d.toJson d) :
    (referenceOf inner).Reads r.toJson r := by
  cases r with
  | named name => exact reads_untagged (.text name) rfl
  | inline d =>
    obtain ⟨payload, hd⟩ := d.exists_toJson_eq
    exact reads_inline (h d rfl) fun s => by rw [Reference.toJson, hd]; nofun

/-- What stands under the name of a field. -/
def bodyOf (f : Field) : FieldBody :=
  ⟨f.type, f.optional, f.nullable⟩

theorem named_bodyOf (f : Field) : (bodyOf f).named f.name = f := by
  cases f
  rfl

theorem reads_fieldBodyOf {reference : Decoder Reference} {f : Field}
    (h : reference.Reads f.type.toJson f.type) :
    (fieldBodyOf reference).Reads f.toJson (bodyOf f) := by
  obtain ⟨name, type, optional, nullable⟩ := f
  exact reads_record3 (show ["type", "optional", "nullable"].Nodup by decide) (.of h)
    (.of (reads_bool optional)) (.of (reads_bool nullable))

section

variable {reference : Decoder Reference}

theorem reads_references {rs : List Reference} (h : ∀ r ∈ rs, reference.Reads r.toJson r) :
    reference.list.Reads (.list (referencesJson rs)) rs := by
  rw [referencesJson_eq_map]
  exact .list (forall₂_map_self h)

theorem reads_fields {fields : List Field}
    (h : ∀ r ∈ fields.map Field.type, reference.Reads r.toJson r) :
    (Decoder.entries (fieldBodyOf reference)).Reads (.object (fieldEntriesJson fields))
      (fields.map fun f => (f.name, bodyOf f)) := by
  rw [fieldEntriesJson_eq_map]
  refine .entries (List.forall₂_map_left_iff.2 (List.forall₂_map_right_iff.2
    (List.forall₂_same.2 fun f hf => ⟨rfl, reads_fieldBodyOf (h f.type ?_)⟩)))
  exact List.mem_map_of_mem hf

theorem reads_structOf {fields : List Field} {representation : StructRepresentation}
    (hexact : representation.IsExact)
    (h : ∀ r ∈ fields.map Field.type, reference.Reads r.toJson r) :
    (structOf reference).Reads
      (.object [("fields", .object (fieldEntriesJson fields)),
        ("representation", representation.toJson)]) (.struct fields representation) := by
  have hfields : (fields.map fun f => (f.name, bodyOf f)).map (fun f => f.2.named f.1) =
      fields := by
    rw [List.map_map]
    exact List.map_id'' named_bodyOf fields
  have hreads : (structOf reference).Reads
      (.object [("fields", .object (fieldEntriesJson fields)),
        ("representation", representation.toJson)])
      (.struct ((fields.map fun f => (f.name, bodyOf f)).map fun f => f.2.named f.1)
        representation) :=
    reads_record2 (show ["fields", "representation"].Nodup by decide) (.of (reads_fields h))
      (.of (reads_structRepresentation hexact))
  rwa [hfields] at hreads

end

/-- **A definition is read along its references.** -/
theorem reads_definitionOf {inner : Decoder Definition} {d : Definition} (hexact : d.IsExact)
    (h : ∀ e, .inline e ∈ d.references → inner.Reads e.toJson e) :
    (definitionOf inner).Reads d.toJson d := by
  have hreference : ∀ r ∈ d.references, (referenceOf inner).Reads r.toJson r :=
    fun r hr => reads_referenceOf fun e he => h e (he ▸ hr)
  -- What is written of a link shows its case only when it is known whether there is a target.
  cases d <;> try refine .choice rfl ?_
  case bool => exact reads_emptyPayload ..
  case string => exact reads_emptyPayload ..
  case bytes => exact reads_emptyPayload ..
  case int => exact reads_emptyPayload ..
  case float => exact reads_emptyPayload ..
  case link target =>
    have htext : (Definition.link target).toJson = caseObject "link"
        (.object (given [("expectedType", target.map Reference.toJson)])) := by
      cases target <;> rfl
    rw [htext]
    refine .choice rfl ?_
    exact reads_record1 (reads_absentable fun r hr =>
      ⟨hreference r (Option.mem_toList.2 hr), r.toJson_ne_null⟩)
  case map key value valueNullable representation =>
    exact reads_record4
      (show ["keyType", "valueType", "valueNullable", "representation"].Nodup by decide)
      (.of (hreference key (List.mem_cons_self ..)))
      (.of (hreference value (List.mem_cons_of_mem _ (List.mem_cons_self ..))))
      (.of (reads_bool valueNullable)) (.of (reads_mapRepresentation representation))
  case list value valueNullable =>
    exact reads_record2 (show ["valueType", "valueNullable"].Nodup by decide)
      (.of (hreference value (List.mem_singleton_self value))) (.of (reads_bool valueNullable))
  case struct fields representation => exact reads_structOf hexact hreference
  case union members representation =>
    exact reads_record2 (show ["members", "representation"].Nodup by decide)
      (.of (reads_references hreference)) (.of (reads_unionRepresentation hexact))
  case enum members representation =>
    exact reads_record2 (show ["members", "representation"].Nodup by decide)
      (.of (reads_texts members)) (.of (reads_enumRepresentation hexact))
  case copy source => exact reads_record1 (.of (reads_text source))

/-- **What is written of a definition is read**, if as many levels are unfolded as containers
are written inside each other. -/
theorem reads_definitionWithin {d : Definition} (hexact : ∀ e ∈ d :: d.inlines, e.IsExact)
    {levels : Nat} (hlevels : d.toJson.nesting ≤ levels) :
    (definitionWithin levels).Reads d.toJson d := by
  -- The levels vary with the definition: those of a definition in place are one less.
  induction d using Definition.reference_induction generalizing levels with
  | step d ih =>
    obtain ⟨levels, rfl, -⟩ := Json.exists_budget (d.nesting_toJson_pos.trans_le hlevels)
    refine reads_definitionOf (hexact d (List.mem_cons_self ..)) fun e he => ih e he ?_ ?_
    · have hcontained := Definition.sublist_inlines_of_mem_references he
      exact fun f hf => hexact f (List.mem_cons_of_mem _ (hcontained.subset hf))
    · have hdeeper := Definition.nesting_toJson_lt_of_mem_references he
      rw [Reference.toJson] at hdeeper
      omega

end Document

/-! ## Schemas -/

namespace Schema

theorem nesting_toJson_lt_of_mem_values {s : Schema} {d : Definition} (h : d ∈ s.types.values) :
    d.toJson.nesting < s.toJson.nesting := by
  have hentry := Entries.nesting_lt_toJson id Definition.toJson h
  rw [toJson, Json.nesting, Json.entryNesting]
  omega

/-- As many levels are unfolded as schemas need that are nested a little too deep for
documents, and so what is written of them is refused for its nesting only. -/
theorem reads_toJson {s : Schema} (hexact : s.IsExact)
    (hnesting : s.toJson.nesting ≤ Json.nestingLimit + 2) : Document.schema.Reads s.toJson s := by
  refine reads_record1 (.of (Document.reads_entries fun d hd => ?_))
  refine Document.reads_definitionWithin (fun e he => hexact e ?_) ?_
  · rcases List.mem_cons.1 he with rfl | he
    · exact Or.inl hd
    · obtain ⟨entry, hentry, rfl⟩ := List.mem_map.1 hd
      exact Or.inr (mem_inlines.2 ⟨entry, hentry, he⟩)
  · have hless := nesting_toJson_lt_of_mem_values hd
    omega

theorem reads_types {s : Schema} (hexact : s.IsExact)
    (hnesting : s.toJson.nesting ≤ Json.nestingLimit) : Document.schema.Reads s.toJson s :=
  reads_toJson hexact (Nat.le_add_right_of_le hnesting)

/-- **A schema is read back from its text.** -/
theorem ofText_text {s : Schema} (hexact : s.IsExact)
    (hnesting : s.toJson.nesting ≤ Json.nestingLimit) : ofText s.text = .ok s :=
  (reads_types hexact hnesting).decode hnesting

/-- A schema in which names and keys are empty, strange and repeated, and numbers are as large
as they may be. -/
def oddments : Schema :=
  ⟨⟨[("", .copy "\"\\\n\x01é"),
    ("", .link (some (.inline (.map (.named "K") (.inline (.struct
      [.mk "f" (.inline (.link none)) true false, .mk "f" (.named "") false true]
      (.map (some ⟨[("f", ⟨some "", some (.int (-0x8000000000000000))⟩), ("f", ⟨none, none⟩)]⟩))))
      true (.stringPairs ⟨":", ""⟩))))),
    ("U", .union [.inline .bytes, .named "U"] (.kinded ⟨[(.map, "U"), (.map, "U"), (.link, "")]⟩)),
    ("B", .union [] (.bytePrefix ⟨[("U", 0x7fffffffffffffff), ("U", 0)]⟩)),
    ("T", .struct [] (.tuple (some []))),
    ("E", .enum ["a", "a"] (.int ⟨[("a", -1), ("", 0)]⟩))]⟩⟩

theorem ofText_text_oddments :
    oddments.IsExact ∧ oddments.toJson.nesting ≤ Json.nestingLimit ∧
      ofText oddments.text = .ok oddments := by
  have hexact : oddments.IsExact := by
    intro d hd
    simp [oddments, inlines, Entries.values, Definition.inlines, Reference.inlines, fieldInlines,
      referenceInlines] at hd
    rcases hd with (rfl | rfl | rfl | rfl | rfl | rfl) | rfl | rfl | rfl | rfl <;>
      simp [Definition.IsExact, StructRepresentation.IsExact, UnionRepresentation.IsExact,
        EnumRepresentation.IsExact, FieldDetails.IsExact, ImplicitValue.IsExact, Entries.values,
        Json.IsSigned, Numeral.minInt64, Numeral.maxInt64]
  have hnesting : oddments.toJson.nesting ≤ Json.nestingLimit := by decide
  exact ⟨hexact, hnesting, ofText_text hexact hnesting⟩

end Schema
end WireSchema
