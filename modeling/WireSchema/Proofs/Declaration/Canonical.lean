import WireSchema.Proofs.Layout.Redundancy

/-!
# Canonical forms of definitions

A canonical form is canonical, and it differs from its definition in spelling only: the
names of the fields, which of them may be absent, and the sort of the definition stay.
The statements about references, definitions and lists of fields are proved together,
along the mutual recursion of the canonical form itself.
-/

namespace WireSchema

/-! ## What stays -/

@[simp] theorem map_name_canonicalFields (fields : List Field) :
    (canonicalFields fields).map Field.name = fields.map Field.name := by
  induction fields with
  | nil => rw [canonicalFields]
  | cons f rest ih =>
    cases f
    rw [canonicalFields, List.map_cons, List.map_cons, ih]
    rfl

@[simp] theorem isOptionalIn_canonicalFields (fields : List Field) (name : FieldName) :
    isOptionalIn (canonicalFields fields) name = isOptionalIn fields name := by
  induction fields with
  | nil => rw [canonicalFields]
  | cons f rest ih =>
    obtain ⟨field, type, optional, nullable⟩ := f
    simp only [isOptionalIn] at ih ⊢
    by_cases h : field = name
    · simp [canonicalFields, Field.name, Field.optional, h]
    · simpa [canonicalFields, Field.name, h] using ih

@[simp] theorem Definition.keyword_canonical (d : Definition) :
    d.canonical.keyword = d.keyword := by
  cases d with
  | link target => cases target <;> simp only [canonical, keyword]
  | _ => simp only [canonical, keyword]

/-! ## Canonical forms are canonical -/

mutual

theorem Reference.canonical_canonical : ∀ r : Reference, r.canonical.canonical = r.canonical
  | .named _ => by simp only [Reference.canonical]
  | .inline d => by simp only [Reference.canonical, Definition.canonical_canonical d]

/-- **Canonical forms are canonical.** -/
theorem Definition.canonical_canonical : ∀ d : Definition, d.canonical.canonical = d.canonical
  | .bool => rfl
  | .string => rfl
  | .bytes => rfl
  | .int => rfl
  | .float => rfl
  | .link none => by simp only [Definition.canonical]
  | .link (some target) => by
    simp only [Definition.canonical, Reference.canonical_canonical target]
  | .map key value _ _ => by
    simp only [Definition.canonical, Reference.canonical_canonical key,
      Reference.canonical_canonical value]
  | .list value _ => by simp only [Definition.canonical, Reference.canonical_canonical value]
  | .struct fields representation => by
    simp only [Definition.canonical, map_name_canonicalFields,
      canonicalFields_canonicalFields fields, StructRepresentation.canonical_canonical]
  | .union _ _ => by simp only [Definition.canonical]
  | .enum members representation => by
    simp only [Definition.canonical, EnumRepresentation.canonical_canonical]
  | .copy _ => by simp only [Definition.canonical]

theorem canonicalFields_canonicalFields :
    ∀ fields : List Field, canonicalFields (canonicalFields fields) = canonicalFields fields
  | [] => by simp only [canonicalFields]
  | .mk name type optional nullable :: rest => by
    simp only [canonicalFields, Reference.canonical_canonical type,
      canonicalFields_canonicalFields rest]

end

/-! ## Schemas -/

/-- The schema with every declaration in canonical form. -/
def Schema.canonical (s : Schema) : Schema :=
  ⟨⟨s.types.toList.map fun e => (e.1, e.2.canonical)⟩⟩

@[simp] theorem Schema.keys_canonical (s : Schema) : s.canonical.types.keys = s.types.keys := by
  simp only [Schema.canonical, Entries.keys, List.map_map]
  rfl

end WireSchema
