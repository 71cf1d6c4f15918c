import WireSchema.Proofs.Compiler.InlineUnions
import WireSchema.Proofs.Compiler.Linked
import WireSchema.Proofs.Resolution.Injective
import WireSchema.Proofs.TypeSystem.Language

/-!
# The text of a compiled type says what the type is

Types of compiled schemas that are shown alike have one name and agree
(`Compiler.compile_shown`), if all names are words and no double is assumed for an absent field.
The schemas may be different, and so may the compilers.

What `Body.IsLegible` asks for beyond the names is due to the checks of the compiler: a sound
definition has a content that speaks of its own fields and members only
(`Definition.isTidy_linked`), and names tell types apart.

A link to any type is written `&Any`, and `Any` may be the name of a type; so such a link and one
to that type cannot be told apart (`Compiler.anyLink_shown_alike`).
-/

namespace WireSchema

open Text

/-! ## What compiled contents are like -/

theorem mem_keys_detailTable {declared : List FieldName} {name : FieldName}
    {es : List (FieldName × FieldDetails)} {before : List FieldName}
    {table : Table FieldName FieldDetails}
    (h : name ∈ (detailTable declared before table es).keys) :
    name ∈ table.keys ∨ name ∈ declared := by
  induction es generalizing before table with
  | nil => exact Or.inl h
  | cons e es ih =>
    obtain ⟨key, d⟩ := e
    rw [detailTable] at h
    split at h
    · exact ih h
    · next hnew =>
      obtain ⟨hdeclared, -⟩ := not_or.1 hnew
      rcases ih h with h | h
      · split at h
        · exact Or.inl h
        · rcases Table.mem_keys_insert.1 h with rfl | h
          · exact Or.inr (not_not.1 hdeclared)
          · exact Or.inl h
      · exact Or.inr h

/-- Details are compiled for declared fields only. -/
theorem keys_compiledDetails_subset (declared : List FieldName)
    (details : Option (Entries FieldName FieldDetails)) :
    (compiledDetails declared details).keys ⊆ declared := by
  cases details with
  | none => exact List.nil_subset _
  | some es => exact fun name hname => (mem_keys_detailTable hname).resolve_left List.not_mem_nil

namespace Definition

variable {declared : List TypeName} {ρ : Reference → TypeId}

/-- The members of a sound union have different positions. -/
theorem nodup_map_members {members : List Reference} {representation : UnionRepresentation}
    (hsound : ¬ (Definition.union members representation).LocalFault declared)
    (hρ : ∀ name, ρ (.named name) = declared.idxOf name) : (members.map ρ).Nodup := by
  have hinline : ∀ e, .inline e ∉ members := fun e he => hsound (.inPlace e he)
  have hdeclared : ∀ name ∈ namesOf members, name ∈ declared := by
    intro name hname
    by_contra hmissing
    exact hsound (.undeclared name (mem_namesOf.1 hname) hmissing)
  have hnodup : (namesOf members).Nodup := by
    by_contra hrepeated
    exact hsound (.repeatedMember hrepeated)
  rw [← Scope.map_idxOf_namesOf hρ hinline]
  exact hnodup.map_on fun name hname name' _ heq => (List.idxOf_inj (hdeclared name hname)).1 heq

/-- The content of a sound definition speaks of its own fields and members only. -/
theorem isTidy_linked {d : Definition} (hsound : ¬ d.LocalFault declared)
    (hρ : ∀ name, ρ (.named name) = declared.idxOf name) {b : Body} (h : d.linked ρ = some b) :
    b.IsTidy := by
  cases d with
  | struct fields representation =>
    cases h
    cases representation with
    | map details =>
      have hnames : (fields.map (Field.linked ρ)).map StructField.name = fields.map Field.name := by
        rw [List.map_map]
        rfl
      rw [StructRepresentation.layout, Body.IsTidy, hnames]
      exact keys_compiledDetails_subset _ details
    | _ => trivial
  | union members representation =>
    have hpositions := positions_linked_subset hsound hρ h
    cases h
    exact ⟨nodup_map_members hsound hρ, (List.append_subset.1 hpositions).2⟩
  | enum members representation =>
    cases h
    have hdistinct : members.Nodup := by
      by_contra hrepeated
      exact hsound (.repeatedName hrepeated)
    have hfaults : representation.faults members = [] := by
      by_contra hrejected
      exact hsound (.representation hrejected)
    have hinjective := (EnumRepresentation.faults_eq_nil_iff_injective hdistinct _).1 hfaults
    obtain ⟨hassigns, -⟩ := hinjective.assigns_layout hdistinct
    generalize representation.layout members = layout at hassigns
    cases hassigns with
    | string hkeys _ => exact hkeys
    | int hkeys _ => exact hkeys
  | copy source => cases h
  | _ =>
    cases h
    trivial

end Definition

/-! ## Types -/

namespace TypeSystem

variable {ts ts' : TypeSystem}

/-- Whether all names of types, fields and members of enums are words, and no double is assumed
for an absent field. -/
def IsPlain (ts : TypeSystem) : Prop :=
  ∀ t ∈ ts.types, IsWord t.name ∧ t.body.IsPlain

instance (ts : TypeSystem) : Decidable ts.IsPlain :=
  inferInstanceAs (Decidable (∀ t ∈ ts.types, _ ∧ _))

/-- In a linked type system with plain names every text says what the type is. -/
theorem IsPlain.isLegible (hplain : ts.IsPlain) (hclosed : ts.Closed) (hnodup : ts.names.Nodup)
    {t : CompiledType} (ht : t ∈ ts.types) (htidy : t.body.IsTidy) :
    t.body.IsLegible ts.nameOf where
  word i hi := by
    obtain ⟨u, hu⟩ := exists_type? (hclosed t ht i hi)
    rw [nameOf_eq hu]
    exact (hplain u (List.mem_of_getElem? hu)).1
  distinct i hi j hj hname := by
    obtain ⟨u, hu⟩ := exists_type? (hclosed t ht i hi)
    obtain ⟨v, hv⟩ := exists_type? (hclosed t ht j hj)
    rw [nameOf_eq hu, nameOf_eq hv] at hname
    have hfound := find?_of_nodup hnodup hu
    rw [hname, find?_of_nodup hnodup hv] at hfound
    exact (Option.some.inj hfound).symm
  plain := (hplain t ht).2
  tidy := htidy

end TypeSystem

namespace Compiler

variable {c c' : Compiler} {s s' : Schema} {ts ts' : TypeSystem}

theorem isLegible_of_compile (h : c.compile s = .ok ts) (hplain : ts.IsPlain) {id : TypeId}
    {t : CompiledType} (ht : ts.type? id = some t) : t.body.IsLegible ts.nameOf := by
  obtain ⟨slot, hslot, hbody, -⟩ := exists_slot_of_compile h ht
  obtain ⟨d, hlinks⟩ := exists_links (List.mem_of_getElem? hslot) hbody
  have hnames : ts.names.Nodup := by
    rw [(map_name_of_compile h).2]
    exact nodup_names_declarationPass
  exact hplain.isLegible (closed_of_compile h) hnames (List.mem_of_getElem? ht)
    (Definition.isTidy_linked hlinks.sound (fun _ => rfl) hlinks.linked)

/-- **The text of a compiled type says what the type is**, up to the order in which a union lists
its members and a struct the details of its fields, and with a link to any type taken for one to
a type of the name `Any`. -/
theorem compile_shown (h : c.compile s = .ok ts) (h' : c'.compile s' = .ok ts')
    (hplain : ts.IsPlain) (hplain' : ts'.IsPlain) {id id' : TypeId} {t t' : CompiledType}
    (ht : ts.type? id = some t) (ht' : ts'.type? id' = some t')
    (htext : ts.inLanguage id = ts'.inLanguage id') :
    t.name = t'.name ∧ t.body.kind = t'.body.kind ∧
      t.body.Agrees SameTarget ts.nameOf ts'.nameOf t'.body := by
  have hspace : ∀ u, EndsWord (" " ++ u) := endsWord_append (by decide) (by decide)
  simp only [TypeSystem.inLanguage, ht, ht', String.append_assoc, String.append_right_inj] at htext
  obtain ⟨hname, hrest⟩ := word_append_inj (hplain t (List.mem_of_getElem? ht)).1
    (hplain' t' (List.mem_of_getElem? ht')).1 (hspace _) (hspace _) htext
  have hbody := (String.append_right_inj _).1 hrest
  exact ⟨hname, Body.kind_eq_of_inLanguage hbody,
    (isLegible_of_compile h hplain ht).agrees (isLegible_of_compile h' hplain' ht') hbody⟩

/-- A type called like a flag, a struct with details, and a union with one of its members in the
table. -/
def flagged (members : List Reference) (details : List (FieldName × FieldDetails)) : Schema :=
  ⟨⟨[("optional", .bool), ("N", .int),
    ("P", .struct
      [.mk "nullable" (.named "optional") true false,
        .mk "b" (.named "N") false true,
        .mk "c" (.inline (.list (.named "N") true)) true true]
      (.map (some ⟨details⟩))),
    ("U", .union members (.keyed ⟨[("n", "N")]⟩))]⟩⟩

theorem compile_shown_flagged :
    ∃ ts ts' t t',
      compile ⟨.standard, id⟩ (flagged [.named "N", .named "P"]
        [("nullable", ⟨some "r", none⟩), ("b", ⟨none, some (.int 0)⟩)]) = .ok ts ∧
      compile ⟨.standard, id⟩ (flagged [.named "P", .named "N"]
        [("b", ⟨none, some (.int 0)⟩), ("nullable", ⟨some "r", none⟩)]) = .ok ts' ∧
      ts.IsPlain ∧ ts'.IsPlain ∧ ts.type? 3 = some t ∧ ts'.type? 3 = some t' ∧ t ≠ t' ∧
      ts.inLanguage 3 = ts'.inLanguage 3 ∧
      t.name = t'.name ∧ t.body.kind = t'.body.kind ∧
        t.body.Agrees SameTarget ts.nameOf ts'.nameOf t'.body := by
  obtain ⟨ts, ts', t, t', h, h', hplain, hplain', ht, ht', hne, htext⟩ : ∃ ts ts' t t',
      compile ⟨.standard, id⟩ (flagged [.named "N", .named "P"]
        [("nullable", ⟨some "r", none⟩), ("b", ⟨none, some (.int 0)⟩)]) = .ok ts ∧
      compile ⟨.standard, id⟩ (flagged [.named "P", .named "N"]
        [("b", ⟨none, some (.int 0)⟩), ("nullable", ⟨some "r", none⟩)]) = .ok ts' ∧
      ts.IsPlain ∧ ts'.IsPlain ∧ ts.type? 3 = some t ∧ ts'.type? 3 = some t' ∧ t ≠ t' ∧
      ts.inLanguage 3 = ts'.inLanguage 3 := by
    refine ⟨_, _, _, _, rfl, rfl, ?_, ?_, rfl, rfl, ?_, ?_⟩
    all_goals decide +kernel
  exact ⟨ts, ts', t, t', h, h', hplain, hplain', ht, ht', hne, htext,
    compile_shown h h' hplain hplain' ht ht' htext⟩

/-- A link, and a type called `Any` for it to lead to. -/
def anyLink (target : Option Reference) : Schema :=
  ⟨⟨[("Any", .string), ("L", .link target)]⟩⟩

/-- A link to any type and a link to a type called `Any` are shown alike. -/
theorem anyLink_shown_alike :
    ¬ ∀ (c c' : Compiler) (s s' : Schema) (ts ts' : TypeSystem), c.compile s = .ok ts →
      c'.compile s' = .ok ts' → ts.IsPlain → ts'.IsPlain →
        ∀ (id id' : TypeId) (t t' : CompiledType), ts.type? id = some t → ts'.type? id' = some t' →
          ts.inLanguage id = ts'.inLanguage id' →
            t.name = t'.name ∧ t.body.kind = t'.body.kind ∧
              t.body.Agrees Eq ts.nameOf ts'.nameOf t'.body := by
  intro hall
  obtain ⟨ts, ts', t, t', h, h', hplain, hplain', ht, ht', htext, hbody, hbody'⟩ : ∃ ts ts' t t',
      compile ⟨.standard, id⟩ (anyLink none) = .ok ts ∧
      compile ⟨.standard, id⟩ (anyLink (some (.named "Any"))) = .ok ts' ∧
      ts.IsPlain ∧ ts'.IsPlain ∧ ts.type? 1 = some t ∧ ts'.type? 1 = some t' ∧
      ts.inLanguage 1 = ts'.inLanguage 1 ∧ t.body = .link none ∧ t'.body = .link (some 0) := by
    refine ⟨_, _, _, _, rfl, rfl, ?_, ?_, rfl, rfl, ?_, rfl, rfl⟩
    all_goals decide +kernel
  obtain ⟨-, -, hagrees⟩ := hall _ _ _ _ ts ts' h h' hplain hplain' 1 1 t t' ht ht' htext
  rw [hbody, hbody'] at hagrees
  cases hagrees

end Compiler
end WireSchema
