import WireSchema.Compiler
import WireSchema.Proofs.Declaration.Canonical

/-!
# Compiling canonical forms

A canonical form is compiled exactly as the definition it comes from.  Not only do the
two have the same content: from every arena they report the same faults in the same
order and leave the same arena behind.  So the statement on definitions is an equation
between passes, and it needs no invariant of the arena and nothing about the digest.

A definition in place enters the arena by the digest of its canonical text and by its
keyword, and it is there that canonical forms have to be canonical.  Everything else
that the compiler asks about a definition is a name, a flag or a representation.

`Compiler.compile_canonical` reads this on whole schemas.
-/

namespace WireSchema

/-! ## Definitions -/

namespace Scope

variable (scope : Scope)

theorem mapKey_canonical (key : Reference) : scope.mapKey key.canonical = scope.mapKey key := by
  cases key <;> simp only [Reference.canonical, mapKey]

/-- A canonical form is placed where its definition is. -/
theorem place_canonical (depth : Nat) (d : Definition) (body : Pass (Option Body)) :
    scope.place depth d.canonical body = scope.place depth d body := by
  funext a
  simp only [place, Definition.canonical_canonical, Definition.keyword_canonical]

mutual

theorem resolve_canonical :
    ∀ (depth : Nat) (r : Reference), scope.resolve depth r.canonical = scope.resolve depth r
  | _, .named _ => by simp only [Reference.canonical]
  | depth, .inline d => by
    simp only [Reference.canonical, resolve, compile_definition_canonical (depth + 1) d,
      place_canonical]

/-- **A canonical form is compiled as its definition is**: to the same content, with the
same faults, from and to the same arena. -/
theorem compile_definition_canonical :
    ∀ (depth : Nat) (d : Definition), scope.compile depth d.canonical = scope.compile depth d
  | _, .bool => rfl
  | _, .string => rfl
  | _, .bytes => rfl
  | _, .int => rfl
  | _, .float => rfl
  | _, .link none => by simp only [Definition.canonical]
  | depth, .link (some target) => by
    simp only [Definition.canonical, compile, resolve_canonical depth target]
  | depth, .map key value valueNullable representation => by
    simp only [Definition.canonical, compile, resolve_canonical depth value, mapKey_canonical]
  | depth, .list value valueNullable => by
    simp only [Definition.canonical, compile, resolve_canonical depth value]
  | depth, .struct fields representation => by
    have hnames := map_name_canonicalFields fields
    have hoptional := isOptionalIn_canonicalFields fields
    simp only [Definition.canonical, compile, hnames, resolveFields_canonicalFields depth fields,
      StructRepresentation.faults_fields hnames hoptional,
      StructRepresentation.layout_fields hnames, StructRepresentation.faults_canonical,
      StructRepresentation.layout_canonical]
  | _, .union _ _ => by simp only [Definition.canonical]
  | _, .enum members representation => by
    simp only [Definition.canonical, compile, enumeration, EnumRepresentation.faults_canonical,
      EnumRepresentation.layout_canonical]
  | _, .copy _ => by simp only [Definition.canonical]

theorem resolveFields_canonicalFields :
    ∀ (depth : Nat) (fields : List Field),
      scope.resolveFields depth (canonicalFields fields) = scope.resolveFields depth fields
  | _, [] => by simp only [canonicalFields]
  | depth, .mk name type optional nullable :: rest => by
    simp only [canonicalFields, resolveFields, resolve_canonical depth type,
      resolveFields_canonicalFields depth rest]

end

end Scope

/-! ## Schemas -/

/-- The declarations that count are the same ones, in canonical form. -/
theorem Schema.firstDeclarations_canonical (before : List TypeName)
    (ds : List (TypeName × Definition)) :
    firstDeclarations before (ds.map fun e => (e.1, e.2.canonical)) =
      (firstDeclarations before ds).map fun e => (e.1, e.2.canonical) := by
  induction ds generalizing before with
  | nil => rfl
  | cons e rest ih =>
    obtain ⟨name, d⟩ := e
    rw [List.map_cons, firstDeclarations, firstDeclarations]
    split
    · exact ih before
    · rw [List.map_cons, ih (name :: before)]

namespace Compiler

variable (c : Compiler)

theorem declarations_canonical (declared : List TypeName) (ds : List (TypeName × Definition))
    (id : TypeId) (a : Arena) :
    c.declarations declared id (ds.map fun e => (e.1, e.2.canonical)) a =
      c.declarations declared id ds a := by
  induction ds generalizing id a with
  | nil => rfl
  | cons e rest ih =>
    obtain ⟨name, d⟩ := e
    simp only [List.map_cons, declarations, Scope.compile_definition_canonical, ih]

/-- The declaration pass does not see redundant spellings. -/
theorem declarationPass_canonical (s : Schema) :
    c.declarationPass s.canonical = c.declarationPass s := by
  have haccepted : s.canonical.accepted = s.accepted.map fun e => (e.1, e.2.canonical) :=
    Schema.firstDeclarations_canonical [] s.types.toList
  have hnames : s.canonical.accepted.map Prod.fst = s.accepted.map Prod.fst := by
    rw [haccepted, List.map_map]
    rfl
  simp only [declarationPass, hnames]
  rw [haccepted, declarations_canonical]

/-- Everything that is wrong with a schema, in the order of the report, is wrong with its
canonical form. -/
theorem errors_canonical (s : Schema) (pass : List (TypeName × List Fault) × Arena) :
    c.errors s.canonical pass = c.errors s pass := by
  rw [errors, errors, Schema.duplicateErrors, Schema.duplicateErrors, Schema.keys_canonical]

/-- The outcome of a compile, without the fingerprint of the schema, does not change. -/
theorem types_compile_canonical (s : Schema) :
    (c.compile s.canonical).map TypeSystem.types = (c.compile s).map TypeSystem.types := by
  simp only [compile, declarationPass_canonical, errors_canonical]
  cases CompileErrors.ofList? (c.errors s (c.declarationPass s)) with
  | some errors => rfl
  | none =>
    cases assemble (c.declarationPass s).2.slots <;> rfl

/-- **Canonicalisation never changes the outcome of a compile.**  A schema compiles if and
only if its canonical form does.  The two type systems then have the same types, so that
positions, names, flags and contents agree, and each has the fingerprint of its own
schema.  If the compile fails, it fails for the same reason, with the same errors in the
same order. -/
theorem compile_canonical (s : Schema) :
    ((c.compile s).isOk ↔ (c.compile s.canonical).isOk) ∧
      (∀ ts ts', c.compile s = .ok ts → c.compile s.canonical = .ok ts' →
        ts'.types = ts.types ∧ ts.fingerprint = s.fingerprint c.digest ∧
          ts'.fingerprint = s.canonical.fingerprint c.digest) ∧
      ∀ failure, c.compile s = .error failure ↔ c.compile s.canonical = .error failure := by
  have htypes := c.types_compile_canonical s
  have hfingerprint : ∀ (t : Schema) (ts : TypeSystem), c.compile t = .ok ts →
      ts.fingerprint = t.fingerprint c.digest := by
    intro t ts h
    rw [compile] at h
    split at h
    · cases h
    · split at h
      · cases h
      · cases h
        rfl
  cases h : c.compile s with
  | ok ts =>
    cases h' : c.compile s.canonical with
    | ok ts' =>
      rw [h, h'] at htypes
      refine ⟨Iff.rfl, ?_, fun failure => by simp⟩
      rintro _ _ ⟨⟩ ⟨⟩
      exact ⟨Except.ok.inj htypes, hfingerprint s ts h, hfingerprint _ ts' h'⟩
    | error failure =>
      rw [h, h'] at htypes
      cases htypes
  | error failure =>
    cases h' : c.compile s.canonical with
    | ok ts' =>
      rw [h, h'] at htypes
      cases htypes
    | error failure' =>
      rw [h, h'] at htypes
      have heq : failure' = failure := Except.error.inj htypes
      subst heq
      exact ⟨Iff.rfl, fun _ _ hok => (by cases hok), fun _ => Iff.rfl⟩

end Compiler
end WireSchema
