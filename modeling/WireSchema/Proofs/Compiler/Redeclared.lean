import WireSchema.Proofs.Compiler.Groups
import WireSchema.Proofs.Compiler.Guarded

/-!
# Names that are declared again

A declaration of a name that has been declared before is reported, and has no effect otherwise:
the errors of a schema are those reports, and behind them the errors of the schema without such
declarations (`Compiler.compile_redeclared`).

The compiles of the two schemas differ in what has been recorded when the first definition is
looked at.  In a compile that adds everything to one list what stands there before is a frame
(`Recorded.declarations_eq`), so this compile returns what the other one does.

Without repetitions and without errors there is a type system.  This does not depend on the
digest: two definitions in place with one digest are one type, but that has a content.
-/

namespace WireSchema

/-! ## A schema without repetitions -/

namespace Schema

variable (s : Schema)

/-- The schema without the declarations whose names have been declared before. -/
def withoutRedeclared : Schema :=
  ⟨⟨s.leading⟩⟩

/-- Nothing is declared again exactly if the names are different. -/
theorem redeclared_eq_nil_iff : s.redeclared = [] ↔ s.types.keys.Nodup := by
  rw [← duplicateErrors_eq_nil_iff, s.duplicateErrors_eq_redeclared, List.map_eq_nil_iff]

theorem nodup_withoutRedeclared : s.withoutRedeclared.types.keys.Nodup := by
  have hnodup := s.nodup_accepted
  rw [s.accepted_eq_leading] at hnodup
  exact hnodup

/-- The declarations that count are the same. -/
theorem accepted_withoutRedeclared : s.withoutRedeclared.accepted = s.accepted :=
  (accepted_of_nodup s.nodup_withoutRedeclared).trans s.accepted_eq_leading.symm

end Schema

/-! ## The theorem -/

namespace Compiler

variable {c : Compiler} {s : Schema}

/-- The declaration pass looks at the declarations that count only. -/
theorem declarationPass_withoutRedeclared :
    c.declarationPass s.withoutRedeclared = c.declarationPass s := by
  rw [declarationPass, declarationPass, s.accepted_withoutRedeclared]

/-- The reports of the further declarations stand in front of what is wrong without them. -/
theorem errors_eq_append :
    c.errors s (c.declarationPass s) = s.redeclared.map .duplicateName ++
      c.errors s.withoutRedeclared (c.declarationPass s.withoutRedeclared) := by
  have hfirst : s.withoutRedeclared.duplicateErrors = [] :=
    Schema.duplicateErrors_eq_nil_iff.2 s.nodup_withoutRedeclared
  rw [declarationPass_withoutRedeclared, errors, errors, hfirst, List.nil_append,
    s.duplicateErrors_eq_redeclared, List.append_assoc]

/-- A compile returns a type system or the errors of the schema. -/
theorem compile_cases (c : Compiler) (s : Schema) :
    (∃ ts, c.compile s = .ok ts ∧ c.errors s (c.declarationPass s) = []) ∨
      ∃ es, c.compile s = .error (.rejected es) ∧
        c.errors s (c.declarationPass s) = es.toList := by
  cases herrors : c.errors s (c.declarationPass s) with
  | nil =>
    obtain ⟨types, htypes⟩ := exists_assemble (body_ne_none herrors)
    exact Or.inl ⟨⟨types, s.fingerprint c.digest⟩,
      (c.compile_eq_ok_iff s).2 ⟨herrors, htypes, rfl⟩, rfl⟩
  | cons e es => exact Or.inr ⟨⟨e, es⟩, (c.compile_eq_rejected_iff s).2 herrors, rfl⟩

/-- **A repeated declaration is reported and has no effect otherwise.**  If a name is declared
more than once, the schema is rejected.  Its errors are one for every further declaration, in
their order, and behind them those of the schema without the further declarations: none if that
has a type system, and otherwise all that it is rejected with.  A compile that adds all errors to
one list returns the same. -/
theorem compile_redeclared (h : ¬ s.types.keys.Nodup) :
    s.redeclared ≠ [] ∧ ∃ es,
      c.compile s = .error (.rejected es) ∧
        Recorded.compileSchema c s = .error (.rejected es) ∧
          ((∃ ts, c.compile s.withoutRedeclared = .ok ts ∧
              es.toList = s.redeclared.map .duplicateName) ∨
            ∃ es', c.compile s.withoutRedeclared = .error (.rejected es') ∧
              es.toList = s.redeclared.map .duplicateName ++ es'.toList) := by
  have hne : s.redeclared ≠ [] := mt s.redeclared_eq_nil_iff.1 h
  have herrors := errors_eq_append (c := c) (s := s)
  obtain ⟨es, hes⟩ : ∃ es, c.compile s = .error (.rejected es) := by
    rcases c.compile_cases s with ⟨ts, -, hnil⟩ | ⟨es, hes, -⟩
    · rw [hnil] at herrors
      exact absurd (List.map_eq_nil_iff.1 (List.append_eq_nil_iff.1 herrors.symm).1) hne
    · exact ⟨es, hes⟩
  refine ⟨hne, es, hes, (Recorded.compileSchema_eq c s).trans hes, ?_⟩
  rw [(c.compile_eq_rejected_iff s).1 hes] at herrors
  rcases c.compile_cases s.withoutRedeclared with ⟨ts, hts, hnil⟩ | ⟨es', hes', hrest⟩
  · rw [hnil, List.append_nil] at herrors
    exact Or.inl ⟨ts, hts, herrors⟩
  · rw [hrest] at herrors
    exact Or.inr ⟨es', hes', herrors⟩

/-- A name that is declared twice more, by declarations with faults of their own, and a definition
in place that is faulty for two declarations. -/
def redeclaredFaulty : Schema :=
  ⟨⟨[("A", .list (.inline (.copy "X")) false), ("A", .list (.named "Nowhere") false),
    ("B", .list (.inline (.list (.inline (.copy "X")) false)) false),
    ("A", .enum ["", ""] (.string ⟨[]⟩))]⟩⟩

theorem compile_redeclared_redeclaredFaulty :
    ¬ redeclaredFaulty.types.keys.Nodup ∧ redeclaredFaulty.redeclared = ["A", "A"] ∧
      ∃ es es', compile ⟨.standard, id⟩ redeclaredFaulty = .error (.rejected es) ∧
        compile ⟨.standard, id⟩ redeclaredFaulty.withoutRedeclared = .error (.rejected es') ∧
          es.toList = [.duplicateName "A", .duplicateName "A"] ++ es'.toList ∧
            es'.toList = [.charged "A" (.unsupportedKind "copy"),
              .charged "B" (.unsupportedKind "copy")] := by
  have hrepeats : ¬ redeclaredFaulty.types.keys.Nodup := by decide
  have hrest : compile ⟨.standard, id⟩ redeclaredFaulty.withoutRedeclared =
      .error (.rejected ⟨.charged "A" (.unsupportedKind "copy"),
        [.charged "B" (.unsupportedKind "copy")]⟩) := rfl
  obtain ⟨-, es, hes, -, ⟨ts, hts, -⟩ | ⟨es', hes', herrors⟩⟩ :=
    compile_redeclared (c := ⟨.standard, id⟩) hrepeats
  · rw [hrest] at hts
    cases hts
  · refine ⟨hrepeats, rfl, es, es', hes, hes', herrors, ?_⟩
    rw [hrest] at hes'
    cases hes'
    rfl

end Compiler
end WireSchema
