import WireSchema.Proofs.Resolution.LocalFault

/-!
# One definition at a time

Compiling a definition resolves its references from left to right and reports what is
wrong with the definition itself, some of it before, some behind.  In which order does not
matter for anything but the report, so `Scope.compile_report` says once and for all what a
compile of one definition is in terms of `Scope.resolveAll`:

* the arena is the one that the references leave,
* the faults are those of the references and of the form of the definition, rearranged,
* the content is missing exactly if there are faults, and otherwise the linked one.

Nothing in the later modules looks into the cases of `Scope.compile` again.
-/

namespace WireSchema

/-! ## Passes as functions -/

namespace Pass

variable {α β : Type} (a : Arena)

theorem pure_apply (x : α) : (pure x : Pass α) a = (.ok x, a) := rfl

theorem bind_apply (p : Pass α) (f : α → Pass β) :
    (p >>= f) a =
      ((f (p a).1.value (p a).2).1.after (p a).1.faults, (f (p a).1.value (p a).2).2) := rfl

theorem report_apply (faults : List Fault) : report faults a = (⟨(), faults⟩, a) := rfl

theorem check_apply (checked : Checked α) : check checked a = (checked, a) := rfl

theorem unlessFaulty_apply (p : Pass (Option α)) :
    unlessFaulty p a =
      (⟨if (p a).1.faults.isEmpty then (p a).1.value else none, (p a).1.faults⟩, (p a).2) := rfl

end Pass

namespace Scope

variable (scope : Scope) (depth : Nat)

/-! ## References -/

/-- References resolved one after the other. -/
def resolveAll : List Reference → Pass (List (Option TypeId))
  | [] => pure []
  | r :: rest => do
    let id ← scope.resolve depth r
    let ids ← resolveAll rest
    return id :: ids

theorem resolveAll_nil (a : Arena) : scope.resolveAll depth [] a = (.ok [], a) := rfl

theorem resolveAll_cons (r : Reference) (rest : List Reference) (a : Arena) :
    scope.resolveAll depth (r :: rest) a =
      (⟨(scope.resolve depth r a).1.value ::
            (scope.resolveAll depth rest (scope.resolve depth r a).2).1.value,
          (scope.resolve depth r a).1.faults ++
            (scope.resolveAll depth rest (scope.resolve depth r a).2).1.faults⟩,
        (scope.resolveAll depth rest (scope.resolve depth r a).2).2) := by
  rw [resolveAll]
  simp only [Pass.bind_apply, Pass.pure_apply, Checked.after, Checked.ok, List.append_nil]

theorem resolveAll_singleton (r : Reference) (a : Arena) :
    scope.resolveAll depth [r] a =
      (⟨[(scope.resolve depth r a).1.value], (scope.resolve depth r a).1.faults⟩,
        (scope.resolve depth r a).2) := by
  simp only [resolveAll_cons, resolveAll_nil, Checked.ok, List.append_nil]

theorem resolve_named (name : TypeName) (a : Arena) :
    scope.resolve depth (.named name) a = (scope.resolveName name, a) := by
  rw [resolve, Pass.check_apply]

theorem resolve_inline (d : Definition) (a : Arena) :
    scope.resolve depth (.inline d) a = scope.place depth d (scope.compile (depth + 1) d) a := by
  rw [resolve]

theorem resolveFields_eq (fields : List Field) (a : Arena) :
    (scope.resolveFields depth fields a).2 =
        (scope.resolveAll depth (fields.map Field.type) a).2 ∧
      (scope.resolveFields depth fields a).1.faults =
        (scope.resolveAll depth (fields.map Field.type) a).1.faults ∧
      ∀ ρ : Reference → TypeId,
        (scope.resolveAll depth (fields.map Field.type) a).1.value =
            (fields.map Field.type).map (fun r => some (ρ r)) →
          (scope.resolveFields depth fields a).1.value = some (fields.map (Field.linked ρ)) := by
  induction fields generalizing a with
  | nil =>
    rw [resolveFields]
    exact ⟨rfl, rfl, fun ρ _ => rfl⟩
  | cons f rest ih =>
    obtain ⟨name, type, optional, nullable⟩ := f
    obtain ⟨harena, hfaults, hvalue⟩ := ih (scope.resolve depth type a).2
    rw [resolveFields, List.map_cons, resolveAll_cons]
    simp only [Pass.bind_apply, Pass.pure_apply, Checked.after, Checked.ok, List.append_nil,
      Field.type]
    refine ⟨harena, by rw [hfaults], fun ρ hids => ?_⟩
    rw [List.map_cons, List.cons.injEq] at hids
    rw [hids.1, hvalue ρ hids.2]
    rfl

/-! ## Definitions -/

/-- What compiling a definition does, in terms of its references. -/
structure CompileReport (d : Definition) (a : Arena) : Prop where
  /-- The arena is the one that the references leave. -/
  arena : (scope.compile depth d a).2 = (scope.resolveAll depth d.openReferences a).2
  /-- The faults are those of the form and of the references. -/
  faults : (scope.compile depth d a).1.faults.Perm
    (scope.formFaults d ++ (scope.resolveAll depth d.openReferences a).1.faults)
  /-- A faulty definition has no content. -/
  faulty : (scope.compile depth d a).1.faults ≠ [] → (scope.compile depth d a).1.value = none
  /-- A definition without faults has its linked content. -/
  linked : ∀ ρ : Reference → TypeId, (∀ name, ρ (.named name) = scope.declared.idxOf name) →
    (scope.resolveAll depth d.openReferences a).1.value =
        d.openReferences.map (fun r => some (ρ r)) →
      (scope.compile depth d a).1.faults = [] → (scope.compile depth d a).1.value = d.linked ρ

variable {scope depth}

/-- All definitions are compiled by an all-or-nothing pass. -/
theorem CompileReport.of_pass {d : Definition} {a : Arena} {p : Pass (Option Body)}
    (hcompile : scope.compile depth d = Pass.unlessFaulty p)
    (harena : (p a).2 = (scope.resolveAll depth d.openReferences a).2)
    (hfaults : (p a).1.faults.Perm
      (scope.formFaults d ++ (scope.resolveAll depth d.openReferences a).1.faults))
    (hvalue : ∀ ρ : Reference → TypeId,
      (∀ name, ρ (.named name) = scope.declared.idxOf name) →
        (scope.resolveAll depth d.openReferences a).1.value =
            d.openReferences.map (fun r => some (ρ r)) →
          scope.formFaults d = [] → (p a).1.value = d.linked ρ) :
    scope.CompileReport depth d a := by
  have hpass : scope.compile depth d a =
      (⟨if (p a).1.faults.isEmpty then (p a).1.value else none, (p a).1.faults⟩, (p a).2) := by
    rw [hcompile, Pass.unlessFaulty_apply]
  constructor
  · rw [hpass]
    exact harena
  · rw [hpass]
    exact hfaults
  · intro h
    rw [hpass] at h ⊢
    exact if_neg fun hempty => h (List.isEmpty_iff.1 hempty)
  · intro ρ hρ hids h
    rw [hpass] at h ⊢
    have hform : scope.formFaults d = [] := by
      rw [h] at hfaults
      exact (List.append_eq_nil_iff.1 hfaults.nil_eq.symm).1
    exact (if_pos (List.isEmpty_iff.2 h)).trans (hvalue ρ hρ hids hform)

/-- A definition without references to follow. -/
theorem CompileReport.of_check {d : Definition} {a : Arena} (checked : Checked (Option Body))
    (hcompile : scope.compile depth d = Pass.unlessFaulty (Pass.check checked))
    (hopen : d.openReferences = []) (hfaults : checked.faults = scope.formFaults d)
    (hvalue : ∀ ρ : Reference → TypeId, (∀ name, ρ (.named name) = scope.declared.idxOf name) →
      scope.formFaults d = [] → checked.value = d.linked ρ) :
    scope.CompileReport depth d a := by
  refine .of_pass hcompile ?_ ?_ fun ρ hρ _ hform => hvalue ρ hρ hform
  · rw [hopen]
    rfl
  · rw [Pass.check_apply, hopen, resolveAll_nil, ← hfaults]
    exact .of_eq (List.append_nil _).symm

/-- A definition with one reference to follow and nothing else to check. -/
theorem CompileReport.of_reference {d : Definition} {a : Arena} {r : Reference}
    (content : TypeId → Body)
    (hcompile : scope.compile depth d = Pass.unlessFaulty do
      let id ← scope.resolve depth r
      return id.map content)
    (hopen : d.openReferences = [r]) (hform : scope.formFaults d = [])
    (hlinked : ∀ ρ, some (content (ρ r)) = d.linked ρ) : scope.CompileReport depth d a := by
  refine .of_pass hcompile ?_ ?_ fun ρ _ hids _ => ?_
  · rw [hopen, resolveAll_singleton]
    rfl
  · rw [hopen, resolveAll_singleton, hform]
    exact .of_eq (List.append_nil _)
  · rw [hopen, resolveAll_singleton, List.map_cons, List.cons.injEq] at hids
    rw [Pass.bind_apply, hids.1, ← hlinked ρ]
    rfl

variable (scope depth)

/-- **What compiling one definition does.** -/
theorem compile_report (d : Definition) (a : Arena) : scope.CompileReport depth d a := by
  have hscalar : ∀ (f : Definition) (b : Body),
      scope.compile depth f = pure (some b) → f.openReferences = [] → scope.formFaults f = [] →
        (∀ ρ, f.linked ρ = some b) → scope.CompileReport depth f a :=
    fun f b hcompile hopen hform hlinked =>
      .of_check ⟨some b, []⟩ hcompile hopen hform.symm fun ρ _ _ => (hlinked ρ).symm
  cases d with
  | bool => exact hscalar _ .bool (by rw [compile]) rfl rfl fun _ => rfl
  | string => exact hscalar _ .string (by rw [compile]) rfl rfl fun _ => rfl
  | bytes => exact hscalar _ .bytes (by rw [compile]) rfl rfl fun _ => rfl
  | int => exact hscalar _ .int (by rw [compile]) rfl rfl fun _ => rfl
  | float => exact hscalar _ .float (by rw [compile]) rfl rfl fun _ => rfl
  | link target =>
    cases target with
    | none => exact hscalar _ (.link none) (by rw [compile]) rfl rfl fun _ => rfl
    | some target =>
      exact .of_reference (fun id => .link (some id)) (by rw [compile]) rfl rfl fun _ => rfl
  | map key value valueNullable representation =>
    refine .of_pass (by rw [compile]) ?_ ?_ fun ρ hρ hids hform => ?_
    · simp only [Definition.openReferences, resolveAll_singleton, Pass.bind_apply,
        Pass.pure_apply, Pass.check_apply, Pass.report_apply]
    · simp only [Definition.openReferences, resolveAll_singleton, Pass.bind_apply,
        Pass.pure_apply, Pass.check_apply, Pass.report_apply, Checked.after, Checked.ok,
        List.append_nil, formFaults, List.append_assoc]
      exact (List.perm_append_comm).append_left _
    · simp only [Definition.openReferences, resolveAll_singleton, List.map_cons, List.map_nil,
        List.cons.injEq, and_true] at hids
      obtain ⟨hkey, -⟩ := List.append_eq_nil_iff.1 hform
      have hvalue : (scope.mapKey key).value = some (ρ key) := by
        obtain ⟨hnamed, hdeclared⟩ := scope.mapKey_faults_eq_nil_iff.1 hkey
        cases key with
        | named name =>
          rw [mapKey, scope.resolveName_of_mem (hdeclared name rfl), hρ]
          rfl
        | inline e => exact absurd rfl (hnamed e)
      simp only [Pass.bind_apply, Pass.pure_apply, Pass.check_apply, Pass.report_apply,
        Checked.after, Checked.ok, hids, hvalue]
      rfl
  | list value valueNullable =>
    exact .of_reference (fun id => .list id valueNullable) (by rw [compile]) rfl rfl fun _ => rfl
  | struct fields representation =>
    obtain ⟨harena, hfaults, hvalue⟩ := scope.resolveFields_eq depth fields a
    refine .of_pass (by rw [compile]) ?_ ?_ fun ρ hρ hids _ => ?_
    · simp only [Definition.openReferences, Pass.bind_apply, Pass.pure_apply, Pass.report_apply,
        harena]
    · simp only [Definition.openReferences, Pass.bind_apply, Pass.pure_apply, Pass.report_apply,
        Checked.after, Checked.ok, List.append_nil, formFaults, List.append_assoc, hfaults]
      exact (List.perm_append_comm).append_left _
    · simp only [Pass.bind_apply, Pass.pure_apply, Pass.report_apply, Checked.after, Checked.ok,
        hvalue ρ hids]
      rfl
  | union members representation =>
    exact .of_check ((scope.union members representation).map some) (by rw [compile]) rfl rfl
      fun ρ hρ hform => scope.value_union hform hρ
  | enum members representation =>
    exact .of_check ((enumeration members representation).map some) (by rw [compile]) rfl rfl
      fun ρ _ _ => rfl
  | copy source =>
    exact .of_check ⟨none, [.unsupportedKind (Definition.copy source).keyword]⟩
      (by rw [compile]; rfl) rfl rfl fun ρ _ h => by cases h

end Scope
end WireSchema
