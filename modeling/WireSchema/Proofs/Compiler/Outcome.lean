import WireSchema.Proofs.Compiler.Declarations

/-!
# Outcomes of a compile

A compile succeeds when no error was recorded and every slot has been filled
(`Compiler.compile_eq_ok_iff`), and what it returns are the slots.  Otherwise it returns
all the errors that were recorded (`Compiler.compile_eq_rejected_iff`).

The declarations that count have different names.  Where no name is declared twice they
are all declarations, in their order (`Schema.accepted_of_nodup`).
-/

namespace WireSchema

/-! ## The declarations that count -/

namespace Schema

theorem firstDeclarations_of_nodup {ds : List (TypeName × Definition)} {before : List TypeName}
    (hnodup : (ds.map Prod.fst).Nodup) (hnew : ∀ e ∈ ds, e.1 ∉ before) :
    firstDeclarations before ds = ds := by
  induction ds generalizing before with
  | nil => rfl
  | cons e rest ih =>
    obtain ⟨name, d⟩ := e
    rw [List.map_cons, List.nodup_cons] at hnodup
    rw [firstDeclarations, if_neg (hnew _ (List.mem_cons_self ..)), ih hnodup.2]
    intro e he hmem
    rcases List.mem_cons.1 hmem with heq | hmem
    · have hname : e.1 ∈ rest.map Prod.fst := List.mem_map_of_mem he
      rw [heq] at hname
      exact hnodup.1 hname
    · exact hnew e (List.mem_cons_of_mem _ he) hmem

theorem mem_firstDeclarations {ds : List (TypeName × Definition)} {before : List TypeName}
    (e : TypeName × Definition) (he : e ∈ firstDeclarations before ds) :
    e ∈ ds ∧ e.1 ∉ before := by
  induction ds generalizing before with
  | nil => cases he
  | cons f rest ih =>
    obtain ⟨name, d⟩ := f
    rw [firstDeclarations] at he
    split at he
    · obtain ⟨hmem, hnew⟩ := ih he
      exact ⟨List.mem_cons_of_mem _ hmem, hnew⟩
    · next hname =>
      rcases List.mem_cons.1 he with rfl | he
      · exact ⟨List.mem_cons_self .., hname⟩
      · obtain ⟨hmem, hnew⟩ := ih he
        exact ⟨List.mem_cons_of_mem _ hmem, fun h => hnew (List.mem_cons_of_mem _ h)⟩

theorem nodup_firstDeclarations (ds : List (TypeName × Definition)) (before : List TypeName) :
    ((firstDeclarations before ds).map Prod.fst).Nodup := by
  induction ds generalizing before with
  | nil => exact List.nodup_nil
  | cons e rest ih =>
    obtain ⟨name, d⟩ := e
    rw [firstDeclarations]
    split
    · exact ih before
    · rw [List.map_cons, List.nodup_cons]
      refine ⟨fun h => ?_, ih _⟩
      obtain ⟨e, he, heq⟩ := List.mem_map.1 h
      exact (mem_firstDeclarations e he).2 (heq ▸ List.mem_cons_self ..)

variable {s : Schema}

theorem accepted_of_nodup (h : s.types.keys.Nodup) : s.accepted = s.types.toList :=
  firstDeclarations_of_nodup h fun _ _ => List.not_mem_nil

theorem nodup_accepted (s : Schema) : (s.accepted.map Prod.fst).Nodup :=
  nodup_firstDeclarations s.types.toList []

theorem inlines_subset_of_accepted : ∀ e ∈ s.accepted, e.2.inlines ⊆ s.inlines :=
  fun e he _ hd => mem_inlines.2 ⟨e, (mem_firstDeclarations e he).1, hd⟩

/-- No name is declared twice exactly if no such error is reported. -/
theorem duplicateErrors_eq_nil_iff : s.duplicateErrors = [] ↔ s.types.keys.Nodup := by
  rw [duplicateErrors, List.map_eq_nil_iff, repeats, repeatsAfter_eq_nil_iff]
  simp

end Schema

/-! ## Faults between types -/

/-- The name of the type in which a fault is found, if it is about two types that do not go
together. -/
def ConfigFault.holder? : ConfigFault → Option TypeName
  | .mapKeyKind map .. => some map
  | .memberKind union .. => some union
  | .memberHasDiscriminant union .. => some union
  | .memberNotMapStruct union .. => some union
  | .implicitKind _ struct .. => some struct
  | _ => none

namespace CrossType

variable {settings : Settings} {a : Arena} {name : TypeName} {fault : ConfigFault}

theorem holder?_of_mem_inlineFaults {discriminantKey : String} {member : TypeId}
    (h : fault ∈ inlineFaults a name discriminantKey member) : fault.holder? = some name := by
  rw [inlineFaults] at h
  split at h
  · cases h
  · split at h
    · cases List.mem_singleton.1 h
      rfl
    · cases h
  · cases List.mem_singleton.1 h
    rfl

theorem holder?_of_mem_implicitFaults {fields : List StructField} {field : FieldName}
    {details : FieldDetails} (h : fault ∈ implicitFaults a name fields field details) :
    fault.holder? = some name := by
  rw [implicitFaults] at h
  split at h
  · split at h
    · cases h
    · split at h
      · cases h
      · cases List.mem_singleton.1 h
        rfl
  · cases h

theorem holder?_of_mem_mapKeyFaults {key : TypeId} (h : fault ∈ mapKeyFaults a name key) :
    fault.holder? = some name := by
  rw [mapKeyFaults] at h
  split at h
  · cases h
  · split at h
    · cases h
    · cases List.mem_singleton.1 h
      rfl

theorem holder?_of_mem_kindedFaults {kind : Kind} {member : TypeId}
    (h : fault ∈ kindedFaults a name kind member) : fault.holder? = some name := by
  rw [kindedFaults] at h
  split at h
  · cases h
  · split at h
    · cases h
    · cases List.mem_singleton.1 h
      rfl

/-- The checks of a content find faults of its type, and nothing else. -/
theorem holder?_of_mem_bodyFaults {body : Body} (h : fault ∈ bodyFaults settings a name body) :
    fault.holder? = some name := by
  cases body with
  | map key value valueNullable layout =>
    rw [bodyFaults] at h
    split at h
    · exact holder?_of_mem_mapKeyFaults h
    · cases h
  | union members layout =>
    cases layout with
    | kinded table =>
      obtain ⟨e, -, h⟩ := List.mem_flatMap.1 h
      exact holder?_of_mem_kindedFaults h
    | inline discriminantKey table =>
      obtain ⟨e, -, h⟩ := List.mem_flatMap.1 h
      exact holder?_of_mem_inlineFaults h
    | _ => cases h
  | struct fields layout =>
    cases layout with
    | map details =>
      obtain ⟨e, -, h⟩ := List.mem_flatMap.1 h
      exact holder?_of_mem_implicitFaults h
    | _ => cases h
  | _ => cases h

end CrossType

namespace Compiler

/-! ## Assembling types -/

/-- The type of a slot with a content. -/
def typeOf (slot : Slot) : Option CompiledType :=
  slot.body.map fun body => ⟨slot.name, slot.anonymous, body⟩

/-- The types are those of the slots, in their order. -/
theorem assemble_eq_ok {slots : List Slot} {types : List CompiledType}
    (h : assemble slots = .ok types) : slots.map typeOf = types.map some := by
  induction slots generalizing types with
  | nil =>
    cases h
    rfl
  | cons slot rest ih =>
    rw [assemble] at h
    cases hbody : slot.body with
    | none =>
      rw [hbody] at h
      cases h
    | some body =>
      rw [hbody] at h
      cases hrest : assemble rest with
      | error name =>
        rw [hrest] at h
        cases h
      | ok types' =>
        rw [hrest] at h
        cases h
        rw [List.map_cons, List.map_cons, ih hrest, typeOf, hbody]
        rfl

variable (c : Compiler) (s : Schema)

/-! ## Success and failure -/

/-- **When a compile succeeds.** -/
theorem compile_eq_ok_iff {ts : TypeSystem} :
    c.compile s = .ok ts ↔
      c.errors s (c.declarationPass s) = [] ∧
        assemble (c.declarationPass s).2.slots = .ok ts.types ∧
          ts.fingerprint = s.fingerprint c.digest := by
  rw [compile]
  cases herrors : c.errors s (c.declarationPass s) with
  | cons e es => simp [CompileErrors.ofList?]
  | nil =>
    obtain ⟨types, fingerprint⟩ := ts
    cases hassemble : assemble (c.declarationPass s).2.slots with
    | error name => simp [CompileErrors.ofList?]
    | ok types' =>
      simp only [CompileErrors.ofList?, Except.ok.injEq, TypeSystem.mk.injEq, true_and]
      exact and_congr_right fun _ => eq_comm

/-- **When a compile is rejected.** -/
theorem compile_eq_rejected_iff {es : CompileErrors} :
    c.compile s = .error (.rejected es) ↔ c.errors s (c.declarationPass s) = es.toList := by
  rw [compile, ← CompileErrors.ofList?_eq_some_iff]
  cases herrors : CompileErrors.ofList? (c.errors s (c.declarationPass s)) with
  | some es' => simp
  | none =>
    cases assemble (c.declarationPass s).2.slots <;> simp

/-! ## The arena of a schema -/

/-- The names that count, in order. -/
abbrev declared (s : Schema) : List TypeName :=
  s.accepted.map Prod.fst

theorem declared_of_nodup {s : Schema} (h : s.types.keys.Nodup) : declared s = s.types.keys := by
  rw [declared, Schema.accepted_of_nodup h]
  rfl

/-- **The arena that the declaration pass leaves**: every slot holds what its definition
has, and every declaration has its content or faults. -/
theorem declarationPass_links :
    (c.declarationPass s).2.Valid c.digest (declared s) s.inlines ∧
      ∀ e ∈ s.accepted, c.Declares (declared s) (c.declarationPass s) e := by
  have hlinks := declarations_links (c := c) s.nodup_accepted s.accepted []
    (Arena.ofDeclared (declared s)) rfl Schema.inlines_subset_of_accepted
    (Arena.valid_ofDeclared c.digest (declared s) s.inlines)
  exact ⟨hlinks.1, hlinks.2.2.2⟩

theorem declarationPass_settled (k : String) :
    (c.declarationPass s).2.state? k ≠ some .inProgress :=
  declarations_settled s.accepted 0 (Arena.ofDeclared (declared s))
    (fun l hl => (by cases hl)) k

/-! ## Errors -/

variable {c s} in
/-- The errors of a rejected compile. -/
theorem exists_rejected_iff {e : CompileError} :
    (∃ es, c.compile s = .error (.rejected es) ∧ e ∈ es.toList) ↔
      e ∈ c.errors s (c.declarationPass s) := by
  constructor
  · rintro ⟨es, hcompile, hmem⟩
    rw [(c.compile_eq_rejected_iff s).1 hcompile]
    exact hmem
  · intro hmem
    cases herrors : c.errors s (c.declarationPass s) with
    | nil =>
      rw [herrors] at hmem
      cases hmem
    | cons first rest =>
      rw [herrors] at hmem
      exact ⟨⟨first, rest⟩, (c.compile_eq_rejected_iff s).2 herrors, hmem⟩

/-- What is found in a slot names its type, and is charged to its owners. -/
theorem exists_of_mem_slotErrors {settings : Settings} {a : Arena} {slot : Slot}
    {e : CompileError} (h : e ∈ CrossType.slotErrors settings a slot) :
    ∃ owner ∈ slot.owners, ∃ fault : ConfigFault,
      fault.holder? = some slot.name ∧ e = .charged owner (.invalidConfig fault) := by
  rw [CrossType.slotErrors] at h
  split at h
  · cases h
  · obtain ⟨fault, hfault, he⟩ := List.mem_flatMap.1 h
    obtain ⟨owner, howner, rfl⟩ := List.mem_map.1 he
    exact ⟨owner, howner, fault, CrossType.holder?_of_mem_bodyFaults hfault, rfl⟩

theorem exists_of_mem_crossErrors {settings : Settings} {a : Arena} {e : CompileError}
    (h : e ∈ CrossType.errors settings a) :
    ∃ slot ∈ a.slots, ∃ owner ∈ slot.owners, ∃ fault : ConfigFault,
      fault.holder? = some slot.name ∧ e = .charged owner (.invalidConfig fault) := by
  obtain ⟨slot, hslot, he⟩ := List.mem_flatMap.1 h
  exact ⟨slot, hslot, exists_of_mem_slotErrors he⟩

/-- All other faults are found in declarations. -/
theorem charged_mem_errors_iff {name : TypeName} {fault : Fault}
    (h : ∀ f : ConfigFault, fault = .invalidConfig f → f.holder? = none) :
    .charged name fault ∈ c.errors s (c.declarationPass s) ↔
      .charged name fault ∈ declarationErrors (c.declarationPass s).1 := by
  have hduplicate : .charged name fault ∉ s.duplicateErrors := by
    intro hmem
    obtain ⟨other, -, heq⟩ := List.mem_map.1 hmem
    cases heq
  have hcross : .charged name fault ∉ CrossType.errors c.settings (c.declarationPass s).2 := by
    intro hmem
    obtain ⟨slot, -, owner, -, f, hholder, heq⟩ := exists_of_mem_crossErrors hmem
    rw [h f (CompileError.charged.inj heq).2] at hholder
    cases hholder
  rw [errors, List.mem_append, List.mem_append, or_iff_right hduplicate, or_iff_left hcross]

theorem declarationErrors_eq_nil {results : List (TypeName × List Fault)}
    (h : declarationErrors results = []) : ∀ r ∈ results, r.2 = [] := by
  intro r hr
  rw [declarationErrors, List.flatMap_eq_nil_iff] at h
  exact List.map_eq_nil_iff.1 (h r hr)

variable {c s}

/-- What a successful compile says of the declaration pass. -/
theorem pass_of_compile {ts : TypeSystem} (h : c.compile s = .ok ts) :
    s.types.keys.Nodup ∧ (∀ r ∈ (c.declarationPass s).1, r.2 = []) ∧
      (c.declarationPass s).2.slots.map typeOf = ts.types.map some := by
  obtain ⟨herrors, hassemble, -⟩ := (c.compile_eq_ok_iff s).1 h
  rw [errors, List.append_eq_nil_iff, List.append_eq_nil_iff] at herrors
  exact ⟨Schema.duplicateErrors_eq_nil_iff.1 herrors.1.1, declarationErrors_eq_nil herrors.1.2,
    assemble_eq_ok hassemble⟩

/-- The type at a position is that of the slot. -/
theorem type_of_slot {ts : TypeSystem} (h : c.compile s = .ok ts) (id : TypeId) :
    ((c.declarationPass s).2.slot? id).bind typeOf = ts.types[id]? := by
  have hlists := congrArg (fun l => l[id]?) (pass_of_compile h).2.2
  simp only [List.getElem?_map] at hlists
  rw [Arena.slot?]
  cases hslot : (c.declarationPass s).2.slots[id]? with
  | none =>
    rw [hslot] at hlists
    cases htype : ts.types[id]? with
    | none => rfl
    | some t =>
      rw [htype] at hlists
      cases hlists
  | some slot =>
    rw [hslot] at hlists
    cases htype : ts.types[id]? with
    | none =>
      rw [htype] at hlists
      cases hlists
    | some t =>
      rw [htype] at hlists
      exact Option.some.inj hlists

end Compiler
end WireSchema
