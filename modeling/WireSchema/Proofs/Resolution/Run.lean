import WireSchema.Proofs.Arena.Growth
import WireSchema.Proofs.Resolution.Passes

/-!
# Runs of the resolver

When a definition in place is met, one of four things happens: its type is shared, it is
found inside itself, it is too deep, or it is compiled into a new slot.  `Scope.Placed`
lists them.

Everything else that a compile does is done reference by reference.  So a relation between
the arenas before and after holds of every compile if it holds of nothing happening, of one
thing after another, and of these four cases; `Scope.RunRelation` is the list of these
conditions, and `Scope.RunRelation.compile` the induction.  Its first use is that compiles
grow arenas.
-/

namespace WireSchema

/-! ## Placing a definition -/

namespace Scope

variable (scope : Scope) (depth : Nat)

/-- The digest by which a definition in place is known. -/
def key (d : Definition) : String :=
  scope.digest d.canonical.text

/-- What can happen when a definition in place is met. -/
inductive Placed (d : Definition) (a : Arena) : Checked (Option TypeId) × Arena → Prop
  /-- It has a type already, which is shared. -/
  | shared (id : TypeId) (state : a.state? (scope.key d) = some (.finished id)) :
      Placed d a (⟨some id, (share scope.owner a.slots.length id a).1.faults⟩,
        (share scope.owner a.slots.length id a).2)
  /-- It is being compiled. -/
  | inside (state : a.state? (scope.key d) = some .inProgress) :
      Placed d a (⟨none, [.unsupportedForm (.containsItself d.keyword)]⟩, a)
  /-- It is new and too deep. -/
  | tooDeep (state : a.state? (scope.key d) = none)
      (deep : scope.settings.maxInlineDepth ≤ depth) :
      Placed d a (⟨none, [.unsupportedForm (.tooDeep scope.settings.maxInlineDepth)]⟩, a)
  /-- It is new and compiled into a new slot. -/
  | new (name : TypeName) (state : a.state? (scope.key d) = none)
      (shallow : depth < scope.settings.maxInlineDepth) :
      Placed d a
        (⟨some a.slots.length,
            (scope.compile (depth + 1) d (a.reserve scope.owner (scope.key d))).1.faults⟩,
          (scope.compile (depth + 1) d (a.reserve scope.owner (scope.key d))).2.fill
            a.slots.length (scope.key d) name
            (scope.compile (depth + 1) d (a.reserve scope.owner (scope.key d))).1.value
            (scope.compile (depth + 1) d (a.reserve scope.owner (scope.key d))).1.faults)

theorem resolve_placed (d : Definition) (a : Arena) :
    scope.Placed depth d a (scope.resolve depth (.inline d) a) := by
  rw [resolve_inline]
  simp only [place]
  split
  · next id hstate => exact .shared id hstate
  · next hstate => exact .inside hstate
  · next hstate =>
    split
    · next hdeep => exact .tooDeep hstate hdeep
    · next hdeep => exact .new _ hstate (Nat.lt_of_not_le hdeep)

/-- Without something wrong with its form, a definition has no definition in place where a
name has to stand. -/
theorem closed_inlines_eq_nil {d : Definition} (h : scope.formFaults d = []) :
    d.closedReferences.flatMap Reference.inlines = [] := by
  obtain ⟨-, -, hinline, -⟩ := (scope.formFaults_eq_nil_iff d).1 h
  rw [List.flatMap_eq_nil_iff]
  intro r hr
  cases r with
  | named name => rw [Reference.inlines]
  | inline e => exact absurd hr (hinline e)

/-- A relation between two arenas, what has been met on the way from one to the other and
what was reported, that is preserved by everything a compile does. -/
structure RunRelation (R : List Definition → Arena → List Fault → Arena → Prop) : Prop where
  /-- Nothing happens, but for a report.  What has not been looked at is reported. -/
  idle : ∀ ds a faults, ds = [] ∨ faults ≠ [] → R ds a faults a
  /-- One thing happens after another. -/
  trans : ∀ {ds es a faults b faults' c}, R ds a faults b → R es b faults' c →
    R (ds ++ es) a (faults ++ faults') c
  /-- The order of the report does not matter. -/
  perm : ∀ {ds a faults faults' b}, faults.Perm faults' → R ds a faults b → R ds a faults' b
  /-- A definition in place is met, whose compile is known to satisfy the relation. -/
  place : ∀ depth d a,
    (∀ b, R d.inlines b (scope.compile (depth + 1) d b).1.faults
      (scope.compile (depth + 1) d b).2) →
    R (d :: d.inlines) a (scope.resolve depth (.inline d) a).1.faults
      (scope.resolve depth (.inline d) a).2

namespace RunRelation

variable {scope} {R : List Definition → Arena → List Fault → Arena → Prop}

theorem resolveAll_of_resolve (h : scope.RunRelation R) (rs : List Reference) (a : Arena)
    (hrs : ∀ r ∈ rs, ∀ b, R r.inlines b (scope.resolve depth r b).1.faults
      (scope.resolve depth r b).2) :
    R (rs.flatMap Reference.inlines) a (scope.resolveAll depth rs a).1.faults
      (scope.resolveAll depth rs a).2 := by
  induction rs generalizing a with
  | nil => exact h.idle [] a [] (Or.inl rfl)
  | cons r rs ih =>
    rw [resolveAll_cons, List.flatMap_cons]
    exact h.trans (hrs r (List.mem_cons_self ..) a)
      (ih _ fun r' hr' => hrs r' (List.mem_cons_of_mem _ hr'))

/-- **Induction along a compile.** -/
theorem compile (h : scope.RunRelation R) (d : Definition) (depth : Nat) (a : Arena) :
    R d.inlines a (scope.compile depth d a).1.faults (scope.compile depth d a).2 := by
  induction d using Definition.reference_induction generalizing depth a with
  | step d ih =>
    have hresolve : ∀ r ∈ d.openReferences, ∀ b,
        R r.inlines b (scope.resolve depth r b).1.faults (scope.resolve depth r b).2 := by
      intro r hr b
      cases r with
      | named name =>
        rw [resolve_named, Reference.inlines]
        exact h.idle [] b _ (Or.inl rfl)
      | inline e =>
        rw [Reference.inlines]
        exact h.place depth e b (ih e (Definition.mem_references.2 (Or.inr hr)) (depth + 1))
    have hform : R (d.closedReferences.flatMap Reference.inlines) a (scope.formFaults d) a := by
      refine h.idle _ a _ ?_
      by_cases hnil : scope.formFaults d = []
      · exact Or.inl (scope.closed_inlines_eq_nil hnil)
      · exact Or.inr hnil
    obtain ⟨harena, hfaults, -, -⟩ := scope.compile_report depth d a
    rw [harena, Definition.inlines_eq_flatMap, Definition.references_eq_append,
      List.flatMap_append]
    exact h.perm hfaults.symm
      (h.trans hform (h.resolveAll_of_resolve depth d.openReferences a hresolve))

theorem resolve (h : scope.RunRelation R) (r : Reference) (a : Arena) :
    R r.inlines a (scope.resolve depth r a).1.faults (scope.resolve depth r a).2 := by
  cases r with
  | named name =>
    rw [resolve_named, Reference.inlines]
    exact h.idle [] a _ (Or.inl rfl)
  | inline d =>
    rw [Reference.inlines]
    exact h.place depth d a fun b => h.compile d (depth + 1) b

theorem resolveAll (h : scope.RunRelation R) (rs : List Reference) (a : Arena) :
    R (rs.flatMap Reference.inlines) a (scope.resolveAll depth rs a).1.faults
      (scope.resolveAll depth rs a).2 :=
  h.resolveAll_of_resolve depth rs a fun r _ b => h.resolve depth r b

end RunRelation

/-! ## Compiles grow arenas -/

theorem grows_runRelation :
    scope.RunRelation fun _ a _ b => a.Grows scope.owner b where
  idle _ a _ _ := .refl scope.owner a
  trans h h' := h.trans h'
  perm _ h := h
  place depth d a h := by
    have hplaced := scope.resolve_placed depth d a
    generalize scope.resolve depth (.inline d) a = result at hplaced ⊢
    cases hplaced with
    | shared id hstate => exact grows_share scope.owner _ id a
    | inside hstate => exact .refl scope.owner a
    | tooDeep hstate hdeep => exact .refl scope.owner a
    | new name hstate hshallow => exact .fill hstate (h _) name _ _

/-- **A compile grows the arena.** -/
theorem grows_compile (d : Definition) (a : Arena) :
    a.Grows scope.owner (scope.compile depth d a).2 :=
  scope.grows_runRelation.compile d depth a

theorem grows_resolve (r : Reference) (a : Arena) :
    a.Grows scope.owner (scope.resolve depth r a).2 :=
  scope.grows_runRelation.resolve depth r a

theorem grows_resolveAll (rs : List Reference) (a : Arena) :
    a.Grows scope.owner (scope.resolveAll depth rs a).2 :=
  scope.grows_runRelation.resolveAll depth rs a

end Scope
end WireSchema
