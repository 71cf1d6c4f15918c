import WireSchema.Proofs.Resolution.Passes

/-!
# One list for all errors

A pass returns the faults it found, and whoever called it puts them behind its own.  A compile
can as well be run with one list, to which every step adds what it finds.  Then a step has to
tell its own errors from those that were there: a definition has a content if the list is as
long behind it as it was before, and what is kept in a slot is what has been added since.

`Recorded.compile` is the compile of a definition that is run in this way.  It does what the
pass does, whatever the list holds at the beginning (`Recorded.compile_frames`): the list
before is a frame, which is neither looked into nor changed.
-/

namespace WireSchema

/-- The fault of an error, if it is one. -/
def CompileError.fault? : CompileError → Option Fault
  | .charged _ fault => some fault
  | .duplicateName _ => none

theorem filterMap_fault?_charged (owner : TypeName) (faults : List Fault) :
    (faults.map (CompileError.charged owner)).filterMap CompileError.fault? = faults := by
  induction faults with
  | nil => rfl
  | cons fault rest ih =>
    have hfault : CompileError.fault? (.charged owner fault) = some fault := rfl
    rw [List.map_cons, List.filterMap_cons_some hfault, ih]

namespace Recorded

/-! ## Steps -/

/-- An arena, and everything that has been recorded so far. -/
structure Session where
  arena : Arena
  errors : List CompileError

/-- A step of a compile that adds to what has been recorded. -/
def Step (α : Type) : Type :=
  Session → α × Session

namespace Step

variable {α β : Type}

instance : Monad Step where
  pure x := fun s => (x, s)
  bind p f := fun s =>
    let (x, s) := p s
    f x s

/-- A step that only records faults of one declared type. -/
def record (owner : TypeName) (faults : List Fault) : Step Unit := fun s =>
  ((), { s with errors := s.errors ++ faults.map (.charged owner) })

/-- The result of a check that does not look at the arena. -/
def absorb (owner : TypeName) (checked : Checked α) : Step α := do
  record owner checked.faults
  return checked.value

/-- All or nothing: the value only if nothing has been recorded on the way. -/
def unlessRecorded (p : Step (Option α)) : Step (Option α) := fun s =>
  let before := s.errors.length
  let (x, s) := p s
  (if before < s.errors.length then none else x, s)

/-- A step with the faults that it has recorded. -/
def capturing (p : Step α) : Step (Checked α) := fun s =>
  let before := s.errors.length
  let (x, s) := p s
  (⟨x, (s.errors.drop before).filterMap CompileError.fault?⟩, s)

/-- Whether a step does what a pass does, and leaves alone what had been recorded. -/
def Frames (owner : TypeName) (p : Step α) (q : Pass α) : Prop :=
  ∀ a errors, p ⟨a, errors⟩ =
    ((q a).1.value, ⟨(q a).2, errors ++ (q a).1.faults.map (.charged owner)⟩)

namespace Frames

variable {owner : TypeName} {p : Step α} {q : Pass α}

protected theorem pure (x : α) : Frames owner (pure x) (pure x) := by
  intro a errors
  rw [Pass.pure_apply, Checked.ok, List.map_nil, List.append_nil]
  rfl

protected theorem bind {f : α → Step β} {g : α → Pass β} (h : Frames owner p q)
    (hf : ∀ x, Frames owner (f x) (g x)) : Frames owner (p >>= f) (q >>= g) := by
  intro a errors
  show f (p ⟨a, errors⟩).1 (p ⟨a, errors⟩).2 = _
  rw [h a errors, hf, List.append_assoc, ← List.map_append]
  rfl

protected theorem record (faults : List Fault) :
    Frames owner (record owner faults) (Pass.report faults) :=
  fun _ _ => rfl

protected theorem absorb (checked : Checked α) :
    Frames owner (absorb owner checked) (Pass.check checked) :=
  fun _ _ => rfl

/-- The list has grown exactly if the pass has found something. -/
theorem length_lt_iff (h : Frames owner p q) (a : Arena) (errors : List CompileError) :
    errors.length < (p ⟨a, errors⟩).2.errors.length ↔ (q a).1.faults ≠ [] := by
  rw [h a errors, List.length_append, List.length_map, ← List.length_pos_iff]
  omega

protected theorem unlessRecorded {p : Step (Option α)} {q : Pass (Option α)}
    (h : Frames owner p q) : Frames owner (unlessRecorded p) (Pass.unlessFaulty q) := by
  intro a errors
  have hgrown := h.length_lt_iff a errors
  simp only [unlessRecorded, Pass.unlessFaulty]
  by_cases hfaults : (q a).1.faults = []
  · rw [if_neg fun hlt => hgrown.1 hlt hfaults, if_pos (List.isEmpty_iff.2 hfaults), h a errors]
  · rw [if_pos (hgrown.2 hfaults), if_neg fun hempty => hfaults (List.isEmpty_iff.1 hempty),
      h a errors]

/-- What has been added since is what the pass has found. -/
theorem capturing_eq (h : Frames owner p q) (a : Arena) (errors : List CompileError) :
    capturing p ⟨a, errors⟩ =
      ((q a).1, ⟨(q a).2, errors ++ (q a).1.faults.map (.charged owner)⟩) := by
  simp only [capturing, h a errors, List.drop_left, filterMap_fault?_charged]

/-- Steps one after the other. -/
protected theorem forM {ι : Type} {f : ι → Step Unit} {g : ι → Pass Unit} {is : List ι}
    (h : ∀ i ∈ is, Frames owner (f i) (g i)) : Frames owner (is.forM f) (is.forM g) := by
  induction is with
  | nil => exact Frames.pure ()
  | cons i is ih =>
    exact (h i (List.mem_cons_self ..)).bind fun _ =>
      ih fun j hj => h j (List.mem_cons_of_mem _ hj)

end Frames
end Step

open Step (Frames)

/-! ## Compiling -/

/-- A further owner for a definition in place and for those it refers to. -/
def share (owner : TypeName) : (fuel : Nat) → TypeId → Step Unit
  | 0, _ => pure ()
  | fuel + 1, id => fun s =>
    match s.arena.slot? id with
    | none => ((), s)
    | some slot =>
      if slot.anonymous = false ∨ owner ∈ slot.owners then ((), s)
      else
        let children := (slot.body.map Body.references).getD []
        let replay : Step Unit := do
          Step.record owner slot.faults
          children.forM (share owner fuel)
        replay ⟨s.arena.modify id fun s => { s with owners := s.owners ++ [owner] }, s.errors⟩

/-- The slot of a definition in place. -/
def place (scope : Scope) (depth : Nat) (definition : Definition) (compile : Step (Option Body)) :
    Step (Option TypeId) := fun s =>
  let digest := scope.digest definition.canonical.text
  match s.arena.state? digest with
  | some (.finished id) =>
    let shared : Step (Option TypeId) := do
      share scope.owner s.arena.slots.length id
      return some id
    shared s
  | some .inProgress =>
    Step.absorb scope.owner ⟨none, [.unsupportedForm (.containsItself definition.keyword)]⟩ s
  | none =>
    if scope.settings.maxInlineDepth ≤ depth then
      Step.absorb scope.owner ⟨none, [.unsupportedForm (.tooDeep scope.settings.maxInlineDepth)]⟩ s
    else
      let id := s.arena.slots.length
      let (checked, s) := compile.capturing ⟨s.arena.reserve scope.owner digest, s.errors⟩
      let name := s.arena.freeName definition.keyword checked.value digest
      (some id, ⟨s.arena.fill id digest name checked.value checked.faults, s.errors⟩)

mutual

/-- The type that a reference refers to. -/
def resolve (scope : Scope) (depth : Nat) : Reference → Step (Option TypeId)
  | .named name => Step.absorb scope.owner (scope.resolveName name)
  | .inline definition => place scope depth definition (compile scope (depth + 1) definition)

/-- The content of a definition; none if anything has been recorded for it. -/
def compile (scope : Scope) (depth : Nat) : Definition → Step (Option Body)
  | .bool => pure (some .bool)
  | .string => pure (some .string)
  | .bytes => pure (some .bytes)
  | .int => pure (some .int)
  | .float => pure (some .float)
  | .link none => pure (some (.link none))
  | .link (some target) => Step.unlessRecorded do
      let id ← resolve scope depth target
      return id.map fun id => .link (some id)
  | .map key value valueNullable representation => Step.unlessRecorded do
      let key ← Step.absorb scope.owner (scope.mapKey key)
      let value ← resolve scope depth value
      Step.record scope.owner (representation.faults.map .invalidConfig)
      return do return .map (← key) (← value) valueNullable representation
  | .list value valueNullable => Step.unlessRecorded do
      let id ← resolve scope depth value
      return id.map fun id => .list id valueNullable
  | .struct fields representation => Step.unlessRecorded do
      Step.record scope.owner ((fieldNameFaults [] (fields.map Field.name)).map .invalidConfig)
      let compiled ← resolveFields scope depth fields
      Step.record scope.owner ((representation.faults fields).map .invalidConfig)
      return compiled.map fun compiled => .struct compiled (representation.layout fields)
  | .union members representation =>
      Step.unlessRecorded (Step.absorb scope.owner ((scope.union members representation).map some))
  | .enum members representation =>
      Step.unlessRecorded
        (Step.absorb scope.owner ((Scope.enumeration members representation).map some))
  | .copy source =>
      Step.absorb scope.owner ⟨none, [.unsupportedKind (Definition.copy source).keyword]⟩

/-- The compiled fields of a struct. -/
def resolveFields (scope : Scope) (depth : Nat) : List Field → Step (Option (List StructField))
  | [] => pure (some [])
  | .mk name type optional nullable :: rest => do
      let id ← resolve scope depth type
      let rest ← resolveFields scope depth rest
      return do return ⟨name, ← id, optional, nullable⟩ :: (← rest)

end

/-! ## The frame -/

theorem share_frames (owner : TypeName) (fuel : Nat) (id : TypeId) :
    Frames owner (share owner fuel id) (WireSchema.share owner fuel id) := by
  induction fuel generalizing id with
  | zero => exact Frames.pure ()
  | succ fuel ih =>
    intro a errors
    simp only [share, WireSchema.share]
    cases hslot : a.slot? id with
    | none => exact Frames.pure () a errors
    | some slot =>
      by_cases howned : slot.anonymous = false ∨ owner ∈ slot.owners
      · simp only [if_pos howned]
        exact Frames.pure () a errors
      · simp only [if_neg howned]
        exact (Frames.record slot.faults).bind (fun _ => Frames.forM fun i _ => ih i) _ errors

theorem place_frames (scope : Scope) (depth : Nat) (d : Definition) {p : Step (Option Body)}
    {q : Pass (Option Body)} (h : Frames scope.owner p q) :
    Frames scope.owner (place scope depth d p) (scope.place depth d q) := by
  intro a errors
  simp only [place, Scope.place]
  cases hstate : a.state? (scope.digest d.canonical.text) with
  | none =>
    by_cases hdeep : scope.settings.maxInlineDepth ≤ depth
    · simp only [if_pos hdeep]
      exact Frames.absorb _ a errors
    · simp only [if_neg hdeep, h.capturing_eq]
      rfl
  | some state =>
    cases state with
    | inProgress => exact Frames.absorb _ a errors
    | finished id =>
      have hshare := (share_frames scope.owner a.slots.length id).bind fun _ =>
        Frames.pure (some id)
      refine (hshare a errors).trans ?_
      simp only [Pass.bind_apply, Pass.pure_apply, Checked.map, Checked.after, Checked.ok,
        List.append_nil]

mutual

theorem resolve_frames (scope : Scope) (depth : Nat) :
    ∀ r : Reference, Frames scope.owner (resolve scope depth r) (scope.resolve depth r)
  | .named name => by
    rw [resolve, Scope.resolve]
    exact Frames.absorb _
  | .inline d => by
    rw [resolve, Scope.resolve]
    exact place_frames scope depth d (compile_frames scope (depth + 1) d)

/-- **What has been recorded before is a frame.**  A compile that adds to one list does what the
pass does: it has the same value, leaves the same arena, and adds what the pass has found. -/
theorem compile_frames (scope : Scope) (depth : Nat) :
    ∀ d : Definition, Frames scope.owner (compile scope depth d) (scope.compile depth d)
  | .bool | .string | .bytes | .int | .float | .link none => by
    rw [compile, Scope.compile]
    exact Frames.pure _
  | .link (some target) => by
    rw [compile, Scope.compile]
    exact ((resolve_frames scope depth target).bind fun _ => Frames.pure _).unlessRecorded
  | .map key value valueNullable representation => by
    rw [compile, Scope.compile]
    refine Frames.unlessRecorded ((Frames.absorb _).bind fun _ => ?_)
    refine (resolve_frames scope depth value).bind fun _ => ?_
    exact (Frames.record _).bind fun _ => Frames.pure _
  | .list value valueNullable => by
    rw [compile, Scope.compile]
    exact ((resolve_frames scope depth value).bind fun _ => Frames.pure _).unlessRecorded
  | .struct fields representation => by
    rw [compile, Scope.compile]
    refine Frames.unlessRecorded ((Frames.record _).bind fun _ => ?_)
    refine (resolveFields_frames scope depth fields).bind fun _ => ?_
    exact (Frames.record _).bind fun _ => Frames.pure _
  | .union members representation => by
    rw [compile, Scope.compile]
    exact (Frames.absorb _).unlessRecorded
  | .enum members representation => by
    rw [compile, Scope.compile]
    exact (Frames.absorb _).unlessRecorded
  | .copy source => by
    rw [compile, Scope.compile]
    exact Frames.absorb _

theorem resolveFields_frames (scope : Scope) (depth : Nat) :
    ∀ fields : List Field,
      Frames scope.owner (resolveFields scope depth fields) (scope.resolveFields depth fields)
  | [] => by
    rw [resolveFields, Scope.resolveFields]
    exact Frames.pure _
  | .mk name type optional nullable :: rest => by
    rw [resolveFields, Scope.resolveFields]
    refine (resolve_frames scope depth type).bind fun _ => ?_
    exact (resolveFields_frames scope depth rest).bind fun _ => Frames.pure _

end

end Recorded
end WireSchema
