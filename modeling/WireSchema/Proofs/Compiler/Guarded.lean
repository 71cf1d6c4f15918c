import WireSchema.Proofs.Compiler.Rounds
import WireSchema.Proofs.Resolution.Guarded

/-!
# Nothing gets in the way of a compile

`Guarded.compileSchema` is the compile of a schema with every way out closed: it breaks off at a
position without a slot, where a definition is met inside itself, where sharing or the search for
a name would not come to an end, and with a type that has no content although nothing was wrong.
None of this happens (`Compiler.compile_guarded`), so a compile returns a type system or the
errors of the schema.

That no type is left without content needs that a missing content always goes with a fault that
has been reported, also where a definition is compiled around one that had failed before:
sharing a failed one tells of its faults again.
-/

namespace WireSchema

theorem mapM_eq_some {α β : Type} {f : α → Option β} {g : α → β} {xs : List α}
    (h : ∀ x ∈ xs, f x = some (g x)) : xs.mapM f = some (xs.map g) := by
  induction xs with
  | nil => rfl
  | cons x xs ih =>
    rw [List.mapM_cons, h x (List.mem_cons_self ..), ih fun y hy => h y (List.mem_cons_of_mem _ hy)]
    rfl

namespace Guarded

/-! ## Between types -/

/-- What is wrong between a type and the types it refers to, all of which need to have a slot. -/
def bodyFaults (settings : Settings) (a : Arena) (name : TypeName) :
    Body → Option (List ConfigFault)
  | .map key _ _ _ =>
      if settings.strictMapKeys then having a [key] (CrossType.mapKeyFaults a name key)
      else some []
  | .union _ (.kinded table) => do
      let faults ← table.toList.mapM fun e =>
        having a [e.2] (CrossType.kindedFaults a name e.1 e.2)
      return faults.flatten
  | .union _ (.inline discriminantKey table) => do
      let faults ← table.toList.mapM fun e =>
        having a [e.2] (CrossType.inlineFaults a name discriminantKey e.2)
      return faults.flatten
  | .struct fields (.map details) => do
      let faults ← details.toList.mapM fun e =>
        having a ((fields.find? fun f => f.name = e.1).map StructField.type).toList
          (CrossType.implicitFaults a name fields e.1 e.2)
      return faults.flatten
  | _ => some []

/-- What is wrong between the type of a slot and the types it refers to. -/
def slotErrors (settings : Settings) (a : Arena) (slot : Slot) : Option (List CompileError) :=
  match slot.body with
  | none => some []
  | some body => do
    let faults ← bodyFaults settings a slot.name body
    return faults.flatMap fun fault =>
      slot.owners.map fun owner => .charged owner (.invalidConfig fault)

/-- Everything that is wrong between two types of an arena. -/
def crossErrors (settings : Settings) (a : Arena) : Option (List CompileError) := do
  let errors ← a.slots.mapM (slotErrors settings a)
  return errors.flatten

theorem mapM_having {α β : Type} {a : Arena} {ids : α → List TypeId} {f : α → List β}
    {xs : List α} (h : ∀ x ∈ xs, ∀ id ∈ ids x, id < a.slots.length) :
    (do
      let ys ← xs.mapM fun x => having a (ids x) (f x)
      return ys.flatten : Option (List β)) = some (xs.flatMap f) := by
  rw [mapM_eq_some fun x hx => having_eq (h x hx) (f x), List.flatMap_def]
  rfl

/-- The checks of a content look at its positions only. -/
theorem bodyFaults_eq (settings : Settings) {a : Arena} (name : TypeName) {b : Body}
    (h : ∀ id ∈ b.positions, id < a.slots.length) :
    bodyFaults settings a name b = some (CrossType.bodyFaults settings a name b) := by
  cases b with
  | map key value _ _ =>
    rw [bodyFaults, CrossType.bodyFaults]
    split
    · refine having_eq (fun id hid => h id ?_) _
      rw [List.mem_singleton.1 hid]
      exact List.mem_cons_self ..
    · rfl
  | union members layout =>
    have hlayout : ∀ id ∈ layout.positions, id < a.slots.length :=
      fun id hid => h id (List.mem_append_right _ hid)
    cases layout with
    | kinded table =>
      refine mapM_having fun e he id hid => hlayout id ?_
      rw [List.mem_singleton.1 hid]
      exact List.mem_map_of_mem he
    | inline discriminantKey table =>
      refine mapM_having fun e he id hid => hlayout id ?_
      rw [List.mem_singleton.1 hid]
      exact List.mem_map_of_mem he
    | _ => rfl
  | struct fields layout =>
    cases layout with
    | map details =>
      refine mapM_having fun e _ id hid => h id ?_
      obtain ⟨f, hf, rfl⟩ := Option.map_eq_some_iff.1 (Option.mem_toList.1 hid)
      exact List.mem_map_of_mem (List.mem_of_find?_eq_some hf)
    | _ => rfl
  | _ => rfl

theorem crossErrors_eq (settings : Settings) {a : Arena}
    (h : ∀ slot ∈ a.slots, ∀ b, slot.body = some b → ∀ id ∈ b.positions, id < a.slots.length) :
    crossErrors settings a = some (CrossType.errors settings a) := by
  have hslot : ∀ slot ∈ a.slots,
      slotErrors settings a slot = some (CrossType.slotErrors settings a slot) := by
    intro slot hslot
    cases hbody : slot.body with
    | none => simp only [slotErrors, CrossType.slotErrors, hbody]
    | some b =>
      simp only [slotErrors, CrossType.slotErrors, hbody,
        bodyFaults_eq settings slot.name (h slot hslot b hbody)]
      rfl
  rw [crossErrors, mapM_eq_some hslot, CrossType.errors, List.flatMap_def]
  rfl

/-! ## Schemas -/

/-- Declarations compiled into their slots, from the slot at `id` on. -/
def declarations (c : Compiler) (declared : List TypeName) :
    (id : TypeId) → List (TypeName × Definition) → Arena →
      Option (List (TypeName × List Fault) × Arena)
  | _, [], a => some ([], a)
  | id, (name, definition) :: rest, a => do
    let (checked, a) ← compile (c.scope declared name) 0 definition a
    let a ← having a [id] (a.modify id fun s => { s with body := checked.value })
    let (others, a) ← declarations c declared (id + 1) rest a
    return ((name, checked.faults) :: others, a)

/-- The type system of a schema or its errors, unless the compile breaks off. -/
def compileSchema (c : Compiler) (s : Schema) : Option (Except CompileErrors TypeSystem) := do
  let names := s.accepted.map Prod.fst
  let (results, a) ← declarations c names 0 s.accepted (Arena.ofDeclared names)
  let crossErrors ← crossErrors c.settings a
  match CompileErrors.ofList?
      (s.duplicateErrors ++ Compiler.declarationErrors results ++ crossErrors) with
  | some errors => return .error errors
  | none =>
    match Compiler.assemble a.slots with
    | .error _ => none
    | .ok types => return .ok ⟨types, s.fingerprint c.digest⟩

variable {c : Compiler} {declared : List TypeName} {within : List Definition}

theorem declarations_eq (hseparates : Separates c.digest within)
    {ds : List (TypeName × Definition)} (hinlines : ∀ e ∈ ds, e.2.inlines ⊆ within)
    (hnodup : (ds.map Prod.fst).Nodup) (id : Nat) (hlength : id + ds.length ≤ declared.length)
    {a : Arena} (h : c.Between declared within ds a) :
    declarations c declared id ds a = some (c.declarations declared id ds a) := by
  induction ds generalizing id a with
  | nil => rfl
  | cons e rest ih =>
    obtain ⟨name, d⟩ := e
    rw [List.length_cons] at hlength
    have hid : id < declared.length := by omega
    have hwithin := hinlines _ (List.mem_cons_self ..)
    have hcompiled : compile (c.scope declared name) 0 d a =
        some ((c.scope declared name).compile 0 d a) :=
      compile_eq hseparates (List.ne_nil_of_length_pos (Nat.zero_lt_of_lt hid)) 0 hwithin
        (h.surveyed _).toEnclosed
    have hvalid := (c.scope declared name).valid_compile 0 hwithin h.valid
    have hslot : ∀ i ∈ [id], i < ((c.scope declared name).compile 0 d a).2.slots.length := by
      intro i hi
      rw [List.mem_singleton.1 hi, hvalid.length]
      exact Nat.lt_of_lt_of_le hid (Nat.le_add_right _ _)
    have hrest := ih (fun e he => hinlines e (List.mem_cons_of_mem _ he))
      (List.nodup_cons.1 hnodup).2 (id + 1) (by omega)
      (h.next hnodup hwithin hid ((c.scope declared name).compile 0 d a).1.value)
    simp only [declarations, hcompiled, Option.bind_eq_bind, Option.bind_some, having_eq hslot,
      hrest]
    rw [Compiler.declarations_cons]
    rfl

end Guarded

namespace Compiler

variable {c : Compiler} {s : Schema}

/-! ## Slots and their contents -/

/-- Every slot is that of a declaration, or of a definition in place that is finished. -/
theorem slot_cases {id : Nat} {slot : Slot}
    (hslot : (c.declarationPass s).2.slot? id = some slot) :
    (∃ e ∈ s.accepted, (declared s).idxOf e.1 = id) ∨
      ∃ k, (c.declarationPass s).2.state? k = some (.finished id) := by
  obtain ⟨hvalid, -⟩ := c.declarationPass_links s
  by_cases hlt : id < (declared s).length
  · have hid : id < s.accepted.length := by rwa [declared, List.length_map] at hlt
    refine Or.inl ⟨s.accepted[id], List.getElem_mem hid, ?_⟩
    have hname : s.accepted[id].1 = (declared s)[id] := (List.getElem_map _).symm
    rw [hname, s.nodup_accepted.idxOf_getElem]
  · obtain ⟨k, hk, rfl⟩ := hvalid.exists_met (Nat.not_lt.1 hlt) (Arena.lt_length_of_slot? hslot)
    refine Or.inr ⟨k, ?_⟩
    cases hstate : (c.declarationPass s).2.state? k with
    | none => exact absurd hstate ((hvalid.known k).1 hk)
    | some state =>
      cases state with
      | inProgress => exact absurd hstate (c.declarationPass_settled s k)
      | finished i => rw [hvalid.finished k i hstate]

/-- An anonymous slot is that of a definition in place. -/
theorem finished_of_anonymous {id : Nat} {slot : Slot}
    (hslot : (c.declarationPass s).2.slot? id = some slot) (hanonymous : slot.anonymous = true) :
    ∃ k, (c.declarationPass s).2.state? k = some (.finished id) := by
  refine (slot_cases hslot).resolve_left ?_
  rintro ⟨e, he, rfl⟩
  have hlt : (declared s).idxOf e.1 < (declared s).length :=
    List.idxOf_lt_length_of_mem (List.mem_map_of_mem he)
  have hle := ((c.declarationPass_links s).1.anonymous_iff hslot).1 hanonymous
  exact absurd hlt (Nat.not_lt.2 hle)

/-- Every content is that of some definition. -/
theorem exists_links {slot : Slot} (hslot : slot ∈ (c.declarationPass s).2.slots) {b : Body}
    (hb : slot.body = some b) :
    ∃ d, (c.declarationPass s).2.Links c.digest (declared s) d b := by
  obtain ⟨hvalid, hdeclares⟩ := c.declarationPass_links s
  obtain ⟨id, hid⟩ := List.getElem?_of_mem hslot
  rcases slot_cases hid with ⟨e, he, rfl⟩ | ⟨k, hk⟩
  · obtain ⟨faults, slot', -, hslot', hcontent⟩ := hdeclares e he
    obtain rfl := Option.some.inj (hid.symm.trans hslot')
    rcases hcontent with ⟨-, hnone⟩ | ⟨-, b', hb', hlinks⟩
    · rw [hb] at hnone
      cases hnone
    · obtain rfl := Option.some.inj (hb.symm.trans hb')
      exact ⟨e.2, hlinks⟩
  · obtain ⟨d, -, slot', -, hslot', hholds⟩ := hvalid.holds k id hk
    obtain rfl := Option.some.inj (hid.symm.trans hslot')
    exact ⟨d, (hholds.sound b hb).2⟩

/-- Without errors every type has its content. -/
theorem body_ne_none (herrors : c.errors s (c.declarationPass s) = []) :
    ∀ slot ∈ (c.declarationPass s).2.slots, slot.body ≠ none := by
  rw [errors, List.append_eq_nil_iff, List.append_eq_nil_iff] at herrors
  have hfaults := declarationErrors_eq_nil herrors.1.2
  have hdeclared : declared s = [] ++ s.accepted.map Prod.fst := rfl
  have hcomplete := declarations_complete (c := c) hdeclared Schema.inlines_subset_of_accepted
    (Arena.valid_ofDeclared c.digest (declared s) s.inlines)
    (Arena.complete_ofDeclared (declared s)) hfaults
  intro slot hslot
  obtain ⟨id, hid⟩ := List.getElem?_of_mem hslot
  rcases slot_cases hid with ⟨e, he, rfl⟩ | ⟨k, hk⟩
  · obtain ⟨faults, slot', hmem, hslot', hcontent⟩ := (c.declarationPass_links s).2 e he
    obtain rfl := Option.some.inj (hid.symm.trans hslot')
    rcases hcontent with ⟨hne, -⟩ | ⟨-, b, hb, -⟩
    · exact absurd (hfaults _ hmem) hne
    · rw [hb]
      exact Option.some_ne_none b
  · exact hcomplete k id slot hk hid

theorem exists_assemble {slots : List Slot} (h : ∀ slot ∈ slots, slot.body ≠ none) :
    ∃ types, assemble slots = .ok types := by
  induction slots with
  | nil => exact ⟨[], rfl⟩
  | cons slot rest ih =>
    obtain ⟨b, hb⟩ := Option.ne_none_iff_exists'.1 (h slot (List.mem_cons_self ..))
    obtain ⟨types, htypes⟩ := ih fun t ht => h t (List.mem_cons_of_mem _ ht)
    refine ⟨⟨slot.name, slot.anonymous, b⟩ :: types, ?_⟩
    rw [assemble, hb, htypes]
    rfl

/-! ## Definitions inside themselves -/

/-- No declaration is charged with a definition that contains itself. -/
theorem uncircular_of_mem (hseparates : Separates c.digest s.inlines) :
    ∀ r ∈ (c.declarationPass s).1, Uncircular r.2 := by
  have hrounds := (declarationPass_rounds (c := c) (s := s)
    (I := fun _ a => a.Untangled (declared s)) (Q := fun _ faults => Uncircular faults)
    ?first ?agrees ?round).2
  case first =>
    intro id slot hle hslot
    have hlt := Arena.lt_length_of_slot? hslot
    rw [Arena.ofDeclared, List.length_map] at hlt
    exact absurd hlt (Nat.not_lt.2 hle)
  case agrees =>
    intro before a b hvalid hagrees h id slot hle hslot
    rw [hagrees.slots id hle] at hslot
    exact h id slot hle hslot
  case round =>
    intro before e rest a hsplit hbetween h
    have he : e ∈ s.accepted := hsplit ▸ List.mem_append_right _ (List.mem_cons_self ..)
    have hwithin := Scope.within_places (Schema.inlines_subset_of_accepted e he) 0
    obtain ⟨faults, hperm, ⟨-, hend⟩, htold⟩ :=
      (Scope.uncircular_walk hseparates).compile [] 0 e.2 a hwithin
        ⟨(hbetween.surveyed _).toEnclosed, h⟩
    refine ⟨hend, fun f hf => ?_⟩
    exact ((c.scope (declared s) e.1).intrinsic_ownFaults e.2).uncircular.append htold f
      (hperm.mem_iff.1 hf)
  generalize s.accepted = ds, (c.declarationPass s).1 = results at hrounds ⊢
  induction hrounds with
  | nil => exact fun _ hr => by cases hr
  | cons hfirst _ ih =>
    intro r hr
    rcases List.mem_cons.1 hr with rfl | hr
    · exact hfirst.2
    · exact ih r hr

/-! ## The theorem -/

/-- A compile of which every part is as it should be does not break off. -/
theorem compileSchema_eq (hseparates : Separates c.digest s.inlines) :
    ∃ outcome, Guarded.compileSchema c s = some outcome ∧
      c.compile s = outcome.mapError .rejected := by
  have hlength : 0 + s.accepted.length ≤ (declared s).length := by
    rw [Nat.zero_add, declared, List.length_map]
  have hpass : Guarded.declarations c (declared s) 0 s.accepted (Arena.ofDeclared (declared s)) =
      some (c.declarationPass s) :=
    Guarded.declarations_eq hseparates Schema.inlines_subset_of_accepted s.nodup_accepted 0 hlength
      (c.between_ofDeclared s)
  have hcross := Guarded.crossErrors_eq c.settings fun slot hslot b hb =>
    (exists_links hslot hb).choose_spec.positions_lt (c.declarationPass_links s).1.toWellFormed
  simp only [Guarded.compileSchema, hpass, Option.bind_eq_bind, Option.bind_some, hcross]
  rw [compile]
  cases herrors : c.errors s (c.declarationPass s) with
  | cons e es =>
    rw [errors] at herrors
    rw [herrors]
    exact ⟨_, rfl, rfl⟩
  | nil =>
    obtain ⟨types, htypes⟩ := exists_assemble (body_ne_none herrors)
    rw [errors] at herrors
    rw [herrors, htypes]
    exact ⟨_, rfl, rfl⟩

/-- **Nothing gets in the way of a compile.**  If digests tell the canonical texts of the
definitions in place of a schema apart, then

* the guarded compile does not break off, and a compile returns what it does: a type system, or
  errors,
* if there is no error, every type has a content,
* no error is that a definition contains itself. -/
theorem compile_guarded (hseparates : Separates c.digest s.inlines) :
    (∃ outcome, Guarded.compileSchema c s = some outcome ∧
        c.compile s = outcome.mapError .rejected) ∧
      (c.errors s (c.declarationPass s) = [] →
        ∀ slot ∈ (c.declarationPass s).2.slots, slot.body ≠ none) ∧
        ∀ owner keyword, .charged owner (.unsupportedForm (.containsItself keyword)) ∉
          c.errors s (c.declarationPass s) := by
  refine ⟨compileSchema_eq hseparates, body_ne_none, fun owner keyword hmem => ?_⟩
  rw [c.charged_mem_errors_iff s fun _ heq => by cases heq] at hmem
  obtain ⟨r, hr, hmem⟩ := List.mem_flatMap.1 hmem
  obtain ⟨f, hf, heq⟩ := List.mem_map.1 hmem
  obtain rfl := (CompileError.charged.inj heq).2
  exact uncircular_of_mem hseparates r hr _ hf trivial

/-- A definition in place around one that has failed before, for another declaration. -/
def aroundFaulty : Schema :=
  ⟨⟨[("A", .list (.inline (.copy "Q")) false),
    ("B", .list (.inline (.list (.inline (.copy "Q")) false)) false)]⟩⟩

theorem compile_guarded_aroundFaulty :
    Separates id aroundFaulty.inlines ∧
      (∃ es, Guarded.compileSchema ⟨.standard, id⟩ aroundFaulty = some (.error es) ∧
        compile ⟨.standard, id⟩ aroundFaulty = .error (.rejected es)) ∧
      ∀ owner keyword, .charged owner (.unsupportedForm (.containsItself keyword)) ∉
        errors ⟨.standard, id⟩ aroundFaulty (declarationPass ⟨.standard, id⟩ aroundFaulty) := by
  have hseparates : Separates id aroundFaulty.inlines := fun _ _ _ _ h => h
  have herrors : errors ⟨.standard, id⟩ aroundFaulty
      (declarationPass ⟨.standard, id⟩ aroundFaulty) ≠ [] := by decide +kernel
  obtain ⟨⟨outcome, hguarded, hcompile⟩, -, hcircular⟩ :=
    compile_guarded (c := ⟨.standard, id⟩) hseparates
  refine ⟨hseparates, ?_, hcircular⟩
  cases outcome with
  | error es => exact ⟨es, hguarded, hcompile⟩
  | ok ts => exact absurd ((compile_eq_ok_iff _ _).1 hcompile).1 herrors

end Compiler
end WireSchema
