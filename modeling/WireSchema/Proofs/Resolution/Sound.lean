import WireSchema.Proofs.Resolution.Charges

/-!
# Sound definitions raise no fault

A definition that has no local fault, nor contains one, compiles without faults, whatever
else has been compiled before and wherever it stands (`Scope.ready_compile`).  Three
things could go wrong:

* it could be charged with a fault of another definition.  Slots of sound definitions are
  clean, and what a sound definition refers to is sound;
* it could be met while it is being compiled.  Everything in progress is around the
  definition at hand, and so contains more than it does;
* it could be too deep.  The nesting of definitions in place is no deeper than allowed.

`Scope.Ready` is what an arena has to satisfy for this, and it is kept.
-/

namespace WireSchema

/-- Whether the slots of sound definitions are without faults. -/
def Arena.Clean (digest : String → String) (declared : List TypeName) (within : List Definition)
    (a : Arena) : Prop :=
  ∀ e ∈ within, ∀ id slot, ¬ e.Faulty declared →
    a.state? (digest e.canonical.text) = some (.finished id) → a.slot? id = some slot →
      slot.faults = []

namespace Scope

variable (scope : Scope) (within : List Definition)

/-- An arena in which definitions of a size may be compiled. -/
structure Ready (size : Nat) (a : Arena) : Prop where
  valid : a.Valid scope.digest scope.declared within
  clean : a.Clean scope.digest scope.declared within
  /-- What is in progress contains at least as much. -/
  enclosing : ∀ e ∈ within, a.state? (scope.key e) = some .inProgress → size ≤ e.inlines.length

variable {scope within}

/-- With the slot of a definition reserved, an arena is ready for the definitions that it
contains. -/
theorem Ready.reserve (hseparates : Separates scope.digest within) {size : Nat} {a : Arena}
    (h : scope.Ready within size a) {d : Definition} (hd : d ∈ within)
    (hsize : d.inlines.length ≤ size) (hstate : a.state? (scope.key d) = none) :
    scope.Ready within d.inlines.length (a.reserve scope.owner (scope.key d)) where
  valid := h.valid.reserve hstate scope.owner
  clean e he id slot hsound hid hslot := by
    obtain ⟨hid', hslot'⟩ := h.valid.finished_of_reserve hid hslot
    exact h.clean e he id slot hsound hid' hslot'
  enclosing e he hprogress := by
    rw [Arena.state?_reserve] at hprogress
    split at hprogress
    · next hkey =>
      rw [Definition.length_inlines_congr (hseparates e he d hd hkey)]
    · exact Nat.le_trans hsize (h.enclosing e he hprogress)

/-! ## One reference -/

/-- Sharing the type of a sound definition charges nothing. -/
theorem Ready.faults_of_shared (hseparates : Separates scope.digest within) {size : Nat}
    {a : Arena} (h : scope.Ready within size a) {d : Definition} (hd : d :: d.inlines ⊆ within)
    {id : TypeId} (hid : a.state? (scope.key d) = some (.finished id))
    (hsound : ¬ d.Faulty scope.declared) :
    (share scope.owner a.slots.length id a).1.faults = [] := by
  have hshares := h.valid.sharesWithin_region hseparates hd hid scope.owner a.slots.length
  rw [List.eq_nil_iff_forall_not_mem]
  intro f hf
  obtain ⟨i, s, hregion, hs, hanonymous, hmem⟩ := hshares.faults f hf
  have hle := (h.valid.anonymous_iff hs).1 hanonymous
  rcases hregion with hlt | ⟨e, he, hstate⟩
  · exact absurd hlt (Nat.not_lt.2 hle)
  · have hsound' : ¬ e.Faulty scope.declared := by
      rcases List.mem_cons.1 he with rfl | he
      · exact hsound
      · exact Definition.not_faulty_of_mem_inlines hsound he
    rw [h.clean e (hd he) i s hsound' hstate hs] at hmem
    cases hmem

variable (scope) in
/-- A definition in place that has room and is smaller than all in progress. -/
theorem resolve_of_sound (hseparates : Separates scope.digest within) {depth size : Nat}
    {d : Definition} (hd : d :: d.inlines ⊆ within) (hsize : d.inlines.length < size)
    (hdepth : depth < scope.settings.maxInlineDepth)
    (hcompile : ∀ b, scope.Ready within d.inlines.length b →
      scope.Ready within d.inlines.length (scope.compile (depth + 1) d b).2 ∧
        (¬ d.Faulty scope.declared → (scope.compile (depth + 1) d b).1.faults = []))
    {a : Arena} (h : scope.Ready within size a) :
    scope.Ready within size (scope.resolve depth (.inline d) a).2 ∧
      (¬ d.Faulty scope.declared → (scope.resolve depth (.inline d) a).1.faults = []) := by
  have hvalid := (scope.valid_runRelation within).resolve depth (.inline d) a
  have hgrows := scope.grows_resolve depth (.inline d) a
  have hplaced := scope.resolve_placed depth d a
  rw [Reference.inlines] at hvalid
  generalize scope.resolve depth (.inline d) a = result at hvalid hgrows hplaced ⊢
  have henclosing : ∀ e ∈ within, result.2.state? (scope.key e) = some .inProgress →
      size ≤ e.inlines.length := by
    intro e he hprogress
    exact h.enclosing e he (hgrows.inProgress hprogress)
  have hmem : d ∈ within := hd (List.mem_cons_self ..)
  cases hplaced with
  | shared id hstate =>
    refine ⟨⟨hvalid hd h.valid, fun e he i t hsound hi ht => ?_, henclosing⟩, fun hsound =>
      h.faults_of_shared hseparates hd hstate hsound⟩
    obtain ⟨hi', s, hs, hgains⟩ := h.valid.finished_of_share hi ht
    rw [hgains.faults]
    exact h.clean e he i s hsound hi' hs
  | inside hstate =>
    have hle := h.enclosing d hmem hstate
    omega
  | tooDeep hstate hdeep => omega
  | new name hstate hshallow =>
    have hreserved := h.reserve hseparates hmem (Nat.le_of_lt hsize) hstate
    obtain ⟨hready, hnone⟩ := hcompile _ hreserved
    have hgrows' := scope.grows_compile (depth + 1) d (a.reserve scope.owner (scope.key d))
    have hposition := (h.valid.position_of_reserved hstate hgrows').2
    refine ⟨⟨hvalid hd h.valid, fun e he i t hsound hi ht => ?_, henclosing⟩, hnone⟩
    rcases hready.valid.finished_of_fill hposition hi ht with ⟨hkey, -, hfilled⟩ | ⟨hi', ht'⟩
    · -- The slot is filled for one definition and clean for all with its canonical text.
      rw [hfilled]
      exact hnone (Definition.not_faulty_of_text (hseparates e he d hmem hkey) hsound)
    · exact hready.clean e he i t hsound hi' ht'

/-! ## Whole definitions -/

variable (scope) in
theorem resolveAll_of_sound (depth size : Nat) :
    ∀ (rs : List Reference),
      (∀ d, .inline d ∈ rs → ∀ a, scope.Ready within size a →
        scope.Ready within size (scope.resolve depth (.inline d) a).2 ∧
          (¬ d.Faulty scope.declared → (scope.resolve depth (.inline d) a).1.faults = [])) →
      ∀ a, scope.Ready within size a →
        scope.Ready within size (scope.resolveAll depth rs a).2 ∧
          ((∀ name, .named name ∈ rs → name ∈ scope.declared) →
            (∀ d, .inline d ∈ rs → ¬ d.Faulty scope.declared) →
              (scope.resolveAll depth rs a).1.faults = [])
  | [], _, _, h => ⟨h, fun _ _ => rfl⟩
  | r :: rs, hrs, a, h => by
    have hfirst : scope.Ready within size (scope.resolve depth r a).2 ∧
        ((∀ name, .named name = r → name ∈ scope.declared) →
          (∀ d, .inline d = r → ¬ d.Faulty scope.declared) →
            (scope.resolve depth r a).1.faults = []) := by
      cases r with
      | named name =>
        rw [resolve_named]
        exact ⟨h, fun hnames _ => scope.referenceFaults_named.2 (hnames name rfl)⟩
      | inline d =>
        obtain ⟨hready, hnone⟩ := hrs d (List.mem_cons_self ..) a h
        exact ⟨hready, fun _ hsound => hnone (hsound d rfl)⟩
    obtain ⟨hready, hnone⟩ := hfirst
    obtain ⟨hready', hnone'⟩ :=
      resolveAll_of_sound depth size rs (fun d hd => hrs d (List.mem_cons_of_mem _ hd)) _ hready
    rw [resolveAll_cons]
    refine ⟨hready', fun hnames hsound => ?_⟩
    have hhead := hnone (fun name hname => hnames name (hname ▸ List.mem_cons_self ..))
      (fun d hd => hsound d (hd ▸ List.mem_cons_self ..))
    have htail := hnone' (fun name hname => hnames name (List.mem_cons_of_mem _ hname))
      (fun d hd => hsound d (List.mem_cons_of_mem _ hd))
    exact List.append_eq_nil_iff.2 ⟨hhead, htail⟩

variable (scope) in
/-- Compiles keep arenas ready, and sound definitions raise no fault. -/
theorem ready_compile (hseparates : Separates scope.digest within) {d : Definition}
    (hd : d.inlines ⊆ within) (depth : Nat)
    (hdepth : depth + d.nesting ≤ scope.settings.maxInlineDepth) {a : Arena}
    (h : scope.Ready within d.inlines.length a) :
    scope.Ready within d.inlines.length (scope.compile depth d a).2 ∧
      (¬ d.Faulty scope.declared → (scope.compile depth d a).1.faults = []) := by
  induction d using Definition.reference_induction generalizing depth a with
  | step d ih =>
    obtain ⟨harena, hfaults, -, -⟩ := scope.compile_report depth d a
    have hreferences := scope.resolveAll_of_sound depth d.inlines.length d.openReferences
      (fun e he b hb => by
        have hmem : .inline e ∈ d.references := Definition.mem_references.2 (Or.inr he)
        have hsublist := Definition.sublist_inlines_of_mem_references hmem
        have hnesting := Definition.nesting_le he
        rw [Reference.nesting] at hnesting
        have hwithin : e :: e.inlines ⊆ within := fun f hf => hd (hsublist.subset hf)
        refine scope.resolve_of_sound hseparates hwithin (Definition.length_inlines_lt hmem)
          (by omega) (fun b' hb' => ?_) hb
        exact ih e hmem (fun f hf => hwithin (List.mem_cons_of_mem _ hf)) (depth + 1) (by omega)
          hb') a h
    rw [harena]
    refine ⟨hreferences.1, fun hsound => ?_⟩
    obtain ⟨hform, hnames⟩ :=
      List.append_eq_nil_iff.1 (scope.ownFaults_of_not_faulty hsound)
    have hnone := hreferences.2 (scope.flatMap_referenceFaults.1 hnames) fun e he =>
      Definition.not_faulty_of_mem_inlines hsound
        (Definition.mem_inlines_of_mem_references (Definition.mem_references.2 (Or.inr he)))
    rw [hform, hnone] at hfaults
    exact hfaults.eq_nil

end Scope
end WireSchema
