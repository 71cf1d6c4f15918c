import WireSchema.Proofs.Resolution.Charges
import WireSchema.Proofs.Resolution.Places

/-!
# Walking through a definition

A compile comes to the places of a definition one after the other, and what happens at one
of them depends on those before it.  `Scope.WalkInvariant` lists what has to be shown of
single places to have an invariant of the places done so far and of the arena, together with
a statement on what is told at them; `Scope.WalkInvariant.compile` is the induction.  What is
told at the places is all that a compile reports besides the faults of the definition itself.

The first invariant is `Scope.Surveyed`: what an owner has has been met at a place of its
declaration, and everything in progress is around the place at hand.  So no definition in
place is ever found inside itself.
-/

namespace WireSchema

namespace Scope

variable (scope : Scope)

/-! ## The induction -/

/-- What is known of a compile of a definition, `depth` others deep and with some places done
before: the invariant holds behind it, and the report is that of the definition and of its
places. -/
def Walked (I : Nat → List Place → Arena → Prop)
    (Told : List Place → List Place → List Fault → Prop) (done : List Place) (depth : Nat)
    (d : Definition) (a : Arena) : Prop :=
  ∃ faults, (scope.compile depth d a).1.faults.Perm (scope.ownFaults d ++ faults) ∧
    I d.inlines.length (done ++ d.places depth) (scope.compile depth d a).2 ∧
      Told done (d.places depth) faults

/-- An invariant `I` of the places done so far and of the arena, for compiles of definitions
that are smaller than a given size, with what is `Told` at places when others have been done
before.  `Along` is what is known of all the places. -/
structure WalkInvariant (Along : List Place → Prop) (I : Nat → List Place → Arena → Prop)
    (Told : List Place → List Place → List Fault → Prop) : Prop where
  along : ∀ {ps qs}, Along (ps ++ qs) → Along ps
  nil : ∀ done, Told done [] []
  append : ∀ {done ps qs faults faults'}, Told done ps faults → Told (done ++ ps) qs faults' →
    Told done (ps ++ qs) (faults ++ faults')
  /-- A definition in place is met, of whose compile it is known. -/
  place : ∀ {size done depth d a}, Along (done ++ ⟨depth, d⟩ :: d.places (depth + 1)) →
    d.inlines.length < size → I size done a →
      (∀ b, I d.inlines.length (done ++ [⟨depth, d⟩]) b →
        scope.Walked I Told (done ++ [⟨depth, d⟩]) (depth + 1) d b) →
        I size (done ++ ⟨depth, d⟩ :: d.places (depth + 1)) (scope.resolve depth (.inline d) a).2 ∧
          Told done (⟨depth, d⟩ :: d.places (depth + 1))
            (scope.resolve depth (.inline d) a).1.faults

namespace WalkInvariant

variable {scope} {Along : List Place → Prop} {I : Nat → List Place → Arena → Prop}
  {Told : List Place → List Place → List Fault → Prop}

theorem resolveAll_of_compile (h : scope.WalkInvariant Along I Told) {size depth : Nat}
    (rs : List Reference)
    (hrs : ∀ f, .inline f ∈ rs → f.inlines.length < size ∧ ∀ done b,
      Along (done ++ f.places (depth + 1)) → I f.inlines.length done b →
        scope.Walked I Told done (depth + 1) f b)
    (done : List Place) (a : Arena)
    (halong : Along (done ++ rs.flatMap (Reference.places depth))) (hinvariant : I size done a) :
    ∃ faults, (scope.resolveAll depth rs a).1.faults.Perm
        (rs.flatMap scope.referenceFaults ++ faults) ∧
      I size (done ++ rs.flatMap (Reference.places depth)) (scope.resolveAll depth rs a).2 ∧
        Told done (rs.flatMap (Reference.places depth)) faults := by
  induction rs generalizing done a with
  | nil =>
    refine ⟨[], .refl [], ?_, h.nil done⟩
    rw [List.flatMap_nil, List.append_nil]
    exact hinvariant
  | cons r rs ih =>
    have hrest := ih fun f hf => hrs f (List.mem_cons_of_mem _ hf)
    rw [resolveAll_cons]
    rw [List.flatMap_cons] at halong ⊢
    cases r with
    | named name =>
      simp only [Reference.places, List.nil_append] at halong ⊢
      rw [resolve_named]
      obtain ⟨faults, hperm, hend, htold⟩ := hrest done a halong hinvariant
      refine ⟨faults, ?_, hend, htold⟩
      rw [List.append_assoc]
      exact hperm.append_left _
    | inline d =>
      obtain ⟨hlt, hcompile⟩ := hrs d (List.mem_cons_self ..)
      simp only [Reference.places] at halong ⊢
      rw [← List.append_assoc] at halong
      have hplaces := h.along halong
      have hsplit : done ++ ⟨depth, d⟩ :: d.places (depth + 1) =
          (done ++ [⟨depth, d⟩]) ++ d.places (depth + 1) := by
        rw [List.append_assoc, List.singleton_append]
      obtain ⟨hinvariant', htold⟩ := h.place hplaces hlt hinvariant fun b hb =>
        hcompile _ b (hsplit ▸ hplaces) hb
      obtain ⟨faults, hperm, hend, htold'⟩ := hrest _ _ halong hinvariant'
      refine ⟨_, ?_, List.append_assoc .. ▸ hend, h.append htold htold'⟩
      refine (hperm.append_left _).trans ?_
      rw [referenceFaults, List.nil_append, ← List.append_assoc, ← List.append_assoc]
      exact List.perm_append_comm.append_right _

/-- **Induction along a walk.** -/
theorem compile (h : scope.WalkInvariant Along I Told) (done : List Place) (depth : Nat)
    (d : Definition) (a : Arena) (halong : Along (done ++ d.places depth))
    (hinvariant : I d.inlines.length done a) : scope.Walked I Told done depth d a := by
  induction d using Definition.reference_induction generalizing done depth a with
  | step d ih =>
    obtain ⟨harena, hfaults, -, -⟩ := scope.compile_report depth d a
    rw [Definition.places_eq_flatMap] at halong
    obtain ⟨faults, hperm, hend, htold⟩ := h.resolveAll_of_compile d.openReferences
      (fun f hf => by
        have hmem : .inline f ∈ d.references := Definition.mem_references.2 (Or.inr hf)
        exact ⟨Definition.length_inlines_lt hmem, fun done b => ih f hmem done (depth + 1) b⟩)
      done a halong hinvariant
    refine ⟨faults, ?_, ?_, ?_⟩
    · rw [ownFaults, List.append_assoc]
      exact hfaults.trans (hperm.append_left _)
    · rw [harena, Definition.places_eq_flatMap]
      exact hend
    · rw [Definition.places_eq_flatMap]
      exact htold

theorem resolve (h : scope.WalkInvariant Along I Told) {size : Nat} {done : List Place}
    {depth : Nat} {d : Definition} {a : Arena}
    (halong : Along (done ++ ⟨depth, d⟩ :: d.places (depth + 1)))
    (hsize : d.inlines.length < size) (hinvariant : I size done a) :
    I size (done ++ ⟨depth, d⟩ :: d.places (depth + 1)) (scope.resolve depth (.inline d) a).2 ∧
      Told done (⟨depth, d⟩ :: d.places (depth + 1))
        (scope.resolve depth (.inline d) a).1.faults := by
  refine h.place halong hsize hinvariant fun b hb => h.compile _ _ d b ?_ hb
  rw [List.append_assoc, List.singleton_append]
  exact halong

end WalkInvariant

/-! ## What has been met -/

/-- Whether places are those of definitions that may be met. -/
def Within (within : List Definition) (ps : List Place) : Prop :=
  ∀ p ∈ ps, p.definition :: p.definition.inlines ⊆ within

/-- The places of a definition are those of definitions inside it. -/
theorem within_places {within : List Definition} {d : Definition} (h : d.inlines ⊆ within)
    (depth : Nat) : Within within (d.places depth) := by
  intro p hp e he
  have hmem := Definition.definition_mem_inlines hp
  rcases List.mem_cons.1 he with rfl | he
  · exact h hmem
  · exact h (Definition.inlines_subset hmem he)

/-- What is known of an arena when definitions smaller than a size are met: everything in
progress is around them and as large as that. -/
structure Enclosed (within : List Definition) (size : Nat) (a : Arena) : Prop where
  valid : a.Valid scope.digest scope.declared within
  enclosing : ∀ e ∈ within, a.state? (scope.key e) = some .inProgress → size ≤ e.inlines.length

/-- What is known of an arena in the middle of a walk: what the owner has stands at one of the
places done. -/
structure Surveyed (within : List Definition) (size : Nat) (done : List Place) (a : Arena) : Prop
    extends scope.Enclosed within size a where
  known : ∀ e ∈ within, ∀ id slot, a.state? (scope.key e) = some (.finished id) →
    a.slot? id = some slot → scope.owner ∈ slot.owners → e.canonical.text ∈ done.map Place.text

variable {scope} {within : List Definition} {size : Nat} {done : List Place} {depth : Nat}
  {d : Definition} {a : Arena}

/-- The slot of a definition is reserved before it is compiled. -/
theorem Enclosed.reserve (hseparates : Separates scope.digest within)
    (h : scope.Enclosed within size a) (hd : d ∈ within) (hsize : d.inlines.length ≤ size)
    (hstate : a.state? (scope.key d) = none) :
    scope.Enclosed within d.inlines.length (a.reserve scope.owner (scope.key d)) where
  valid := h.valid.reserve hstate scope.owner
  enclosing e he hprogress := by
    rw [Arena.state?_reserve] at hprogress
    split at hprogress
    · next hkey => rw [Definition.length_inlines_congr (hseparates e he d hd hkey)]
    · exact Nat.le_trans hsize (h.enclosing e he hprogress)

/-- A reference leaves nothing new in progress. -/
theorem Enclosed.resolve (h : scope.Enclosed within size a) (depth : Nat) {r : Reference}
    (hr : r.inlines ⊆ within) : scope.Enclosed within size (scope.resolve depth r a).2 where
  valid := (scope.valid_runRelation within).resolve depth r a hr h.valid
  enclosing e he hprogress :=
    h.enclosing e he ((scope.grows_resolve depth r a).inProgress hprogress)

theorem Surveyed.reserve (hseparates : Separates scope.digest within)
    (h : scope.Surveyed within size done a) (hd : d ∈ within) (hsize : d.inlines.length ≤ size)
    (hstate : a.state? (scope.key d) = none) (ps : List Place) :
    scope.Surveyed within d.inlines.length (done ++ ps)
      (a.reserve scope.owner (scope.key d)) where
  toEnclosed := h.toEnclosed.reserve hseparates hd hsize hstate
  known e he id slot hid hslot howner := by
    obtain ⟨hid', hslot'⟩ := h.valid.finished_of_reserve hid hslot
    rw [List.map_append]
    exact List.mem_append_left _ (h.known e he id slot hid' hslot' howner)

/-- Sharing the type of a definition stays in the region of what stands in it. -/
theorem Surveyed.sharesWithin (hseparates : Separates scope.digest within)
    (h : scope.Surveyed within size done a) (hd : d :: d.inlines ⊆ within) {id : TypeId}
    (hid : a.state? (scope.key d) = some (.finished id)) :
    Arena.SharesWithin scope.owner (a.Region scope.digest scope.declared (d :: d.placed)) a
      (share scope.owner a.slots.length id a).1.faults
      (share scope.owner a.slots.length id a).2 := by
  refine Arena.sharesWithin scope.owner _ id a (Or.inr ⟨d, List.mem_cons_self .., hid⟩)
    (h.valid.under_region hseparates (fun e he => hd (d.cons_placed_subset he))
      fun e he f hf => ?_)
  exact Definition.placed_subset_cons he
    (List.mem_cons_of_mem _ (Definition.mem_placed.2 ⟨f, hf, List.mem_cons_self ..⟩))

theorem surveyed_walk (hseparates : Separates scope.digest within) :
    scope.WalkInvariant (Within within) (scope.Surveyed within) fun _ _ _ => True where
  along h p hp := h p (List.mem_append_left _ hp)
  nil _ := trivial
  append _ _ := trivial
  place {size done depth d a} hwithin hsize h ih := by
    refine ⟨?_, trivial⟩
    have hd : d :: d.inlines ⊆ within :=
      hwithin ⟨depth, d⟩ (List.mem_append_right _ (List.mem_cons_self ..))
    have hmem : d ∈ within := hd (List.mem_cons_self ..)
    have htexts : ∀ e ∈ d :: d.placed, e.canonical.text ∈
        (done ++ ⟨depth, d⟩ :: d.places (depth + 1)).map Place.text := by
      intro e he
      rw [← Definition.definitions_places_inline depth, Reference.places] at he
      obtain ⟨p, hp, rfl⟩ := List.mem_map.1 he
      exact List.mem_map_of_mem (f := Place.text) (List.mem_append_right done hp)
    have hdone : ∀ text ∈ done.map Place.text,
        text ∈ (done ++ ⟨depth, d⟩ :: d.places (depth + 1)).map Place.text := by
      intro text htext
      rw [List.map_append]
      exact List.mem_append_left _ htext
    have henclosed := h.toEnclosed.resolve depth (r := .inline d) (by rwa [Reference.inlines])
    have hplaced := scope.resolve_placed depth d a
    generalize scope.resolve depth (.inline d) a = result at henclosed hplaced ⊢
    refine ⟨henclosed, fun e he id t hid ht howner => ?_⟩
    cases hplaced with
    | shared i hstate =>
      have hshares := h.sharesWithin hseparates hd hstate
      obtain ⟨s, hs, -, htold⟩ := hshares.slots id t ht
      rw [state?_share] at hid
      rcases htold howner with howner | ⟨hregion, -⟩
      · exact hdone _ (h.known e he id s hid hs howner)
      · rcases hregion with hlt | ⟨f, hf, hstate'⟩
        · exact absurd (h.valid.declared_le hid) (Nat.not_le.2 hlt)
        · have hkey : scope.key e = scope.key f := h.valid.eq_of_finished hstate' hid
          rw [hseparates e he f (hd (d.cons_placed_subset hf)) hkey]
          exact htexts f hf
    | inside hstate =>
      exact absurd (h.enclosing d hmem hstate) (Nat.not_le.2 hsize)
    | tooDeep hstate hdeep => exact hdone _ (h.known e he id t hid ht howner)
    | new name hstate hshallow =>
      obtain ⟨-, -, hend, -⟩ := ih _
        (h.reserve hseparates hmem (Nat.le_of_lt hsize) hstate [⟨depth, d⟩])
      have hgrows' := scope.grows_compile (depth + 1) d (a.reserve scope.owner (scope.key d))
      have hposition := (h.valid.position_of_reserved hstate hgrows').2
      rw [Arena.state?_fill] at hid
      rw [Arena.slot?_fill] at ht
      by_cases hkey : scope.key e = scope.key d
      · rw [hseparates e he d hmem hkey]
        exact htexts d (List.mem_cons_self ..)
      · rw [if_neg hkey] at hid
        rw [if_neg (hend.valid.ne_of_finished hposition hid hkey)] at ht
        have hknown := hend.known e he id t hid ht howner
        rw [List.append_assoc, List.singleton_append] at hknown
        exact hknown

end Scope
end WireSchema
