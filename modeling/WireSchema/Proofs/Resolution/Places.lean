import WireSchema.Proofs.Resolution.LocalFault

/-!
# Places

Not everything that is written inside a definition is looked at when it is compiled: where a
name has to stand, a definition in place is reported and passed over.  The other references
are the open ones, and a definition in place among them stands at a *place*, known by how
many definitions in place there are around it.

`Definition.places` lists the places in the order in which a compile comes to them, each
before those inside it.  It is along this list that statements are made about a compile that
depend on what has been met before, or on the depth.
-/

namespace WireSchema

/-- A definition in place, with the number of definitions in place that it is inside. -/
structure Place where
  depth : Nat
  definition : Definition

mutual

/-- The place that a reference is, and those inside it. -/
def Reference.places (depth : Nat) : Reference → List Place
  | .named _ => []
  | .inline d => ⟨depth, d⟩ :: d.places (depth + 1)

/-- The places inside a definition, each before those inside it. -/
def Definition.places (depth : Nat) : Definition → List Place
  | .link (some target) => target.places depth
  | .map _ value _ _ => value.places depth
  | .list value _ => value.places depth
  | .struct fields _ => fieldPlaces depth fields
  | _ => []

/-- The places in the types of fields. -/
def fieldPlaces (depth : Nat) : List Field → List Place
  | [] => []
  | .mk _ type _ _ :: rest => type.places depth ++ fieldPlaces depth rest

end

theorem fieldPlaces_eq_flatMap (depth : Nat) (fields : List Field) :
    fieldPlaces depth fields = (fields.map Field.type).flatMap (Reference.places depth) := by
  induction fields with
  | nil => rw [fieldPlaces, List.map_nil, List.flatMap_nil]
  | cons f rest ih =>
    obtain ⟨name, type, optional, nullable⟩ := f
    rw [fieldPlaces, ih, List.map_cons, List.flatMap_cons, Field.type]

namespace Definition

variable {d e : Definition} {depth : Nat} {p : Place}

theorem places_eq_flatMap (depth : Nat) (d : Definition) :
    d.places depth = d.openReferences.flatMap (Reference.places depth) := by
  cases d with
  | link target => cases target <;> simp [places, openReferences]
  | map key value _ _ => simp [places, openReferences]
  | list value _ => simp [places, openReferences]
  | struct fields _ => rw [places, openReferences, fieldPlaces_eq_flatMap]
  | _ => simp [places, openReferences]

/-- A place is that of an open reference, or inside one. -/
theorem mem_places :
    p ∈ d.places depth ↔ ∃ f, .inline f ∈ d.openReferences ∧
      p ∈ ⟨depth, f⟩ :: f.places (depth + 1) := by
  rw [places_eq_flatMap, List.mem_flatMap]
  constructor
  · rintro ⟨r, hr, hmem⟩
    cases r with
    | named name =>
      rw [Reference.places] at hmem
      cases hmem
    | inline f =>
      rw [Reference.places] at hmem
      exact ⟨f, hr, hmem⟩
  · rintro ⟨f, hf, hmem⟩
    refine ⟨.inline f, hf, ?_⟩
    rw [Reference.places]
    exact hmem

/-- What stands at a place is contained. -/
theorem definition_mem_inlines (h : p ∈ d.places depth) : p.definition ∈ d.inlines := by
  induction d using reference_induction generalizing depth p with
  | step d ih =>
    obtain ⟨f, hf, hmem⟩ := mem_places.1 h
    have href : .inline f ∈ d.references := mem_references.2 (Or.inr hf)
    rcases List.mem_cons.1 hmem with rfl | hmem
    · exact mem_inlines_of_mem_references href
    · exact (sublist_inlines_of_mem_references href).subset
        (List.mem_cons_of_mem _ (ih f href hmem))

/-- What is inside a place is smaller than what the place is inside. -/
theorem length_inlines_lt_of_mem_places (h : p ∈ d.places depth) :
    p.definition.inlines.length < d.inlines.length := by
  induction d using reference_induction generalizing depth p with
  | step d ih =>
    obtain ⟨f, hf, hmem⟩ := mem_places.1 h
    have href : .inline f ∈ d.references := mem_references.2 (Or.inr hf)
    have hlt := length_inlines_lt href
    rcases List.mem_cons.1 hmem with rfl | hmem
    · exact hlt
    · exact Nat.lt_trans (ih f href hmem) hlt

/-- What is inside a place of a definition is a place of the definition. -/
theorem places_subset (h : p ∈ d.places depth) :
    p.definition.places (p.depth + 1) ⊆ d.places depth := by
  induction d using reference_induction generalizing depth p with
  | step d ih =>
    obtain ⟨f, hf, hmem⟩ := mem_places.1 h
    intro q hq
    refine mem_places.2 ⟨f, hf, List.mem_cons_of_mem _ ?_⟩
    rcases List.mem_cons.1 hmem with rfl | hmem
    · exact hq
    · exact ih f (mem_references.2 (Or.inr hf)) hmem hq

/-! ## Nesting -/

theorem exists_inline_of_nesting {r : Reference} (h : r.nesting ≠ 0) :
    ∃ f, r = .inline f ∧ r.nesting = f.nesting + 1 := by
  cases r with
  | named name =>
    rw [Reference.nesting] at h
    exact absurd rfl h
  | inline f => exact ⟨f, rfl, by rw [Reference.nesting]⟩

theorem exists_inline_of_fieldNesting {fields : List Field} (h : fieldNesting fields ≠ 0) :
    ∃ f, .inline f ∈ fields.map Field.type ∧ fieldNesting fields = f.nesting + 1 := by
  induction fields with
  | nil =>
    rw [fieldNesting] at h
    exact absurd rfl h
  | cons field rest ih =>
    obtain ⟨name, type, optional, nullable⟩ := field
    rw [fieldNesting] at h ⊢
    rcases Nat.le_total type.nesting (fieldNesting rest) with hle | hle
    · rw [Nat.max_eq_right hle] at h ⊢
      obtain ⟨f, hf, heq⟩ := ih h
      exact ⟨f, List.mem_cons_of_mem _ hf, heq⟩
    · rw [Nat.max_eq_left hle] at h ⊢
      obtain ⟨f, rfl, heq⟩ := exists_inline_of_nesting h
      exact ⟨f, List.mem_cons_self .., heq⟩

/-- The nesting of a definition is that of a definition in place among its references, and
one more. -/
theorem exists_nesting_eq (h : d.nesting ≠ 0) :
    ∃ f, .inline f ∈ d.openReferences ∧ d.nesting = f.nesting + 1 := by
  cases d with
  | link target =>
    cases target with
    | none => exact absurd (by simp [nesting]) h
    | some target =>
      rw [nesting] at h ⊢
      obtain ⟨f, rfl, hf⟩ := exists_inline_of_nesting h
      exact ⟨f, List.mem_singleton_self _, hf⟩
  | map key value _ _ =>
    rw [nesting] at h ⊢
    obtain ⟨f, rfl, hf⟩ := exists_inline_of_nesting h
    exact ⟨f, List.mem_singleton_self _, hf⟩
  | list value _ =>
    rw [nesting] at h ⊢
    obtain ⟨f, rfl, hf⟩ := exists_inline_of_nesting h
    exact ⟨f, List.mem_singleton_self _, hf⟩
  | struct fields _ =>
    rw [nesting] at h ⊢
    exact exists_inline_of_fieldNesting h
  | _ => exact absurd (by simp [nesting]) h

/-- No place reaches deeper than the definition nests. -/
theorem reach_le (h : p ∈ d.places depth) :
    p.depth + 1 + p.definition.nesting ≤ depth + d.nesting := by
  induction d using reference_induction generalizing depth p with
  | step d ih =>
    obtain ⟨f, hf, hmem⟩ := mem_places.1 h
    have hle := nesting_le hf
    rw [Reference.nesting] at hle
    rcases List.mem_cons.1 hmem with rfl | hmem
    · show depth + 1 + f.nesting ≤ depth + d.nesting
      omega
    · have hinside := ih f (mem_references.2 (Or.inr hf)) hmem
      omega

/-- **A definition nests beyond a limit exactly if a place in it reaches beyond.** -/
theorem exists_reach_iff {limit : Nat} (hdepth : depth ≤ limit) :
    (∃ p ∈ d.places depth, limit < p.depth + 1 + p.definition.nesting) ↔
      limit < depth + d.nesting := by
  constructor
  · rintro ⟨p, hp, hlt⟩
    exact Nat.lt_of_lt_of_le hlt (reach_le hp)
  · intro hlt
    obtain ⟨f, hf, heq⟩ := exists_nesting_eq (d := d) (by omega)
    refine ⟨⟨depth, f⟩, mem_places.2 ⟨f, hf, List.mem_cons_self ..⟩, ?_⟩
    show limit < depth + 1 + f.nesting
    omega

/-! ## What stands at the places -/

/-- The definitions at the places of a definition, in order. -/
def placed (d : Definition) : List Definition :=
  (d.places 0).map Place.definition

/-- At which depth does not matter for what stands at the places. -/
theorem map_definition_places (depth : Nat) (d : Definition) :
    (d.places depth).map Place.definition = d.placed := by
  have hall : ∀ depth', (d.places depth).map Place.definition =
      (d.places depth').map Place.definition := by
    induction d using reference_induction generalizing depth with
    | step d ih =>
      intro depth'
      rw [places_eq_flatMap, places_eq_flatMap, List.map_flatMap, List.map_flatMap]
      refine List.flatMap_congr fun r hr => ?_
      cases r with
      | named name => rw [Reference.places, Reference.places]
      | inline f =>
        rw [Reference.places, Reference.places, List.map_cons, List.map_cons,
          ih f (mem_references.2 (Or.inr hr)) (depth + 1) (depth' + 1)]
  exact hall 0

theorem placed_eq_flatMap (d : Definition) :
    d.placed = d.openReferences.flatMap fun r => (r.places 0).map Place.definition := by
  rw [placed, places_eq_flatMap, List.map_flatMap]

theorem definitions_places_inline (depth : Nat) (d : Definition) :
    ((Reference.inline d).places depth).map Place.definition = d :: d.placed := by
  rw [Reference.places, List.map_cons, map_definition_places]

theorem mem_placed :
    e ∈ d.placed ↔ ∃ f, .inline f ∈ d.openReferences ∧ e ∈ f :: f.placed := by
  constructor
  · intro h
    obtain ⟨p, hp, rfl⟩ := List.mem_map.1 h
    obtain ⟨f, hf, hmem⟩ := mem_places.1 hp
    refine ⟨f, hf, ?_⟩
    rw [← definitions_places_inline 0 f]
    exact List.mem_map_of_mem hmem
  · rintro ⟨f, hf, hmem⟩
    rw [← definitions_places_inline 0 f] at hmem
    obtain ⟨p, hp, rfl⟩ := List.mem_map.1 hmem
    rw [Reference.places] at hp
    exact List.mem_map_of_mem (mem_places.2 ⟨f, hf, hp⟩)

theorem mem_inlines_of_mem_placed (h : e ∈ d.placed) : e ∈ d.inlines := by
  obtain ⟨p, hp, rfl⟩ := List.mem_map.1 h
  exact definition_mem_inlines hp

theorem length_inlines_lt_of_mem_placed (h : e ∈ d.placed) :
    e.inlines.length < d.inlines.length := by
  obtain ⟨p, hp, rfl⟩ := List.mem_map.1 h
  exact length_inlines_lt_of_mem_places hp

theorem placed_subset (h : e ∈ d.placed) : e.placed ⊆ d.placed := by
  obtain ⟨p, hp, rfl⟩ := List.mem_map.1 h
  intro f hf
  rw [← map_definition_places (p.depth + 1)] at hf
  obtain ⟨q, hq, rfl⟩ := List.mem_map.1 hf
  exact List.mem_map_of_mem (places_subset hp hq)

theorem placed_subset_cons (h : e ∈ d :: d.placed) : e :: e.placed ⊆ d :: d.placed := by
  refine List.cons_subset.2 ⟨h, fun f hf => List.mem_cons_of_mem _ ?_⟩
  rcases List.mem_cons.1 h with rfl | h
  · exact hf
  · exact placed_subset h hf

theorem cons_placed_subset (d : Definition) : d :: d.placed ⊆ d :: d.inlines :=
  List.cons_subset_cons d fun _ h => mem_inlines_of_mem_placed h

/-! ## Definitions with one canonical text -/

/-- Whether two definitions have one canonical text. -/
def Alike (d e : Definition) : Prop :=
  d.canonical.text = e.canonical.text

theorem placed_canonical (d : Definition) : d.canonical.placed = d.placed.map canonical := by
  induction d using reference_induction with
  | step d ih =>
    rw [placed_eq_flatMap, Scope.openReferences_canonical, List.flatMap_map, placed_eq_flatMap,
      List.map_flatMap]
    refine List.flatMap_congr fun r hr => ?_
    cases r with
    | named name => rw [Reference.canonical, Reference.places, List.map_nil, List.map_nil]
    | inline f =>
      rw [Reference.canonical, definitions_places_inline, definitions_places_inline,
        List.map_cons, ih f (mem_references.2 (Or.inr hr))]

theorem placed_asWritten (d : Definition) : d.asWritten.placed = d.placed.map asWritten := by
  induction d using reference_induction with
  | step d ih =>
    rw [placed_eq_flatMap, Scope.openReferences_asWritten, List.flatMap_map, placed_eq_flatMap,
      List.map_flatMap]
    refine List.flatMap_congr fun r hr => ?_
    cases r with
    | named name => rw [Reference.asWritten, Reference.places, List.map_nil, List.map_nil]
    | inline f =>
      rw [Reference.asWritten, definitions_places_inline, definitions_places_inline,
        List.map_cons, ih f (mem_references.2 (Or.inr hr))]

/-- **Definitions with one canonical text have places for definitions with one canonical
text each.** -/
theorem Alike.placed (h : d.Alike e) : List.Forall₂ Alike d.placed e.placed := by
  have hmap : d.placed.map (fun f => f.canonical.asWritten) =
      e.placed.map (fun f => f.canonical.asWritten) := by
    have hboth : ∀ f : Definition, f.placed.map (fun f => f.canonical.asWritten) =
        f.canonical.asWritten.placed := by
      intro f
      rw [placed_asWritten, placed_canonical, List.map_map]
      rfl
    rw [hboth, hboth, asWritten_eq_of_text_eq h]
  have hforall : List.Forall₂ (fun x y => x = y) (d.placed.map fun f => f.canonical.asWritten)
      (e.placed.map fun f => f.canonical.asWritten) := by
    rw [List.forall₂_eq_eq_eq]
    exact hmap
  rw [List.forall₂_map_left_iff, List.forall₂_map_right_iff] at hforall
  refine hforall.imp fun x y hxy => ?_
  have htext := congrArg text hxy
  rw [text_asWritten, text_asWritten] at htext
  exact htext

theorem exists_alike {ds es : List Definition} (h : List.Forall₂ Alike ds es) (hd : d ∈ ds) :
    ∃ g ∈ es, d.Alike g := by
  induction h with
  | nil => cases hd
  | cons hxy _ ih =>
    rcases List.mem_cons.1 hd with rfl | hd
    · exact ⟨_, List.mem_cons_self .., hxy⟩
    · obtain ⟨g, hg, hdg⟩ := ih hd
      exact ⟨g, List.mem_cons_of_mem _ hg, hdg⟩

/-- What stands in one of two definitions with one canonical text has its like in the
other. -/
theorem Alike.exists_mem_placed (h : d.Alike e) {f : Definition} (hf : f ∈ d.placed) :
    ∃ g ∈ e.placed, f.Alike g :=
  exists_alike h.placed hf

/-- Definitions with one canonical text have the same faults of their own. -/
theorem Alike.ownFaults (h : d.Alike e) (scope : Scope) :
    scope.ownFaults d = scope.ownFaults e := by
  have hown : ∀ f : Definition, scope.ownFaults f.canonical.asWritten = scope.ownFaults f :=
    fun f => (scope.ownFaults_asWritten _).trans (scope.ownFaults_canonical f)
  rw [← hown d, ← hown e, asWritten_eq_of_text_eq h]

/-- A definition is sound if it has no fault of its own and nothing at its places has. -/
theorem not_faulty_of_ownFaults (scope : Scope)
    (h : ∀ f ∈ d :: d.placed, scope.ownFaults f = []) : ¬ d.Faulty scope.declared := by
  induction d using reference_induction with
  | step d ih =>
    have hlocal := (scope.ownFaults_eq_nil_iff d).1 (h d (List.mem_cons_self ..))
    intro hfaulty
    rcases faulty_iff.1 hfaulty with hfault | ⟨f, hf, hfault⟩
    · exact hlocal hfault
    · refine ih f hf (fun g hg => h g (List.mem_cons_of_mem _ ?_)) hfault
      rcases mem_references.1 hf with hclosed | hopen
      · exact absurd (.inPlace f hclosed) hlocal
      · exact mem_placed.2 ⟨f, hopen, hg⟩

end Definition

namespace Place

/-- The canonical text of what stands at a place. -/
def text (p : Place) : String :=
  p.definition.canonical.text

end Place

end WireSchema
