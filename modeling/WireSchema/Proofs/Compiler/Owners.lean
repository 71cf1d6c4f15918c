import WireSchema.Proofs.Compiler.Linked

/-!
# The owners of a type are those that contain it

A definition in place has one type wherever it stands, and the faults of this type are the
business of every declaration that contains the definition.  Owners are found by the way:
sharing a type stops where the owner is met, and does not look at what lies behind.  That it
misses nothing is because a type that is an owner's brings all it refers to with it
(`Arena.Closed`), also while the definitions around it are still being compiled.

So in a schema whose declarations have nothing wrong with them, the owners of an anonymous type
are the declared types that contain a definition with its canonical text, in the order of the
declarations (`Compiler.owners_eq_containers`), and what is wrong between it and the types it
refers to is reported once for each of them.  An error between types names the type in which it
is found (`CompileError.holder?`), so the reports about one type can be told from all others.
-/

namespace WireSchema

/-- The name of the type in which an error between types is found. -/
def CompileError.holder? : CompileError → Option TypeName
  | .charged _ (.invalidConfig fault) => fault.holder?
  | _ => none

/-! ## Containers -/

/-- The declared types among some whose declarations contain a definition with a canonical
text, in their order. -/
def containersIn (ds : List (TypeName × Definition)) (text : String) : List TypeName :=
  (ds.filter fun e => text ∈ e.2.inlines.map fun f => f.canonical.text).map Prod.fst

theorem containersIn_concat (ds : List (TypeName × Definition)) (e : TypeName × Definition)
    (text : String) : containersIn (ds ++ [e]) text =
      containersIn ds text ++
        if text ∈ e.2.inlines.map fun f => f.canonical.text then [e.1] else [] := by
  rw [containersIn, containersIn, List.filter_append, List.map_append]
  simp only [List.filter_cons, List.filter_nil, decide_eq_true_eq, apply_ite (List.map Prod.fst)]
  rfl

theorem containersIn_eq_nil {ds : List (TypeName × Definition)} {text : String}
    (h : ∀ e ∈ ds, ∀ f ∈ e.2.inlines, f.canonical.text ≠ text) : containersIn ds text = [] := by
  rw [containersIn, List.map_eq_nil_iff, List.filter_eq_nil_iff]
  intro e he hmem
  obtain ⟨f, hf, htext⟩ := List.mem_map.1 (of_decide_eq_true hmem)
  exact h e he f hf htext

theorem containersIn_sublist (ds : List (TypeName × Definition)) (text : String) :
    (containersIn ds text).Sublist (ds.map Prod.fst) :=
  List.filter_sublist.map _

namespace Schema

/-- The declared types that contain a definition with the canonical form of `d`: in the order of
the declarations, and wherever in them it stands. -/
def containers (s : Schema) (d : Definition) : List TypeName :=
  containersIn s.accepted d.canonical.text

theorem mem_containers {s : Schema} {d : Definition} {name : TypeName} :
    name ∈ s.containers d ↔ ∃ e, (name, e) ∈ s.accepted ∧
      ∃ f ∈ e.inlines, f.canonical.text = d.canonical.text := by
  rw [containers, containersIn, List.mem_map]
  constructor
  · rintro ⟨⟨name, e⟩, he, rfl⟩
    obtain ⟨hmem, htext⟩ := List.mem_filter.1 he
    exact ⟨e, hmem, List.mem_map.1 (of_decide_eq_true htext)⟩
  · rintro ⟨e, he, htext⟩
    exact ⟨(name, e), List.mem_filter.2 ⟨he, decide_eq_true (List.mem_map.2 htext)⟩, rfl⟩

theorem nodup_containers (s : Schema) (d : Definition) : (s.containers d).Nodup :=
  s.nodup_accepted.sublist (containersIn_sublist _ _)

end Schema

/-! ## One round -/

namespace Compiler

section

variable {c : Compiler} {declared : List TypeName} {within : List Definition}
  {before rest : List (TypeName × Definition)} {e : TypeName × Definition} {a : Arena}

/-- The types of definitions in place after some declarations: each is owned by the containers
of its definitions, and all that the declarations contain has one. -/
structure Attributed (digest : String → String) (within : List Definition)
    (before : List (TypeName × Definition)) (a : Arena) : Prop where
  owners : ∀ d ∈ within, ∀ id slot, a.state? (digest d.canonical.text) = some (.finished id) →
    a.slot? id = some slot → slot.owners = containersIn before d.canonical.text
  finished : ∀ e ∈ before, ∀ f ∈ e.2.inlines,
    ∃ id, a.state? (digest f.canonical.text) = some (.finished id)

theorem Attributed.modify_body (h : Attributed c.digest within before a)
    (hvalid : a.Valid c.digest declared within) {id : Nat} (hid : id < declared.length)
    (body : Option Body) :
    Attributed c.digest within before (a.modify id fun s => { s with body }) where
  owners d hd i slot hi hslot := by
    have hne : id ≠ i := Nat.ne_of_lt (Nat.lt_of_lt_of_le hid (hvalid.declared_le hi))
    rw [Arena.slot?_modify, if_neg hne] at hslot
    exact h.owners d hd i slot hi hslot
  finished := h.finished

section

variable (hseparates : Separates c.digest within)
  (hbetween : c.Between declared within (e :: rest) a) (hinlines : e.2.inlines ⊆ within)
  (hfaults : ((c.scope declared e.1).compile 0 e.2 a).1.faults = [])

include hseparates hbetween hinlines hfaults

/-- A declaration with which nothing is wrong gets the types of all that it contains, and no
other. -/
theorem owner_mem_iff {d : Definition} (hd : d ∈ within) {id : TypeId} {slot : Slot}
    (hid : ((c.scope declared e.1).compile 0 e.2 a).2.state? (c.digest d.canonical.text) =
      some (.finished id))
    (hslot : ((c.scope declared e.1).compile 0 e.2 a).2.slot? id = some slot) :
    e.1 ∈ slot.owners ↔ d.canonical.text ∈ e.2.inlines.map fun f => f.canonical.text := by
  let scope := c.scope declared e.1
  have hnew : ∀ (i : Nat) (t : Slot), a.slot? i = some t → t.anonymous = true →
      scope.owner ∉ t.owners := fun i t ht hanonymous =>
    hbetween.unowned i t ht hanonymous e (List.mem_cons_self ..)
  have hcharges := scope.charges_compile 0 hseparates hinlines hbetween.valid
  have hwell := hcharges.valid.toWellFormed
  constructor
  · intro howner
    have hanonymous := hwell.anonymousSlots id slot (hwell.declared_le hid) hslot
    obtain ⟨-, f, hf, hstate⟩ := hcharges.charged_of_new hnew hslot hanonymous howner
    have htext := hseparates f (hinlines hf) d hd (hwell.eq_of_finished hid hstate)
    exact List.mem_map.2 ⟨f, hf, htext⟩
  · intro hmem
    obtain ⟨f, hf, htext⟩ := List.mem_map.1 hmem
    obtain ⟨-, hserves⟩ := scope.sound_of_compile 0 hseparates hinlines hbetween.valid hnew hfaults
    obtain ⟨i, t, -, hi, ht, howner, -⟩ := hserves f hf
    rw [htext] at hi
    obtain rfl := InlineState.finished.inj (Option.some.inj (hi.symm.trans hid))
    obtain rfl := Option.some.inj (ht.symm.trans hslot)
    exact howner

/-- **A round adds its declaration to the owners of what it contains.** -/
theorem Attributed.round (h : Attributed c.digest within before a) :
    Attributed c.digest within (before ++ [e]) ((c.scope declared e.1).compile 0 e.2 a).2 := by
  let scope := c.scope declared e.1
  have hgrows := scope.grows_compile 0 e.2 a
  constructor
  case owners =>
    intro d hd id slot hid hslot
    have howner := owner_mem_iff hseparates hbetween hinlines hfaults hd hid hslot
    rw [containersIn_concat]
    by_cases hlt : id < a.slots.length
    · -- The type was there: it has kept its owners, and may have got this one.
      have hstate : a.state? (c.digest d.canonical.text) = some (.finished id) := by
        cases hstate : a.state? (c.digest d.canonical.text) with
        | none =>
          obtain ⟨i, hi, hle⟩ := hgrows.fresh _ _ hstate hid
          obtain rfl := InlineState.finished.inj hi
          exact absurd hlt (Nat.not_lt.2 hle)
        | some state => exact (hgrows.states _ _ hstate).symm.trans hid
      obtain ⟨old, hold, hgains⟩ := hgrows.exists_slot hlt hslot
      rw [← h.owners d hd id old hstate hold]
      rcases hgains with rfl | ⟨-, -, rfl⟩
      · rw [if_neg fun hmem => hbetween.owner_notMem hstate hold (howner.2 hmem), List.append_nil]
      · rw [if_pos (howner.1 (List.mem_append_right _ (List.mem_singleton_self _)))]
        rfl
    · -- The type is new, so nothing before has met it.
      have hle := Nat.not_lt.1 hlt
      obtain ⟨-, howners⟩ := hgrows.new id slot hle hslot
      have hnone : containersIn before d.canonical.text = [] := by
        refine containersIn_eq_nil fun f hf g hg htext => ?_
        obtain ⟨i, hi⟩ := h.finished f hf g hg
        rw [htext] at hi
        obtain rfl := InlineState.finished.inj
          (Option.some.inj ((hgrows.states _ _ hi).symm.trans hid))
        exact hlt (hbetween.valid.lt_length hi)
      rw [hnone, List.nil_append, if_pos (howner.1 (howners ▸ List.mem_singleton_self _))]
      exact howners
  case finished =>
    intro f hf g hg
    rcases List.mem_append.1 hf with hf | hf
    · obtain ⟨id, hid⟩ := h.finished f hf g hg
      exact ⟨id, hgrows.states _ _ hid⟩
    · obtain rfl := List.mem_singleton.1 hf
      obtain ⟨-, hserves⟩ := scope.sound_of_compile 0 hseparates hinlines hbetween.valid
        (fun i t ht hanonymous => hbetween.unowned i t ht hanonymous f (List.mem_cons_self ..))
        hfaults
      obtain ⟨id, -, -, hid, -⟩ := hserves g hg
      exact ⟨id, hid⟩

end

end

/-! ## The whole pass -/

variable {c : Compiler} {s : Schema}

/-- After a pass without faults everything is attributed to all declarations. -/
theorem attributed_declarationPass (hseparates : Separates c.digest s.inlines)
    (hpass : ∀ r ∈ (c.declarationPass s).1, r.2 = []) :
    Attributed c.digest s.inlines s.accepted (c.declarationPass s).2 := by
  refine declarationPass_sound_rounds (I := Attributed c.digest s.inlines) ?first ?round hpass
  case first =>
    refine ⟨fun d _ id slot hid => ?_, fun _ he => absurd he List.not_mem_nil⟩
    cases hid
  case round =>
    intro before e rest a hlt hinlines hbetween hbefore hfaults
    exact (hbefore.round hseparates hbetween hinlines hfaults).modify_body
      ((c.scope (declared s) e.1).valid_compile 0 hinlines hbetween.valid) hlt _

/-- The slot of an anonymous type is that of a definition in place. -/
theorem exists_inline {id : TypeId} {slot : Slot}
    (hslot : (c.declarationPass s).2.slot? id = some slot) (hanonymous : slot.anonymous = true) :
    ∃ d ∈ s.inlines,
      (c.declarationPass s).2.state? (c.digest d.canonical.text) = some (.finished id) := by
  obtain ⟨k, hk⟩ := finished_of_anonymous hslot hanonymous
  obtain ⟨d, hd, -, rfl, -⟩ := (c.declarationPass_links s).1.holds k id hk
  exact ⟨d, hd, hk⟩

/-! ## Reports -/

/-- What is wrong between a type and those it refers to is reported once for each owner. -/
theorem filter_slotErrors (settings : Settings) (a : Arena) {slot : Slot} {body : Body}
    (hbody : slot.body = some body) (hnodup : slot.owners.Nodup) (name : TypeName) :
    (CrossType.slotErrors settings a slot).filter (fun e => e.typeName = name) =
      if name ∈ slot.owners then
        (CrossType.bodyFaults settings a slot.name body).map fun fault =>
          .charged name (.invalidConfig fault)
      else [] := by
  have hfault : ∀ fault : ConfigFault,
      (slot.owners.map fun owner => CompileError.charged owner (.invalidConfig fault)).filter
          (fun e => e.typeName = name) =
        if name ∈ slot.owners then [.charged name (.invalidConfig fault)] else [] := by
    intro fault
    rw [List.filter_map]
    have howner : slot.owners.filter ((fun e => decide (CompileError.typeName e = name)) ∘
        fun owner => CompileError.charged owner (.invalidConfig fault)) =
          slot.owners.filter (· = name) := rfl
    rw [howner, List.filter_eq, hnodup.count]
    split <;> rfl
  simp only [CrossType.slotErrors, hbody, List.filter_flatMap, hfault]
  split
  · exact List.map_eq_flatMap.symm
  · exact List.flatMap_eq_nil_iff.2 fun _ _ => rfl

/-- What is found in a slot names its type. -/
theorem holder?_of_mem_slotErrors {settings : Settings} {a : Arena} {slot : Slot}
    {e : CompileError} (he : e ∈ CrossType.slotErrors settings a slot) :
    e.holder? = some slot.name := by
  obtain ⟨owner, -, fault, hholder, rfl⟩ := exists_of_mem_slotErrors he
  exact hholder

/-- Where names tell types apart, the reports about a type are those found in its slot. -/
theorem filter_crossErrors {settings : Settings} {a : Arena}
    (hnames : (a.slots.map Slot.name).Nodup) {slot : Slot} (hslot : slot ∈ a.slots) :
    (CrossType.errors settings a).filter (fun e => e.holder? = some slot.name) =
      CrossType.slotErrors settings a slot := by
  obtain ⟨before, after, hslots⟩ := List.append_of_mem hslot
  have hother : ∀ other : Slot, other.name ≠ slot.name →
      (CrossType.slotErrors settings a other).filter
        (fun e => e.holder? = some slot.name) = [] := by
    intro other hne
    refine List.filter_eq_nil_iff.2 fun e he => ?_
    rw [holder?_of_mem_slotErrors he, decide_eq_true_eq, Option.some.injEq]
    exact hne
  have hself : (CrossType.slotErrors settings a slot).filter
      (fun e => e.holder? = some slot.name) = CrossType.slotErrors settings a slot :=
    List.filter_eq_self.2 fun e he => decide_eq_true (holder?_of_mem_slotErrors he)
  rw [hslots, List.map_append, List.map_cons, List.nodup_middle, List.nodup_cons,
    List.mem_append, not_or] at hnames
  have hbefore : ∀ other ∈ before, other.name ≠ slot.name := fun other hmem heq =>
    hnames.1.1 (heq ▸ List.mem_map_of_mem hmem)
  have hafter : ∀ other ∈ after, other.name ≠ slot.name := fun other hmem heq =>
    hnames.1.2 (heq ▸ List.mem_map_of_mem hmem)
  rw [CrossType.errors, hslots, List.filter_flatMap, List.flatMap_append, List.flatMap_cons, hself,
    List.flatMap_eq_nil_iff.2 fun other hmem => hother other (hbefore other hmem),
    List.flatMap_eq_nil_iff.2 fun other hmem => hother other (hafter other hmem),
    List.nil_append, List.append_nil]

/-- If nothing is wrong with the declarations, this holds of all that is reported. -/
theorem filter_errors (hpass : declarationErrors (c.declarationPass s).1 = []) {slot : Slot}
    (hslot : slot ∈ (c.declarationPass s).2.slots) :
    (c.errors s (c.declarationPass s)).filter (fun e => e.holder? = some slot.name) =
      CrossType.slotErrors c.settings (c.declarationPass s).2 slot := by
  have hduplicates : s.duplicateErrors.filter (fun e => e.holder? = some slot.name) = [] := by
    refine List.filter_eq_nil_iff.2 fun e he => ?_
    obtain ⟨name, -, rfl⟩ := List.mem_map.1 he
    exact Bool.false_ne_true
  rw [errors, hpass, List.append_nil, List.filter_append, hduplicates, List.nil_append,
    filter_crossErrors nodup_names_declarationPass hslot]

/-- The slot of a definition in place and its owners, after the declaration pass. -/
structure OwnedByContainers (c : Compiler) (s : Schema) (id : TypeId) (slot : Slot)
    (d : Definition) : Prop where
  /-- The slot is that of all definitions with this canonical text. -/
  finished : (c.declarationPass s).2.state? (c.digest d.canonical.text) = some (.finished id)
  owners : slot.owners = s.containers d
  nodup : slot.owners.Nodup
  /-- The owners are in the order of the declarations. -/
  ordered : slot.owners.Sublist (declared s)
  /-- The type has a content, and what is wrong between it and the types it refers to is
  reported once for each container, and for no other type: it is so among what is found in the
  slot, and among all that is reported for the schema. -/
  errors : ∃ body, slot.body = some body ∧ ∀ name,
    let reports : List CompileError :=
      if name ∈ s.containers d then
        (CrossType.bodyFaults c.settings (c.declarationPass s).2 slot.name body).map fun fault =>
          .charged name (.invalidConfig fault)
      else []
    (CrossType.slotErrors c.settings (c.declarationPass s).2 slot).filter
        (fun e => e.typeName = name) = reports ∧
      (c.errors s (c.declarationPass s)).filter
        (fun e => e.typeName = name ∧ e.holder? = some slot.name) = reports

/-- **The owners of a type are those that contain it.**  If digests tell the canonical texts of a
schema's definitions in place apart and nothing is wrong with its declarations, then every
anonymous slot is owned by the declared types that contain its definition, once each and in
order, and its cross-type faults are reported for these. -/
theorem owners_eq_containers (hseparates : Separates c.digest s.inlines)
    (hpass : declarationErrors (c.declarationPass s).1 = []) (id : TypeId) (slot : Slot)
    (hslot : (c.declarationPass s).2.slot? id = some slot) (hanonymous : slot.anonymous = true) :
    ∃ d ∈ s.inlines, OwnedByContainers c s id slot d := by
  have hfaults := declarationErrors_eq_nil hpass
  obtain ⟨d, hd, hfinished⟩ := exists_inline hslot hanonymous
  have howners : slot.owners = s.containers d :=
    (attributed_declarationPass hseparates hfaults).owners d hd id slot hfinished hslot
  have hnodup : slot.owners.Nodup := howners ▸ s.nodup_containers d
  have hcomplete := (declarations_meets (c := c) hseparates s.accepted []
    (Arena.ofDeclared (declared s)) rfl Schema.inlines_subset_of_accepted
    (Arena.valid_ofDeclared c.digest (declared s) s.inlines)
    (Arena.complete_ofDeclared (declared s)) hfaults).1
  obtain ⟨body, hbody⟩ := Option.ne_none_iff_exists'.1 (hcomplete _ id slot hfinished hslot)
  refine ⟨d, hd, hfinished, howners, hnodup, ?_, body, hbody, fun name => ?_⟩
  · rw [howners]
    exact containersIn_sublist _ _
  · have hfound := filter_slotErrors c.settings (c.declarationPass s).2 hbody hnodup name
    rw [howners] at hfound
    refine ⟨hfound, ?_⟩
    simp only [Bool.decide_and]
    rw [← List.filter_filter, filter_errors hpass (List.mem_of_getElem? hslot), hfound]

/-- Two types with one list of maps in them, the maps with keys that are no strings, and a third
type with the maps alone. -/
def sharedMaps : Schema :=
  ⟨⟨[("Int", .int), ("String", .string),
    ("A", .list (.inline (.list (.inline (.map (.named "Int") (.named "String") false .map)) false))
      false),
    ("B", .struct
      [.mk "n" (.named "Int") false false,
        .mk "m" (.inline (.list (.inline (.map (.named "Int") (.named "String") false .map)) false))
          false false] .standard),
    ("C", .list (.inline (.map (.named "Int") (.named "String") false .map)) true)]⟩⟩

theorem owners_eq_containers_sharedMaps :
    Separates id sharedMaps.inlines ∧
      declarationErrors ((⟨.standard, id⟩ : Compiler).declarationPass sharedMaps).1 = [] ∧
        ∃ slot, ((⟨.standard, id⟩ : Compiler).declarationPass sharedMaps).2.slot? 6 = some slot ∧
          slot.anonymous = true ∧ slot.owners = ["A", "B", "C"] ∧
            ∃ d ∈ sharedMaps.inlines, OwnedByContainers ⟨.standard, id⟩ sharedMaps 6 slot d := by
  have hseparates : Separates id sharedMaps.inlines := fun _ _ _ _ h => h
  have hpass : declarationErrors ((⟨.standard, id⟩ : Compiler).declarationPass sharedMaps).1 =
      [] := by decide +kernel
  have hmaps : (((⟨.standard, id⟩ : Compiler).declarationPass sharedMaps).2.slot? 6).map
      (fun slot => (slot.anonymous, slot.owners)) = some (true, ["A", "B", "C"]) := by
    decide +kernel
  obtain ⟨slot, hslot, hfields⟩ := Option.map_eq_some_iff.1 hmaps
  obtain ⟨hanonymous, howners⟩ := Prod.mk.inj hfields
  exact ⟨hseparates, hpass, slot, hslot, hanonymous, howners,
    owners_eq_containers hseparates hpass 6 slot hslot hanonymous⟩

end Compiler
end WireSchema
