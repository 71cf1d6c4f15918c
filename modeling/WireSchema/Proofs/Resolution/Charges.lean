import WireSchema.Proofs.Arena.Owners
import WireSchema.Proofs.Resolution.Content

/-!
# What is charged to an owner

Whatever a compile makes its owner's, it has told the owner of: each new slot is that of a
definition contained in what was compiled, and its faults are among those returned
(`Scope.Charges`).  Nothing else is charged.

So an owner that has been told of no fault owns sound types only.  As it owns what they
refer to as well, everything that its declaration contains is among them, and sound
(`Scope.sound_of_compile`).  The faults of a definition are not enough for this.  A
definition in place may come to a slot without faults although it contains a faulty one:
the owner for which it was compiled had been told of that before.
-/

namespace WireSchema

/-! ## The region of a definition -/

namespace Arena

variable {digest : String → String} {declared : List TypeName} {within : List Definition}
  {a : Arena} {owner : TypeName}

/-- The positions of the declared types and of some definitions in place. -/
def Region (digest : String → String) (declared : List TypeName) (a : Arena)
    (ds : List Definition) (id : TypeId) : Prop :=
  id < declared.length ∨ ∃ e ∈ ds, a.state? (digest e.canonical.text) = some (.finished id)

/-- References do not lead out of the region of definitions among which those at their open
references are. -/
theorem Valid.under_region (h : a.Valid digest declared within)
    (hseparates : Separates digest within) {ds : List Definition} (hds : ds ⊆ within)
    (hopen : ∀ e ∈ ds, ∀ f, .inline f ∈ e.openReferences → f ∈ ds) :
    a.Under (a.Region digest declared ds) := by
  intro i slot body hi hslot hanonymous hbody child hchild
  have hle := (h.anonymous_iff hslot).1 hanonymous
  rcases hi with hlt | ⟨e, he, hid⟩
  · exact absurd hlt (Nat.not_lt.2 hle)
  · obtain ⟨slot', hslot', -, hrealises⟩ := h.realises hseparates (hds he) hid
    obtain rfl := Option.some.inj (hslot.symm.trans hslot')
    obtain ⟨hsound, hlocated, -, hreferences⟩ := (hrealises body hbody).2
    rw [hreferences] at hchild
    obtain ⟨r, hr, rfl⟩ := List.mem_map.1 hchild
    cases r with
    | named name =>
      refine Or.inl (List.idxOf_lt_length_of_mem ?_)
      by_contra hmissing
      exact hsound (.undeclared name hr hmissing)
    | inline f =>
      obtain ⟨id, hid'⟩ := hlocated f hr
      rw [locate, Reference.locate, positionOf_of_finished hid']
      rcases Definition.mem_references.1 hr with hclosed | hf
      · exact absurd (.inPlace f hclosed) hsound
      · exact Or.inr ⟨f, hopen e he f hf, hid'⟩

/-- References do not lead out of the region of a definition. -/
theorem Valid.under_contained (h : a.Valid digest declared within)
    (hseparates : Separates digest within) {d : Definition} (hd : d :: d.inlines ⊆ within) :
    a.Under (a.Region digest declared (d :: d.inlines)) :=
  h.under_region hseparates hd fun _ he _ hf => Definition.inlines_subset_cons he
    (Definition.mem_inlines_of_mem_references (Definition.mem_references.2 (Or.inr hf)))

/-- Sharing the type of a definition stays in the region of the definition. -/
theorem Valid.sharesWithin_region (h : a.Valid digest declared within)
    (hseparates : Separates digest within) {d : Definition} (hd : d :: d.inlines ⊆ within)
    {id : TypeId} (hid : a.state? (digest d.canonical.text) = some (.finished id))
    (owner : TypeName) (fuel : Nat) :
    SharesWithin owner (a.Region digest declared (d :: d.inlines)) a
      (share owner fuel id a).1.faults (share owner fuel id a).2 :=
  sharesWithin owner fuel id a (Or.inr ⟨d, List.mem_cons_self .., hid⟩)
    (h.under_contained hseparates hd)

end Arena

namespace Scope

variable (scope : Scope) (depth : Nat) (within : List Definition)

/-! ## Owning what has been resolved -/

theorem has_of_resolve {d : Definition} {a : Arena} {id : TypeId}
    (h : (scope.resolve depth (.inline d) a).1.value = some id) :
    (scope.resolve depth (.inline d) a).2.Has scope.owner id := by
  have hgrows := scope.grows_resolve depth (.inline d) a
  have hplaced := scope.resolve_placed depth d a
  generalize scope.resolve depth (.inline d) a = result at hgrows hplaced h ⊢
  cases hplaced with
  | shared id' hstate =>
    obtain rfl := Option.some.inj h
    exact Arena.has_share scope.owner id' a
  | inside hstate => cases h
  | tooDeep hstate hdeep => cases h
  | new name hstate hshallow =>
    obtain rfl := Option.some.inj h
    intro t ht _
    obtain ⟨-, howners⟩ := hgrows.new _ t (Nat.le_refl _) ht
    rw [howners]
    exact List.mem_singleton_self scope.owner

/-- The definitions in place among references that raise no fault are the owner's. -/
theorem resolveAll_has {rs : List Reference} {a : Arena}
    (h : (scope.resolveAll depth rs a).1.faults = []) (f : Definition) (hf : .inline f ∈ rs) :
    (scope.resolveAll depth rs a).2.Has scope.owner
      ((scope.resolveAll depth rs a).2.positionOf (scope.key f)) := by
  induction rs generalizing a with
  | nil => cases hf
  | cons r rs ih =>
    rw [resolveAll_cons] at h ⊢
    obtain ⟨hfirst, hrest⟩ := List.append_eq_nil_iff.1 h
    rcases List.mem_cons.1 hf with rfl | hf
    · have hgrows := scope.grows_resolveAll depth rs (scope.resolve depth (.inline f) a).2
      obtain ⟨id, hid⟩ := scope.exists_value_of_resolve depth hfirst
      have hstate := hgrows.states _ _ (scope.finished_of_resolve depth hid)
      rw [Arena.positionOf_of_finished hstate]
      exact (scope.has_of_resolve depth hid).of_grows hgrows
    · exact ih hrest hf

/-- The definitions in place in a definition that raises no fault are the owner's. -/
theorem compile_has {d : Definition} {a : Arena}
    (h : (scope.compile depth d a).1.faults = []) {f : Definition} (hf : .inline f ∈ d.references) :
    (scope.compile depth d a).2.Has scope.owner
      ((scope.compile depth d a).2.positionOf (scope.key f)) := by
  obtain ⟨harena, hfaults, -, -⟩ := scope.compile_report depth d a
  rw [h] at hfaults
  obtain ⟨hform, hreferences⟩ := List.append_eq_nil_iff.1 hfaults.nil_eq.symm
  rw [harena]
  rcases Definition.mem_references.1 hf with hclosed | hopen
  · obtain ⟨-, -, hnames, -⟩ := (scope.formFaults_eq_nil_iff d).1 hform
    exact absurd hclosed (hnames f)
  · exact scope.resolveAll_has depth hreferences f hopen

/-- An owner has what the contents refer to that are compiled on its behalf. -/
theorem compile_has_references {d : Definition} {a : Arena}
    (h : (scope.compile depth d a).2.WellFormed scope.declared) {content : Body}
    (hcontent : (scope.compile depth d a).1.value = some content) :
    ∀ child ∈ content.references, (scope.compile depth d a).2.Has scope.owner child := by
  rcases scope.compile_links depth d a with ⟨-, hnone⟩ | ⟨hnil, content', hcontent', hlinks⟩
  · rw [hcontent] at hnone
    cases hnone
  · obtain rfl := Option.some.inj (hcontent.symm.trans hcontent')
    intro child hchild
    rw [Definition.references_linked hlinks.linked] at hchild
    obtain ⟨r, hr, rfl⟩ := List.mem_map.1 hchild
    cases r with
    | inline f => exact scope.compile_has depth hnil hr
    | named type =>
      -- A declared type is not anonymous, and so nobody has to own it.
      intro t ht hanonymous
      have hmem : type ∈ scope.declared := by
        by_contra hmissing
        exact hlinks.sound (.undeclared type hr hmissing)
      have hle := (h.anonymous_iff ht).1 hanonymous
      exact absurd (List.idxOf_lt_length_of_mem hmem) (Nat.not_lt.2 hle)

/-! ## The invariant -/

/-- What a run has charged to its owner. -/
structure Charges (ds : List Definition) (a : Arena) (faults : List Fault) (b : Arena) : Prop where
  grows : a.Grows scope.owner b
  valid : b.Valid scope.digest scope.declared within
  /-- The owner has been told the faults of every type that it got. -/
  charged : ∀ (i : Nat) (t : Slot), b.slot? i = some t → t.anonymous = true →
    scope.owner ∈ t.owners → (∃ s, a.slot? i = some s ∧ scope.owner ∈ s.owners) ∨
      t.faults ⊆ faults ∧ ∃ e ∈ ds, b.state? (scope.key e) = some (.finished i)
  /-- The owner has what its types refer to. -/
  closed : a.Closed scope.owner → b.Closed scope.owner

variable {scope within}

/-- If no anonymous type was the owner's, what the owner got is what it was told of. -/
theorem Charges.charged_of_new {ds : List Definition} {a b : Arena} {faults : List Fault}
    (h : scope.Charges within ds a faults b)
    (hnew : ∀ (i : Nat) (s : Slot), a.slot? i = some s → s.anonymous = true →
      scope.owner ∉ s.owners) {i : Nat} {t : Slot} (ht : b.slot? i = some t)
    (hanonymous : t.anonymous = true) (howner : scope.owner ∈ t.owners) :
    t.faults ⊆ faults ∧ ∃ e ∈ ds, b.state? (scope.key e) = some (.finished i) := by
  refine (h.charged i t ht hanonymous howner).resolve_left ?_
  rintro ⟨s, hs, howner'⟩
  obtain ⟨t', ht', hgains⟩ := h.grows.slots i s hs
  obtain rfl := Option.some.inj (ht.symm.trans ht')
  rw [hgains.anonymous] at hanonymous
  exact hnew i s hs hanonymous howner'

theorem Charges.idle {a : Arena} (h : a.Valid scope.digest scope.declared within)
    (ds : List Definition) (faults : List Fault) : scope.Charges within ds a faults a where
  grows := .refl scope.owner a
  valid := h
  charged _ t ht _ howner := Or.inl ⟨t, ht, howner⟩
  closed hclosed := hclosed

theorem Charges.trans {ds es : List Definition} {a b c : Arena} {faults faults' : List Fault}
    (h : scope.Charges within ds a faults b) (h' : scope.Charges within es b faults' c) :
    scope.Charges within (ds ++ es) a (faults ++ faults') c where
  grows := h.grows.trans h'.grows
  valid := h'.valid
  charged i u hu hanonymous howner := by
    rcases h'.charged i u hu hanonymous howner with ⟨t, ht, howner'⟩ | ⟨hfaults, e, he, hid⟩
    · obtain ⟨u', hu', hgains⟩ := h'.grows.slots i t ht
      obtain rfl := Option.some.inj (hu.symm.trans hu')
      rw [hgains.anonymous] at hanonymous
      rw [hgains.faults]
      rcases h.charged i t ht hanonymous howner' with hbefore | ⟨hfaults, e, he, hid⟩
      · exact Or.inl hbefore
      · exact Or.inr ⟨fun f hf => List.mem_append_left _ (hfaults hf), e,
          List.mem_append_left _ he, h'.grows.states _ _ hid⟩
    · exact Or.inr ⟨fun f hf => List.mem_append_right _ (hfaults hf), e,
        List.mem_append_right _ he, hid⟩
  closed hclosed := h'.closed (h.closed hclosed)

/-- Sharing the type of a definition in place. -/
theorem Charges.shared (hseparates : Separates scope.digest within) {d : Definition} {a : Arena}
    (hd : d :: d.inlines ⊆ within) (h : a.Valid scope.digest scope.declared within) {id : TypeId}
    (hid : a.state? (scope.key d) = some (.finished id))
    (hvalid : (share scope.owner a.slots.length id a).2.Valid scope.digest scope.declared within) :
    scope.Charges within (d :: d.inlines) a (share scope.owner a.slots.length id a).1.faults
      (share scope.owner a.slots.length id a).2 := by
  have hshares := h.sharesWithin_region hseparates hd hid scope.owner a.slots.length
  refine ⟨grows_share scope.owner _ id a, hvalid, fun i t ht hanonymous howner => ?_,
    fun hclosed => hclosed.share id⟩
  have hle := (hvalid.anonymous_iff ht).1 hanonymous
  obtain ⟨s, hs, -, htold⟩ := hshares.slots i t ht
  rcases htold howner with howner | ⟨hregion, hfaults⟩
  · exact Or.inl ⟨s, hs, howner⟩
  · rcases hregion with hlt | ⟨e, he, hstate⟩
    · exact absurd hlt (Nat.not_lt.2 hle)
    · refine Or.inr ⟨hfaults, e, he, ?_⟩
      rw [state?_share]
      exact hstate

/-- Compiling a definition in place into a new slot. -/
theorem Charges.new {d : Definition} {a b : Arena} {body : Option Body} {faults : List Fault}
    (hstate : a.state? (scope.key d) = none)
    (h : scope.Charges within d.inlines (a.reserve scope.owner (scope.key d)) faults b)
    (hbody : ∀ content, body = some content → ∀ child ∈ content.references,
      b.Has scope.owner child) (name : TypeName)
    (hvalid : (b.fill a.slots.length (scope.key d) name body faults).Valid scope.digest
      scope.declared within) :
    scope.Charges within (d :: d.inlines) a faults
      (b.fill a.slots.length (scope.key d) name body faults) where
  grows := .fill hstate h.grows name body faults
  valid := hvalid
  charged i t ht hanonymous howner := by
    rw [Arena.slot?_fill] at ht
    by_cases heq : a.slots.length = i
    · subst heq
      rw [if_pos rfl] at ht
      obtain ⟨s, -, rfl⟩ := Option.map_eq_some_iff.1 ht
      refine Or.inr ⟨fun f hf => hf, d, List.mem_cons_self .., ?_⟩
      rw [Arena.state?_fill, if_pos rfl]
    · rw [if_neg heq] at ht
      rcases h.charged i t ht hanonymous howner with ⟨s, hs, howner'⟩ | ⟨hfaults, e, he, hid⟩
      · have hlt := Arena.lt_length_of_slot? hs
        rw [Arena.length_reserve] at hlt
        rw [Arena.slot?_reserve_of_lt (by omega)] at hs
        exact Or.inl ⟨s, hs, howner'⟩
      · refine Or.inr ⟨hfaults, e, List.mem_cons_of_mem _ he, ?_⟩
        have hprogress := h.grows.states (scope.key d) .inProgress
          (by rw [Arena.state?_reserve, if_pos rfl])
        have hne : scope.key e ≠ scope.key d := by
          intro hkey
          rw [hkey, hprogress] at hid
          cases hid
        rw [Arena.state?_fill, if_neg hne]
        exact hid
  closed hclosed := (h.closed (hclosed.reserve (scope.key d))).fill _ _ name faults hbody

theorem charges_runRelation (hseparates : Separates scope.digest within) :
    scope.RunRelation fun ds a faults b => ds ⊆ within →
      a.Valid scope.digest scope.declared within → scope.Charges within ds a faults b where
  idle ds a faults _ _ h := .idle h ds faults
  trans h h' hsubset ha := by
    have hfirst := h (fun _ he => hsubset (List.mem_append_left _ he)) ha
    exact hfirst.trans (h' (fun _ he => hsubset (List.mem_append_right _ he)) hfirst.valid)
  perm hperm h hsubset ha := by
    obtain ⟨hgrows, hvalid, hcharged, hclosed⟩ := h hsubset ha
    refine ⟨hgrows, hvalid, fun i t ht hanonymous howner => ?_, hclosed⟩
    rcases hcharged i t ht hanonymous howner with hbefore | ⟨hfaults, hmet⟩
    · exact Or.inl hbefore
    · exact Or.inr ⟨fun f hf => hperm.subset (hfaults hf), hmet⟩
  place depth d a ih hsubset h := by
    have hvalid := (scope.valid_runRelation within).resolve depth (.inline d) a
    have hplaced := scope.resolve_placed depth d a
    rw [Reference.inlines] at hvalid
    generalize scope.resolve depth (.inline d) a = result at hvalid hplaced ⊢
    cases hplaced with
    | shared id hstate => exact .shared hseparates hsubset h hstate (hvalid hsubset h)
    | inside hstate => exact .idle h _ _
    | tooDeep hstate hdeep => exact .idle h _ _
    | new name hstate hshallow =>
      have hcompiled := ih _ (fun e he => hsubset (List.mem_cons_of_mem _ he))
        (h.reserve hstate scope.owner)
      refine .new hstate hcompiled (fun content hcontent => ?_) name (hvalid hsubset h)
      exact scope.compile_has_references (depth + 1) hcompiled.valid.toWellFormed hcontent

variable (scope) in
/-- **What a compile charges to its owner.** -/
theorem charges_compile (hseparates : Separates scope.digest within) {d : Definition}
    (hd : d.inlines ⊆ within) {a : Arena} (h : a.Valid scope.digest scope.declared within) :
    scope.Charges within d.inlines a (scope.compile depth d a).1.faults
      (scope.compile depth d a).2 :=
  (charges_runRelation hseparates).compile d depth a hd h

end Scope

/-! ## Owners without faults -/

namespace Arena

/-- Whether a definition in place has a type with a content, which is the owner's. -/
def Serves (digest : String → String) (a : Arena) (owner : TypeName) (d : Definition) : Prop :=
  ∃ id slot body, a.state? (digest d.canonical.text) = some (.finished id) ∧
    a.slot? id = some slot ∧ owner ∈ slot.owners ∧ slot.body = some body

variable {digest : String → String} {declared : List TypeName} {within : List Definition}
  {a : Arena} {owner : TypeName}

/-- An owner without faults has everything that is contained in what it has. -/
theorem Valid.serves_inlines (h : a.Valid digest declared within)
    (hseparates : Separates digest within) (hclosed : a.Closed owner)
    (hsound : ∀ (i : Nat) (t : Slot), a.slot? i = some t → t.anonymous = true →
      owner ∈ t.owners → t.faults = [])
    {d : Definition} (hd : d.inlines ⊆ within) (hlocated : a.Located digest d.references)
    (hhas : ∀ f, .inline f ∈ d.references →
      a.Has owner (a.positionOf (digest f.canonical.text))) :
    ∀ e ∈ d.inlines, a.Serves digest owner e := by
  -- What the owner has was charged to it with all its faults, and there were none.
  have hserves : ∀ f ∈ within, ∀ id, a.state? (digest f.canonical.text) = some (.finished id) →
      a.Has owner id → a.Serves digest owner f := by
    intro f hf id hid hasOwner
    obtain ⟨slot, hslot, hempty, -⟩ := h.realises hseparates hf hid
    have hanonymous := h.anonymousSlots id slot (h.declared_le hid) hslot
    have howner := hasOwner slot hslot hanonymous
    obtain ⟨body, hb⟩ := Option.ne_none_iff_exists'.1 fun hnone =>
      hempty hnone (hsound id slot hslot hanonymous howner)
    exact ⟨id, slot, body, hid, hslot, howner, hb⟩
  refine Definition.forall_mem_inlines (fun f hf => ?_) fun e he hserved f hf => ?_
  · obtain ⟨id, hid⟩ := hlocated f hf
    have hasOwner := hhas f hf
    rw [positionOf_of_finished hid] at hasOwner
    exact hserves f (hd (Definition.mem_inlines_of_mem_references hf)) id hid hasOwner
  · obtain ⟨i, slot, body, hi, hslot, howner, hbody⟩ := hserved
    obtain ⟨slot', hslot', -, hrealises⟩ := h.realises hseparates (hd he) hi
    obtain rfl := Option.some.inj (hslot.symm.trans hslot')
    obtain ⟨-, hlocated', -, hreferences⟩ := (hrealises body hbody).2
    obtain ⟨id, hid⟩ := hlocated' f hf
    have hanonymous := h.anonymousSlots i slot (h.declared_le hi) hslot
    have hf' := Definition.inlines_subset he (Definition.mem_inlines_of_mem_references hf)
    refine hserves f (hd hf') id hid (hclosed i slot body not_false hslot hanonymous howner hbody
      id ?_)
    rw [hreferences]
    refine List.mem_map.2 ⟨_, hf, ?_⟩
    rw [locate, Reference.locate, positionOf_of_finished hid]

end Arena

namespace Scope

variable (scope : Scope) (depth : Nat) {within : List Definition}

/-- **No faults, no mistakes.**  If a compile on behalf of a new owner returns no fault,
its definition and everything contained in it is sound, is the owner's, and has its
content. -/
theorem sound_of_compile (hseparates : Separates scope.digest within) {d : Definition}
    (hd : d.inlines ⊆ within) {a : Arena}
    (h : a.Valid scope.digest scope.declared within)
    (hnew : ∀ (i : Nat) (t : Slot), a.slot? i = some t → t.anonymous = true →
      scope.owner ∉ t.owners)
    (hfaults : (scope.compile depth d a).1.faults = []) :
    ¬ d.Faulty scope.declared ∧ ∀ e ∈ d.inlines,
      (scope.compile depth d a).2.Serves scope.digest scope.owner e := by
  have hcharges := scope.charges_compile depth hseparates hd h
  have hlinks := scope.compile_links depth d a
  have hhas := fun f hf => scope.compile_has depth hfaults (f := f) hf
  have hclosed : a.Closed scope.owner := fun i t _ _ ht hanonymous howner =>
    absurd howner (hnew i t ht hanonymous)
  have hsound : ∀ (i : Nat) (t : Slot), (scope.compile depth d a).2.slot? i = some t →
      t.anonymous = true → scope.owner ∈ t.owners → t.faults = [] := by
    intro i t ht hanonymous howner
    obtain ⟨htold, -⟩ := hcharges.charged_of_new hnew ht hanonymous howner
    rw [hfaults] at htold
    exact List.subset_nil.1 htold
  rcases hlinks with ⟨hne, -⟩ | ⟨-, body, -, hlinked⟩
  · exact absurd hfaults hne
  · have hserves := hcharges.valid.serves_inlines hseparates (hcharges.closed hclosed) hsound hd
      hlinked.located hhas
    refine ⟨?_, hserves⟩
    rintro ⟨e, he, hfault⟩
    rcases List.mem_cons.1 he with rfl | he
    · exact hlinked.sound hfault
    · obtain ⟨id, slot, body, hid, hslot, -, hbody⟩ := hserves e he
      obtain ⟨slot', hslot', -, hrealises⟩ := hcharges.valid.realises hseparates (hd he) hid
      obtain rfl := Option.some.inj (hslot.symm.trans hslot')
      exact (hrealises body hbody).2.sound hfault

end Scope
end WireSchema
