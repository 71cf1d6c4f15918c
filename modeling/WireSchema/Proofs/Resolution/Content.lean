import WireSchema.Proofs.Arena.WellFormed

/-!
# What slots hold

The slot of a definition in place holds the content that the definition has when its
references are where the arena has them, or it is empty and there were faults.  The
statement is about the arena alone, so that it can be carried along a compile
(`Scope.valid_compile`).

A slot is known by a digest and filled for the first definition with that digest.  That
it serves every other one as well is where digests have to separate canonical texts:
`Arena.Valid.realises` is the statement for all definitions that come to a slot.
-/

namespace WireSchema

/-! ## Where an arena has references -/

namespace Arena

variable (digest : String → String) (declared : List TypeName)

/-- The position of the definition in place of a digest. -/
def positionOf (a : Arena) (k : String) : TypeId :=
  match a.state? k with
  | some (.finished id) => id
  | _ => 0

/-- The position of what a reference refers to. -/
def locate (a : Arena) : Reference → TypeId :=
  Reference.locate declared.idxOf fun text => a.positionOf (digest text)

theorem positionOf_of_finished {a : Arena} {k : String} {id : TypeId}
    (h : a.state? k = some (.finished id)) : a.positionOf k = id := by
  rw [positionOf, h]

/-- Whether what is finished stays finished where it is. -/
def Keeps (a b : Arena) : Prop :=
  ∀ k id, a.state? k = some (.finished id) → b.state? k = some (.finished id)

/-- Whether the definitions in place among references are finished. -/
def Located (a : Arena) (rs : List Reference) : Prop :=
  ∀ e, .inline e ∈ rs → ∃ id, a.state? (digest e.canonical.text) = some (.finished id)

/-- A definition without local faults has a content, with its references where the arena
has them. -/
structure Links (a : Arena) (d : Definition) (b : Body) : Prop where
  sound : ¬ d.LocalFault declared
  located : a.Located digest d.references
  linked : d.linked (a.locate digest declared) = some b

variable {digest declared} {a b : Arena}

theorem Grows.keeps {owner : TypeName} (h : a.Grows owner b) : a.Keeps b :=
  fun k id hk => h.states k (.finished id) hk

/-- What is located stays where it is. -/
theorem locate_eq (hstates : a.Keeps b)
    {rs : List Reference} (hlocated : a.Located digest rs) {r : Reference} (hr : r ∈ rs) :
    b.locate digest declared r = a.locate digest declared r := by
  cases r with
  | named name => rfl
  | inline e =>
    obtain ⟨id, hid⟩ := hlocated e hr
    rw [locate, locate, Reference.locate, Reference.locate, positionOf_of_finished hid,
      positionOf_of_finished (hstates _ _ hid)]

theorem Located.mono (hstates : a.Keeps b)
    {rs : List Reference} (h : a.Located digest rs) : b.Located digest rs := by
  intro e he
  obtain ⟨id, hid⟩ := h e he
  exact ⟨id, hstates _ _ hid⟩

theorem Links.mono (hstates : a.Keeps b)
    {d : Definition} {body : Body} (h : a.Links digest declared d body) :
    b.Links digest declared d body where
  sound := h.sound
  located := h.located.mono hstates
  linked := by
    rw [← h.linked]
    exact Definition.linked_eq_of_positions (fun _ _ => rfl) fun r hr =>
      locate_eq hstates h.located hr

end Arena

/-! ## What a compile returns -/

theorem Definition.exists_linked {d : Definition} (h : ∀ source, d ≠ .copy source)
    (ρ : Reference → TypeId) : ∃ b, d.linked ρ = some b := by
  cases d with
  | copy source => exact absurd rfl (h source)
  | _ => exact ⟨_, rfl⟩

namespace Scope

variable (scope : Scope) (depth : Nat)

/-- A definition in place that raises no fault is finished, at the position returned. -/
theorem finished_of_resolve {d : Definition} {a : Arena} {id : TypeId}
    (h : (scope.resolve depth (.inline d) a).1.value = some id) :
    (scope.resolve depth (.inline d) a).2.state? (scope.key d) = some (.finished id) := by
  have hplaced := scope.resolve_placed depth d a
  generalize scope.resolve depth (.inline d) a = result at hplaced h ⊢
  cases hplaced with
  | shared id' hstate =>
    obtain rfl := Option.some.inj h
    rw [state?_share]
    exact hstate
  | inside hstate => cases h
  | tooDeep hstate hdeep => cases h
  | new name hstate hshallow =>
    obtain rfl := Option.some.inj h
    rw [Arena.state?_fill, if_pos rfl]

/-- A reference that raises no fault has a position. -/
theorem exists_value_of_resolve {r : Reference} {a : Arena}
    (h : (scope.resolve depth r a).1.faults = []) :
    ∃ id, (scope.resolve depth r a).1.value = some id := by
  cases r with
  | named name =>
    rw [resolve_named] at h ⊢
    exact ⟨_, by rw [scope.resolveName_of_mem (scope.referenceFaults_named.1 h)]; rfl⟩
  | inline d =>
    have hplaced := scope.resolve_placed depth d a
    generalize scope.resolve depth (.inline d) a = result at hplaced h ⊢
    cases hplaced with
    | shared id hstate => exact ⟨id, rfl⟩
    | inside hstate => cases h
    | tooDeep hstate hdeep => cases h
    | new name hstate hshallow => exact ⟨a.slots.length, rfl⟩

/-- References that raise no fault are where the arena then has them. -/
theorem resolveAll_located {rs : List Reference} {a : Arena}
    (h : (scope.resolveAll depth rs a).1.faults = []) :
    (scope.resolveAll depth rs a).1.value =
        rs.map (fun r =>
          some ((scope.resolveAll depth rs a).2.locate scope.digest scope.declared r)) ∧
      (scope.resolveAll depth rs a).2.Located scope.digest rs ∧
        rs.flatMap scope.referenceFaults = [] := by
  induction rs generalizing a with
  | nil => exact ⟨rfl, fun _ he => (by cases he), rfl⟩
  | cons r rs ih =>
    rw [resolveAll_cons] at h ⊢
    obtain ⟨hfirst, hrest⟩ := List.append_eq_nil_iff.1 h
    obtain ⟨hvalue, hlocated, hnames⟩ := ih hrest
    obtain ⟨id, hid⟩ := scope.exists_value_of_resolve depth hfirst
    have hgrows := scope.grows_resolveAll depth rs (scope.resolve depth r a).2
    cases r with
    | named name =>
      have hmem : name ∈ scope.declared := by
        rw [resolve_named] at hfirst
        exact scope.referenceFaults_named.1 hfirst
      refine ⟨?_, ?_, ?_⟩
      · simp only [List.map_cons, hvalue]
        rw [resolve_named, scope.resolveName_of_mem hmem]
        rfl
      · intro e he
        rcases List.mem_cons.1 he with he | he
        · cases he
        · exact hlocated e he
      · rw [List.flatMap_cons, scope.referenceFaults_named.2 hmem, hnames]
        rfl
    | inline d =>
      have hstate := hgrows.states _ _ (scope.finished_of_resolve depth hid)
      refine ⟨?_, ?_, ?_⟩
      · simp only [List.map_cons, hvalue, hid]
        rw [Arena.locate, Reference.locate]
        exact congrArg (· :: _) (congrArg some (Arena.positionOf_of_finished hstate).symm)
      · intro e he
        rcases List.mem_cons.1 he with he | he
        · cases he
          exact ⟨id, hstate⟩
        · exact hlocated e he
      · rw [List.flatMap_cons, hnames]
        rfl

/-- **A compile returns the linked content, or faults.** -/
theorem compile_links (d : Definition) (a : Arena) :
    ((scope.compile depth d a).1.faults ≠ [] ∧ (scope.compile depth d a).1.value = none) ∨
      (scope.compile depth d a).1.faults = [] ∧
        ∃ b, (scope.compile depth d a).1.value = some b ∧
          (scope.compile depth d a).2.Links scope.digest scope.declared d b := by
  obtain ⟨harena, hfaults, hfaulty, hlinked⟩ := scope.compile_report depth d a
  by_cases h : (scope.compile depth d a).1.faults = []
  · rw [h] at hfaults
    obtain ⟨hform, hreferences⟩ := List.append_eq_nil_iff.1 hfaults.nil_eq.symm
    obtain ⟨hvalue, hlocated, hnames⟩ := scope.resolveAll_located depth hreferences
    have hsound : ¬ d.LocalFault scope.declared := by
      rw [← scope.ownFaults_eq_nil_iff, ownFaults, hform, hnames]
      rfl
    obtain ⟨b, hb⟩ := Definition.exists_linked (fun source hd => hsound (.copy source hd))
      ((scope.compile depth d a).2.locate scope.digest scope.declared)
    refine Or.inr ⟨h, b, ?_, hsound, ?_, hb⟩
    · rw [← hb]
      refine hlinked _ (fun _ => rfl) ?_ h
      rw [hvalue, harena]
    · rw [harena]
      intro e he
      rcases Definition.mem_references.1 he with hclosed | hopen
      · exact absurd (.inPlace e hclosed) hsound
      · exact hlocated e hopen
  · exact Or.inl ⟨h, hfaulty h⟩

end Scope
/-! ## What is kept -/

namespace Arena

variable (digest : String → String) (declared : List TypeName) (within : List Definition)

/-- What the slot of a definition in place holds when the definition is finished: faults,
or its content. -/
structure Holds (a : Arena) (d : Definition) (slot : Slot) : Prop where
  faulty : slot.body = none → slot.faults ≠ []
  sound : ∀ b, slot.body = some b → slot.faults = [] ∧ a.Links digest declared d b

/-- A well-formed arena in which every finished slot holds what a definition in place has,
one of those that may be met. -/
structure Valid (a : Arena) : Prop extends a.WellFormed declared where
  holds : ∀ k id, a.state? k = some (.finished id) → ∃ d ∈ within, ∃ slot,
    digest d.canonical.text = k ∧ a.slot? id = some slot ∧ a.Holds digest declared d slot

variable {digest declared within} {a b : Arena}

theorem Holds.mono (hstates : a.Keeps b)
    {d : Definition} {s t : Slot} {owner : TypeName} (hgains : s.Gains owner t)
    (h : a.Holds digest declared d s) : b.Holds digest declared d t where
  faulty hnone := by
    rw [hgains.body] at hnone
    rw [hgains.faults]
    exact h.faulty hnone
  sound body hbody := by
    rw [hgains.body] at hbody
    obtain ⟨hfaults, hlinks⟩ := h.sound body hbody
    exact ⟨hgains.faults.trans hfaults, hlinks.mono hstates⟩

/-- What slots hold is not lost when the arena grows. -/
theorem Valid.holds_of_grows {owner : TypeName} (h : a.Valid digest declared within)
    (hgrows : a.Grows owner b) {k : String} {id : TypeId}
    (hk : a.state? k = some (.finished id)) : ∃ d ∈ within, ∃ slot,
      digest d.canonical.text = k ∧ b.slot? id = some slot ∧ b.Holds digest declared d slot := by
  obtain ⟨d, hd, slot, hkey, hslot, hholds⟩ := h.holds k id hk
  obtain ⟨slot', hslot', hgains⟩ := hgrows.slots id slot hslot
  exact ⟨d, hd, slot', hkey, hslot', hholds.mono hgrows.keeps hgains⟩

theorem Valid.reserve (h : a.Valid digest declared within) {k : String}
    (hk : a.state? k = none) (owner : TypeName) :
    (a.reserve owner k).Valid digest declared within where
  toWellFormed := h.toWellFormed.reserve hk owner
  holds l id hl := by
    have hkeeps : a.Keeps (a.reserve owner k) := by
      intro l' id' hl'
      have hne : l' ≠ k := by
        rintro rfl
        rw [hk] at hl'
        cases hl'
      rw [state?_reserve, if_neg hne, hl']
    rw [state?_reserve] at hl
    split at hl
    · cases hl
    · obtain ⟨d, hd, slot, hkey, hslot, hholds⟩ := h.holds l id hl
      exact ⟨d, hd, slot, hkey, (slot?_reserve_of_lt (lt_length_of_slot? hslot)).trans hslot,
        hholds.mono hkeeps (.refl owner slot)⟩

/-- A slot is filled with what compiling its definition has returned. -/
theorem Valid.fill (h : a.Valid digest declared within) {d : Definition} (hd : d ∈ within)
    {k : String} (hkey : digest d.canonical.text = k) (hprogress : a.state? k = some .inProgress)
    {id : Nat} (hid : id = declared.length + a.met.idxOf k) (name : TypeName)
    {body : Option Body} {faults : List Fault}
    (hcompiled : (faults ≠ [] ∧ body = none) ∨
      faults = [] ∧ ∃ c, body = some c ∧ a.Links digest declared d c) :
    (a.fill id k name body faults).Valid digest declared within where
  toWellFormed := h.toWellFormed.fill (h.met_of_finished hprogress) hid name body faults
  holds l id' hl := by
    have hkeeps : a.Keeps (a.fill id k name body faults) := by
      intro l' i hl'
      have hne : l' ≠ k := by
        rintro rfl
        rw [hprogress] at hl'
        cases hl'
      rw [state?_fill, if_neg hne, hl']
    rw [state?_fill] at hl
    split at hl
    · next heq =>
      cases hl
      have hlt : id < a.slots.length := by
        have hidx := List.idxOf_lt_length_of_mem (h.met_of_finished hprogress)
        rw [h.length]
        omega
      obtain ⟨slot, hslot⟩ := exists_slot? hlt
      refine ⟨d, hd, { slot with name, body, faults }, hkey.trans heq.symm, ?_, ?_⟩
      · rw [slot?_fill, if_pos rfl, hslot]
        rfl
      · rcases hcompiled with ⟨hfaults, hnone⟩ | ⟨hfaults, c, hbody, hlinks⟩
        · refine ⟨fun _ => hfaults, fun b hb => ?_⟩
          rw [hnone] at hb
          cases hb
        · refine ⟨fun hnone => ?_, fun b hb => ?_⟩
          · rw [hbody] at hnone
            cases hnone
          · rw [hbody] at hb
            obtain rfl := Option.some.inj hb
            exact ⟨hfaults, hlinks.mono hkeeps⟩
    · next hne =>
      obtain ⟨e, he, slot, hkey', hslot, hholds⟩ := h.holds l id' hl
      have hother := h.ne_of_finished hid hl hne
      refine ⟨e, he, slot, hkey', ?_, hholds.mono hkeeps (.refl name slot)⟩
      rw [slot?_fill, if_neg hother, hslot]

end Arena

namespace Scope

variable (scope : Scope) (within : List Definition)

theorem valid_runRelation :
    scope.RunRelation fun ds a _ b => ds ⊆ within →
      a.Valid scope.digest scope.declared within → b.Valid scope.digest scope.declared within where
  idle _ _ _ _ _ h := h
  trans h h' hsubset ha :=
    h' (fun _ he => hsubset (List.mem_append_right _ he))
      (h (fun _ he => hsubset (List.mem_append_left _ he)) ha)
  perm _ h := h
  place depth d a ih hsubset h := by
    have hwell := scope.wellFormed_runRelation.resolve depth (.inline d) a h.toWellFormed
    have hgrows := scope.grows_resolve depth (.inline d) a
    have hplaced := scope.resolve_placed depth d a
    generalize scope.resolve depth (.inline d) a = result at hwell hgrows hplaced ⊢
    cases hplaced with
    | shared id hstate =>
      refine ⟨hwell, fun k id' hk => ?_⟩
      rw [state?_share] at hk
      exact h.holds_of_grows hgrows hk
    | inside hstate => exact h
    | tooDeep hstate hdeep => exact h
    | new name hstate hshallow =>
      have hgrows' := scope.grows_compile (depth + 1) d (a.reserve scope.owner (scope.key d))
      have hprogress := hgrows'.states (scope.key d) .inProgress
        (by rw [Arena.state?_reserve, if_pos rfl])
      have hcompiled := ih _ (fun e he => hsubset (List.mem_cons_of_mem _ he))
        (h.reserve hstate scope.owner)
      exact hcompiled.fill (hsubset (List.mem_cons_self ..)) rfl hprogress
        (h.position_of_reserved hstate hgrows').2 name
        (scope.compile_links (depth + 1) d (a.reserve scope.owner (scope.key d)))

/-- **Compiles keep what slots hold.** -/
theorem valid_compile {within : List Definition} (depth : Nat) {d : Definition} {a : Arena}
    (hd : d.inlines ⊆ within) (h : a.Valid scope.digest scope.declared within) :
    (scope.compile depth d a).2.Valid scope.digest scope.declared within :=
  (scope.valid_runRelation within).compile d depth a hd h

end Scope

/-! ## One slot for all definitions with one canonical text -/

/-- Whether digests tell definitions with different canonical texts apart. -/
def Separates (digest : String → String) (ds : List Definition) : Prop :=
  ∀ d ∈ ds, ∀ e ∈ ds, digest d.canonical.text = digest e.canonical.text →
    d.canonical.text = e.canonical.text

namespace Arena

variable (digest : String → String) (declared : List TypeName)

/-- A content serves a definition: it is written as the definition's own content, with
references where the arena has them. -/
structure Realises (a : Arena) (d : Definition) (b : Body) : Prop where
  sound : ¬ d.LocalFault declared
  located : a.Located digest d.references
  linked : (d.linked (a.locate digest declared)).map Body.asWritten = some b.asWritten
  references : b.references = d.references.map (a.locate digest declared)

variable {digest declared} {a : Arena} {within : List Definition}

theorem Links.realises_of_text {d e : Definition} {b : Body} (h : a.Links digest declared d b)
    (htext : e.canonical.text = d.canonical.text) : a.Realises digest declared e b := by
  have hsound : ¬ e.LocalFault declared := by
    rw [Definition.localFault_congr htext]
    exact h.sound
  have hd := Definition.namesOnly_of_not_localFault h.sound
  have he := Definition.namesOnly_of_not_localFault hsound
  refine ⟨hsound, fun f hf => ?_, ?_, ?_⟩
  · obtain ⟨g, hg, hgf⟩ := Definition.exists_reference_of_text he hd htext hf
    obtain ⟨id, hid⟩ := h.located g hg
    rw [hgf] at hid
    exact ⟨id, hid⟩
  · have hlinked := Definition.linked_congr he hd htext declared.idxOf
      fun text => a.positionOf (digest text)
    exact hlinked.trans (congrArg (Option.map Body.asWritten) h.linked)
  · have hreferences := Definition.map_locate_references he hd htext declared.idxOf
      fun text => a.positionOf (digest text)
    exact (Definition.references_linked h.linked).trans hreferences.symm

/-- **One slot serves all.**  Every definition whose digest is finished finds its content
in the slot, or faults. -/
theorem Valid.realises (h : a.Valid digest declared within) (hseparates : Separates digest within)
    {d : Definition} (hd : d ∈ within) {id : TypeId}
    (hid : a.state? (digest d.canonical.text) = some (.finished id)) :
    ∃ slot, a.slot? id = some slot ∧ (slot.body = none → slot.faults ≠ []) ∧
      ∀ b, slot.body = some b → slot.faults = [] ∧ a.Realises digest declared d b := by
  obtain ⟨e, he, slot, hkey, hslot, hholds⟩ := h.holds _ id hid
  refine ⟨slot, hslot, hholds.faulty, fun b hb => ?_⟩
  obtain ⟨hfaults, hlinks⟩ := hholds.sound b hb
  exact ⟨hfaults, hlinks.realises_of_text (hseparates d hd e he hkey.symm)⟩

end Arena
end WireSchema
