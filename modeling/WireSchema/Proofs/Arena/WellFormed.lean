import WireSchema.Proofs.Resolution.Run

/-!
# Positions in an arena

The slots of the declared types come first, and behind them there is one slot for every
digest that has been met, in the order in which they were.  So the position of a
definition in place is known from its digest alone: it is as many places behind the
declared types as there were digests before it.

`Arena.WellFormed` says this of an arena.  It holds of the arena of the declared types and
of everything a compile makes of it (`Scope.wellFormed_compile`).
-/

namespace WireSchema
namespace Arena

/-- An arena over declared types, with a slot for every digest that has been met. -/
structure WellFormed (declared : List TypeName) (a : Arena) : Prop where
  /-- There is one slot for every declared name and for every digest. -/
  length : a.slots.length = declared.length + a.met.length
  /-- No digest has two slots. -/
  nodup : a.met.Nodup
  /-- A digest is known when it has been met. -/
  known : ∀ k, k ∈ a.met ↔ a.state? k ≠ none
  /-- A definition in place is where its digest says. -/
  finished : ∀ (k : String) (id : Nat), a.state? k = some (.finished id) →
    id = declared.length + a.met.idxOf k
  /-- The slots of the declared types are in order, each its own owner. -/
  declaredSlots : ∀ (i : Nat) (name : TypeName), declared[i]? = some name →
    ∃ slot, a.slot? i = some slot ∧ slot.name = name ∧ slot.owners = [name] ∧
      slot.anonymous = false
  /-- All others are anonymous. -/
  anonymousSlots : ∀ (id : Nat) (slot : Slot), declared.length ≤ id → a.slot? id = some slot →
    slot.anonymous = true

namespace WellFormed

variable {declared : List TypeName} {a b : Arena}

theorem met_of_finished (h : a.WellFormed declared) {k : String} {state : InlineState}
    (hk : a.state? k = some state) : k ∈ a.met := by
  rw [h.known, hk]
  exact Option.some_ne_none state

theorem lt_length (h : a.WellFormed declared) {k : String} {id : Nat}
    (hk : a.state? k = some (.finished id)) : id < a.slots.length := by
  have hidx := List.idxOf_lt_length_of_mem (h.met_of_finished hk)
  rw [h.finished k id hk, h.length]
  omega

theorem declared_le (h : a.WellFormed declared) {k : String} {id : Nat}
    (hk : a.state? k = some (.finished id)) : declared.length ≤ id := by
  rw [h.finished k id hk]
  exact Nat.le_add_right _ _

/-- The slot of one digest is not that of another. -/
theorem ne_of_finished (h : a.WellFormed declared) {k l : String} {id i : Nat}
    (hid : id = declared.length + a.met.idxOf k) (hl : a.state? l = some (.finished i))
    (hne : l ≠ k) : id ≠ i := by
  intro heq
  have hposition := h.finished l i hl
  exact hne ((List.idxOf_inj (h.met_of_finished hl)).1 (by omega))

/-- Two digests do not have one slot. -/
theorem eq_of_finished (h : a.WellFormed declared) {k l : String} {id : Nat}
    (hk : a.state? k = some (.finished id)) (hl : a.state? l = some (.finished id)) : l = k := by
  by_contra hne
  exact h.ne_of_finished (h.finished k id hk) hl hne rfl

/-- A slot is anonymous exactly if it is not among the first. -/
theorem anonymous_iff (h : a.WellFormed declared) {id : Nat} {slot : Slot}
    (hslot : a.slot? id = some slot) : slot.anonymous = true ↔ declared.length ≤ id := by
  refine ⟨fun hanonymous => ?_, fun hid => h.anonymousSlots id slot hid hslot⟩
  by_contra hlt
  obtain ⟨slot', hslot', -, -, hdeclared⟩ :=
    h.declaredSlots id _ (List.getElem?_eq_getElem (Nat.not_le.1 hlt))
  obtain rfl := Option.some.inj (hslot.symm.trans hslot')
  rw [hanonymous] at hdeclared
  cases hdeclared

/-- The only owner of a declared type is the type itself. -/
theorem position_of_owner (h : a.WellFormed declared) (hnodup : declared.Nodup) {id : Nat}
    {slot : Slot} (hslot : a.slot? id = some slot) (hdeclared : slot.anonymous = false)
    {owner : TypeName} (howner : owner ∈ slot.owners) : declared.idxOf owner = id := by
  have hlt : id < declared.length := by
    by_contra hle
    rw [(h.anonymous_iff hslot).2 (Nat.not_lt.1 hle)] at hdeclared
    cases hdeclared
  obtain ⟨slot', hslot', -, howners, -⟩ := h.declaredSlots id _ (List.getElem?_eq_getElem hlt)
  obtain rfl := Option.some.inj (hslot.symm.trans hslot')
  rw [howners, List.mem_singleton] at howner
  rw [howner, hnodup.idxOf_getElem]

/-- Every other slot is that of a digest. -/
theorem exists_met (h : a.WellFormed declared) {id : Nat} (hid : declared.length ≤ id)
    (hlt : id < a.slots.length) : ∃ k ∈ a.met, id = declared.length + a.met.idxOf k := by
  rw [h.length] at hlt
  have hindex : id - declared.length < a.met.length := by omega
  refine ⟨a.met[id - declared.length], List.getElem_mem hindex, ?_⟩
  rw [h.nodup.idxOf_getElem]
  omega

/-- The arena of the declared types. -/
theorem ofDeclared (declared : List TypeName) :
    (Arena.ofDeclared declared).WellFormed declared where
  length := by simp [Arena.ofDeclared, Arena.met]
  nodup := List.nodup_nil
  known k := by simp [Arena.ofDeclared, Arena.met, state?]
  finished k id hk := by cases hk
  declaredSlots i name hname := by
    refine ⟨⟨name, [name], false, none, []⟩, ?_, rfl, rfl, rfl⟩
    rw [slot?, Arena.ofDeclared, List.getElem?_map, hname]
    rfl
  anonymousSlots id slot hid hslot := by
    have hlt := lt_length_of_slot? hslot
    rw [Arena.ofDeclared, List.length_map] at hlt
    exact absurd hlt (Nat.not_lt.2 hid)

/-- Growth without new slots keeps an arena well-formed. -/
theorem of_grows {owner : TypeName} (h : a.WellFormed declared) (hgrows : a.Grows owner b)
    (hstates : ∀ k, b.state? k = a.state? k) (hmet : b.met = a.met)
    (hlength : b.slots.length = a.slots.length) : b.WellFormed declared where
  length := by rw [hlength, hmet, h.length]
  nodup := hmet ▸ h.nodup
  known k := by rw [hmet, hstates, h.known]
  finished k id hk := by
    rw [hstates] at hk
    rw [hmet, h.finished k id hk]
  declaredSlots i name hname := by
    obtain ⟨slot, hslot, hrest⟩ := h.declaredSlots i name hname
    obtain ⟨slot', hslot', hgains⟩ := hgrows.slots i slot hslot
    obtain rfl := hgains.of_declared hrest.2.2
    exact ⟨slot', hslot', hrest⟩
  anonymousSlots id slot' hid hslot' := by
    obtain ⟨slot, hslot, hgains⟩ :=
      hgrows.exists_slot (hlength ▸ lt_length_of_slot? hslot') hslot'
    rw [hgains.anonymous]
    exact h.anonymousSlots id slot hid hslot

/-- A new digest gets the next slot. -/
theorem reserve (h : a.WellFormed declared) {k : String} (hk : a.state? k = none)
    (owner : TypeName) : (a.reserve owner k).WellFormed declared where
  length := by
    rw [length_reserve, met_reserve, List.length_append, h.length]
    rfl
  nodup := by
    have hnew : k ∉ a.met := fun hmem => (h.known k).1 hmem hk
    rw [met_reserve, List.nodup_append]
    refine ⟨h.nodup, List.nodup_singleton k, ?_⟩
    rintro x hx y hy rfl
    exact hnew (List.mem_singleton.1 hy ▸ hx)
  known l := by
    rw [met_reserve, List.mem_append, List.mem_singleton, state?_reserve, h.known]
    split <;> simp_all
  finished l id hl := by
    rw [state?_reserve] at hl
    split at hl
    · cases hl
    · rw [met_reserve, List.idxOf_append_of_mem (h.met_of_finished hl), h.finished l id hl]
  declaredSlots i name hname := by
    obtain ⟨slot, hslot, hrest⟩ := h.declaredSlots i name hname
    exact ⟨slot, (slot?_reserve_of_lt (lt_length_of_slot? hslot)).trans hslot, hrest⟩
  anonymousSlots id slot hid hslot := by
    rcases slot_of_reserve hslot with hslot | ⟨-, rfl⟩
    · exact h.anonymousSlots id slot hid hslot
    · rfl

/-- A slot is filled where its digest says. -/
theorem fill (h : a.WellFormed declared) {k : String} (hk : k ∈ a.met) {id : Nat}
    (hid : id = declared.length + a.met.idxOf k) (name : TypeName) (body : Option Body)
    (faults : List Fault) : (a.fill id k name body faults).WellFormed declared where
  length := by rw [length_fill, met_fill, h.length]
  nodup := by
    rw [met_fill]
    exact h.nodup
  known l := by
    rw [met_fill, state?_fill, h.known]
    split
    · next heq =>
      subst heq
      simp [(h.known l).1 hk]
    · exact Iff.rfl
  finished l id' hl := by
    rw [state?_fill] at hl
    rw [met_fill]
    split at hl
    · next heq =>
      subst heq
      cases hl
      exact hid
    · exact h.finished l id' hl
  declaredSlots i name' hname := by
    obtain ⟨slot, hslot, hrest⟩ := h.declaredSlots i name' hname
    have hlt : i < declared.length := (List.getElem?_eq_some_iff.1 hname).1
    refine ⟨slot, ?_, hrest⟩
    have hne : id ≠ i := by omega
    rw [slot?_fill, if_neg hne, hslot]
  anonymousSlots i slot hi hslot := by
    rw [slot?_fill] at hslot
    split at hslot
    · obtain ⟨slot', hslot', rfl⟩ := Option.map_eq_some_iff.1 hslot
      exact h.anonymousSlots i slot' hi hslot'
    · exact h.anonymousSlots i slot hi hslot

/-- The content of a declared type makes no difference. -/
theorem modify_body (h : a.WellFormed declared) (id : Nat) (body : Option Body) :
    (a.modify id fun s => { s with body }).WellFormed declared where
  length := by rw [length_modify, met_modify, h.length]
  nodup := h.nodup
  known := h.known
  finished := h.finished
  declaredSlots i name hname := by
    obtain ⟨slot, hslot, hrest⟩ := h.declaredSlots i name hname
    rw [slot?_modify, hslot]
    split
    · exact ⟨_, rfl, hrest⟩
    · exact ⟨_, rfl, hrest⟩
  anonymousSlots i slot hi hslot := by
    rw [slot?_modify] at hslot
    split at hslot
    · obtain ⟨slot', hslot', rfl⟩ := Option.map_eq_some_iff.1 hslot
      exact h.anonymousSlots i slot' hi hslot'
    · exact h.anonymousSlots i slot hi hslot

/-- The slot that has been reserved for a digest is where the digest says. -/
theorem position_of_reserved {owner : TypeName} {k : String} (h : a.WellFormed declared)
    (hk : a.state? k = none) (hgrows : (a.reserve owner k).Grows owner b) :
    k ∈ b.met ∧ a.slots.length = declared.length + b.met.idxOf k := by
  have hnew : k ∉ a.met := fun hmem => (h.known k).1 hmem hk
  obtain ⟨rest, hmet⟩ := hgrows.met
  rw [met_reserve] at hmet
  have hmem : k ∈ a.met ++ [k] := List.mem_append_right _ (List.mem_singleton_self k)
  rw [← hmet]
  refine ⟨List.mem_append_left _ hmem, ?_⟩
  rw [List.idxOf_append_of_mem hmem, List.idxOf_append_of_notMem hnew, h.length]
  simp

/-! ### Finished slots, seen from behind

What is finished after a step of a compile was finished before, in the same slot, or it is
what the step has finished. -/

theorem finished_of_reserve (h : a.WellFormed declared) {owner : TypeName} {k l : String}
    {id : Nat} {slot : Slot} (hl : (a.reserve owner k).state? l = some (.finished id))
    (hslot : (a.reserve owner k).slot? id = some slot) :
    a.state? l = some (.finished id) ∧ a.slot? id = some slot := by
  rw [state?_reserve] at hl
  split at hl
  · cases hl
  · rw [slot?_reserve_of_lt (h.lt_length hl)] at hslot
    exact ⟨hl, hslot⟩

theorem finished_of_share (h : a.WellFormed declared) {owner : TypeName} {fuel i id : Nat}
    {l : String} {slot : Slot}
    (hl : (share owner fuel i a).2.state? l = some (.finished id))
    (hslot : (share owner fuel i a).2.slot? id = some slot) :
    a.state? l = some (.finished id) ∧ ∃ s, a.slot? id = some s ∧ s.Gains owner slot := by
  rw [state?_share] at hl
  exact ⟨hl, (grows_share owner fuel i a).exists_slot (h.lt_length hl) hslot⟩

theorem finished_of_fill (h : a.WellFormed declared) {k l : String} {id i : Nat} {slot : Slot}
    {name : TypeName} {body : Option Body} {faults : List Fault}
    (hid : id = declared.length + a.met.idxOf k)
    (hl : (a.fill id k name body faults).state? l = some (.finished i))
    (hslot : (a.fill id k name body faults).slot? i = some slot) :
    l = k ∧ slot.body = body ∧ slot.faults = faults ∨
      a.state? l = some (.finished i) ∧ a.slot? i = some slot := by
  rw [state?_fill] at hl
  rw [slot?_fill] at hslot
  by_cases hkey : l = k
  · rw [if_pos hkey] at hl
    obtain rfl := InlineState.finished.inj (Option.some.inj hl)
    rw [if_pos rfl] at hslot
    obtain ⟨s, -, rfl⟩ := Option.map_eq_some_iff.1 hslot
    exact Or.inl ⟨hkey, rfl, rfl⟩
  · rw [if_neg hkey] at hl
    rw [if_neg (h.ne_of_finished hid hl hkey)] at hslot
    exact Or.inr ⟨hl, hslot⟩

end WellFormed
end Arena

namespace Scope

variable (scope : Scope)

theorem wellFormed_runRelation :
    scope.RunRelation fun _ a _ b => a.WellFormed scope.declared → b.WellFormed scope.declared where
  idle _ a _ _ h := h
  trans h h' := h' ∘ h
  perm _ h := h
  place depth d a ih h := by
    have hplaced := scope.resolve_placed depth d a
    generalize scope.resolve depth (.inline d) a = result at hplaced ⊢
    cases hplaced with
    | shared id hstate =>
      exact h.of_grows (grows_share scope.owner _ id a) (fun k => state?_share ..)
        (met_share ..) (length_share ..)
    | inside hstate => exact h
    | tooDeep hstate hdeep => exact h
    | new name hstate hshallow =>
      have hgrows := scope.grows_compile (depth + 1) d (a.reserve scope.owner (scope.key d))
      obtain ⟨hmem, hposition⟩ := h.position_of_reserved hstate hgrows
      exact (ih _ (h.reserve hstate scope.owner)).fill hmem hposition name _ _

/-- **Compiles keep arenas well-formed.** -/
theorem wellFormed_compile (depth : Nat) (d : Definition) {a : Arena}
    (h : a.WellFormed scope.declared) : (scope.compile depth d a).2.WellFormed scope.declared :=
  scope.wellFormed_runRelation.compile d depth a h

end Scope
end WireSchema
