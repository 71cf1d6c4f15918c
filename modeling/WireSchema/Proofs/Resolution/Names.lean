import WireSchema.Proofs.Arena.FreeNames
import WireSchema.Proofs.Arena.WellFormed

/-!
# Names of definitions in place

A definition in place is nameless for as long as it is being compiled, and several may be so
at once, one inside the other.  Only then it gets a name, and the name may be made of those of
the types that it refers to.  So names are told apart in an arena except where one is still
missing: `Arena.Named` is this invariant, and compiles keep it (`Scope.named_compile`).

A type is named once.  The name is not empty and no type has it at that time, neither a
declared one, which may be called anything, nor one that has been named before.
-/

namespace WireSchema

/-! ## A free name is a name -/

theorem length_structuralName?_pos {nameOf : TypeId → TypeName} {body : Body} {name : TypeName}
    (h : structuralName? nameOf body = some name) : 0 < name.length := by
  have hlink : "Link__".length = 6 := rfl
  have hlist : "List__".length = 6 := rfl
  have hmap : "Map__".length = 5 := rfl
  cases body with
  | link target =>
    cases target with
    | none =>
      obtain rfl := Option.some.inj h
      decide
    | some target =>
      obtain rfl := Option.some.inj h
      simp only [String.length_append]
      omega
  | list value valueNullable =>
    obtain rfl := Option.some.inj h
    simp only [String.length_append]
    omega
  | map key value valueNullable layout =>
    obtain rfl := Option.some.inj h
    simp only [String.length_append]
    omega
  | _ => cases h

/-- The name that a definition in place gets is not empty. -/
theorem Arena.freeName_ne_empty (a : Arena) (keyword : String) (body : Option Body)
    (digest : String) : a.freeName keyword body digest ≠ "" := by
  have hanonymous : "Anon".length = 4 := rfl
  have hbase : 0 < (a.baseName keyword body digest).length := by
    rw [baseName]
    cases hname : body.bind (structuralName? a.nameOf) with
    | none =>
      simp only [Option.getD_none, String.length_append]
      omega
    | some name =>
      obtain ⟨b, -, hb⟩ := Option.bind_eq_some_iff.1 hname
      exact length_structuralName?_pos hb
  obtain ⟨j, -, hj, -⟩ := a.exists_freeName_eq keyword body digest
  intro h
  have hlength := congrArg String.length (hj.symm.trans h)
  rcases j with _ | _ | j <;>
  · simp only [candidates, nameCandidate, numbered, String.length_append, String.length_empty]
      at hlength
    omega

/-! ## Arenas whose types are named -/

/-- A definition in place without a name. -/
def Slot.Nameless (slot : Slot) : Prop :=
  slot.anonymous = true ∧ slot.name = ""

namespace Arena

/-- Names tell types apart, but for those that are nameless, and what is finished is named. -/
structure Named (a : Arena) : Prop where
  distinct : ∀ (i j : Nat) (s t : Slot), a.slot? i = some s → a.slot? j = some t →
    s.name = t.name → i = j ∨ s.Nameless ∨ t.Nameless
  finished : ∀ (k : String) (id : Nat) (slot : Slot), a.state? k = some (.finished id) →
    a.slot? id = some slot → slot.name ≠ ""

namespace Named

variable {declared : List TypeName} {a b : Arena}

theorem ofDeclared (hnodup : declared.Nodup) : (Arena.ofDeclared declared).Named where
  distinct i j s t hs ht hname := by
    rw [slot?, Arena.ofDeclared, List.getElem?_map] at hs ht
    obtain ⟨x, hx, rfl⟩ := Option.map_eq_some_iff.1 hs
    obtain ⟨y, hy, rfl⟩ := Option.map_eq_some_iff.1 ht
    obtain ⟨hi, rfl⟩ := List.getElem?_eq_some_iff.1 hx
    obtain ⟨hj, rfl⟩ := List.getElem?_eq_some_iff.1 hy
    exact Or.inl ((hnodup.getElem_inj_iff).1 hname)
  finished k id slot hk := by cases hk

/-- Changes that keep names and digests keep types named. -/
theorem of_slots (h : a.Named)
    (hslots : ∀ (i : Nat) (t : Slot), b.slot? i = some t → ∃ s, a.slot? i = some s ∧
      t.name = s.name ∧ t.anonymous = s.anonymous)
    (hstates : ∀ k, b.state? k = a.state? k) : b.Named where
  distinct i j s t hs ht hname := by
    obtain ⟨s', hs', hsname, hsanonymous⟩ := hslots i s hs
    obtain ⟨t', ht', htname, htanonymous⟩ := hslots j t ht
    have hdistinct := h.distinct i j s' t' hs' ht' (by rw [← hsname, hname, htname])
    rwa [Slot.Nameless, Slot.Nameless, ← hsname, ← hsanonymous, ← htname, ← htanonymous]
      at hdistinct
  finished k id t hk ht := by
    obtain ⟨s, hs, hname, -⟩ := hslots id t ht
    rw [hname]
    exact h.finished k id s (hstates k ▸ hk) hs

theorem share (h : a.Named) (owner : TypeName) (fuel id : Nat) :
    (WireSchema.share owner fuel id a).2.Named := by
  have hgrows := grows_share owner fuel id a
  refine h.of_slots (fun i t ht => ?_) fun k => state?_share ..
  have hlt := lt_length_of_slot? ht
  rw [length_share] at hlt
  obtain ⟨s, hs, hgains⟩ := hgrows.exists_slot hlt ht
  exact ⟨s, hs, hgains.name, hgains.anonymous⟩

theorem modify_body (h : a.Named) (id : Nat) (body : Option Body) :
    (a.modify id fun s => { s with body }).Named := by
  refine h.of_slots (fun i t ht => ?_) fun k => rfl
  rw [slot?_modify] at ht
  split at ht
  · obtain ⟨s, hs, rfl⟩ := Option.map_eq_some_iff.1 ht
    exact ⟨s, hs, rfl, rfl⟩
  · exact ⟨t, ht, rfl, rfl⟩

/-- A new slot is nameless. -/
theorem reserve (h : a.Named) (ha : a.WellFormed declared) (owner : TypeName) (k : String) :
    (a.reserve owner k).Named where
  distinct i j s t hs ht hname := by
    rcases slot_of_reserve hs with hs | ⟨-, rfl⟩
    · rcases slot_of_reserve ht with ht | ⟨-, rfl⟩
      · exact h.distinct i j s t hs ht hname
      · exact Or.inr (Or.inr ⟨rfl, rfl⟩)
    · exact Or.inr (Or.inl ⟨rfl, rfl⟩)
  finished l id slot hl hslot := by
    obtain ⟨hl, hslot⟩ := ha.finished_of_reserve hl hslot
    exact h.finished l id slot hl hslot

/-- A slot gets a name that no type has. -/
theorem fill (h : a.Named) {name : TypeName} (hname : name ≠ "") (hfree : a.isTaken name = false)
    (id : Nat) (k : String) (body : Option Body) (faults : List Fault) :
    (a.fill id k name body faults).Named := by
  have hnew : ∀ (i : Nat) (s : Slot), a.slot? i = some s → s.name ≠ name := by
    intro i s hs heq
    rw [isTaken, List.any_eq_false] at hfree
    exact hfree s (List.mem_of_getElem? hs) (decide_eq_true heq)
  have hslot : ∀ {i : Nat} {t : Slot}, (a.fill id k name body faults).slot? i = some t →
      i = id ∧ t.name = name ∨ i ≠ id ∧ a.slot? i = some t := by
    intro i t ht
    rw [slot?_fill] at ht
    split at ht
    · next heq =>
      obtain ⟨s, -, rfl⟩ := Option.map_eq_some_iff.1 ht
      exact Or.inl ⟨heq.symm, rfl⟩
    · next hne => exact Or.inr ⟨Ne.symm hne, ht⟩
  constructor
  case distinct =>
    intro i j s t hs ht hst
    rcases hslot hs with ⟨rfl, hsname⟩ | ⟨-, hs⟩
    · rcases hslot ht with ⟨rfl, -⟩ | ⟨-, ht⟩
      · exact Or.inl rfl
      · exact absurd (hst.symm.trans hsname) (hnew j t ht)
    · rcases hslot ht with ⟨-, htname⟩ | ⟨-, ht⟩
      · exact absurd (hst.trans htname) (hnew i s hs)
      · exact h.distinct i j s t hs ht hst
  case finished =>
    intro l i t hl ht
    rcases hslot ht with ⟨-, htname⟩ | ⟨hne, ht⟩
    · rwa [htname]
    · rw [state?_fill] at hl
      split at hl
      · exact absurd (InlineState.finished.inj (Option.some.inj hl)).symm hne
      · exact h.finished l i t hl ht

end Named
end Arena

/-! ## Compiles keep types named -/

namespace Scope

variable (scope : Scope)

/-- A definition that is met for the first time is compiled into a slot of its own, which then
gets a free name. -/
theorem resolve_new {depth : Nat} {d : Definition} {a : Arena}
    (hstate : a.state? (scope.key d) = none) (hshallow : depth < scope.settings.maxInlineDepth) :
    (scope.resolve depth (.inline d) a).2 =
      let compiled := scope.compile (depth + 1) d (a.reserve scope.owner (scope.key d))
      compiled.2.fill a.slots.length (scope.key d)
        (compiled.2.freeName d.keyword compiled.1.value (scope.key d)) compiled.1.value
        compiled.1.faults := by
  have hdepth : ¬ scope.settings.maxInlineDepth ≤ depth := Nat.not_le.2 hshallow
  rw [key] at hstate
  simp only [resolve_inline, place, hstate, if_neg hdepth]
  rfl

theorem named_runRelation :
    scope.RunRelation fun _ a _ b => a.WellFormed scope.declared → a.Named →
      b.WellFormed scope.declared ∧ b.Named where
  idle _ a _ _ ha h := ⟨ha, h⟩
  trans h h' ha hnamed := (h ha hnamed).elim h'
  perm _ h := h
  place depth d a ih ha h := by
    refine ⟨scope.wellFormed_runRelation.resolve depth (.inline d) a ha, ?_⟩
    have hplaced := scope.resolve_placed depth d a
    generalize hresult : scope.resolve depth (.inline d) a = result at hplaced ⊢
    cases hplaced with
    | shared id hstate => exact h.share scope.owner _ id
    | inside hstate => exact h
    | tooDeep hstate hdeep => exact h
    | new name hstate hshallow =>
      have hnew := scope.resolve_new hstate hshallow
      obtain ⟨-, hnamed⟩ := ih _ (ha.reserve hstate scope.owner) (h.reserve ha scope.owner _)
      rw [hresult] at hnew
      rw [hnew]
      exact hnamed.fill (Arena.freeName_ne_empty _ _ _ _) (Arena.isTaken_freeName ..) _ _ _ _

/-- **Compiles keep types named.** -/
theorem named_compile (depth : Nat) (d : Definition) {a : Arena}
    (ha : a.WellFormed scope.declared) (h : a.Named) : (scope.compile depth d a).2.Named :=
  (scope.named_runRelation.compile d depth a ha h).2

end Scope
end WireSchema
