import WireSchema.Proofs.Resolution.Content

/-!
# The order in which definitions in place are met

A compile without faults meets every definition in place that its declaration contains, and
reserves slots for the new ones in the order in which a reader comes to them.  So behind
the declared types the arena has one slot for every different digest, in the order of
first occurrences (`Scope.meets_compile`).

A definition that has a slot already is not looked into again.  That nothing is missed by
this is because all that it contains has a slot as well (`Arena.Valid.finished_inlines`),
provided that no slot so far was left empty: a faulty definition may have been given up
before all of it was seen.  A compile without faults leaves none empty
(`Scope.completes_compile`).
-/

namespace WireSchema

/-! ## First occurrences -/

section

variable {α : Type} [DecidableEq α]

theorem mem_firstsAfter {x : α} {xs before : List α} :
    x ∈ firstsAfter before xs ↔ x ∈ xs ∧ x ∉ before := by
  induction xs generalizing before with
  | nil => simp [firstsAfter]
  | cons y ys ih =>
    rw [firstsAfter]
    split
    · rw [ih]
      grind
    · rw [List.mem_cons, ih]
      grind

theorem nodup_firstsAfter (xs before : List α) : (firstsAfter before xs).Nodup := by
  induction xs generalizing before with
  | nil => exact List.nodup_nil
  | cons y ys ih =>
    rw [firstsAfter]
    split
    · exact ih before
    · rw [List.nodup_cons]
      refine ⟨fun h => ?_, ih _⟩
      exact (mem_firstsAfter.1 h).2 (List.mem_cons_self ..)

theorem firstsAfter_congr {xs before before' : List α} (h : ∀ x, x ∈ before ↔ x ∈ before') :
    firstsAfter before xs = firstsAfter before' xs := by
  induction xs generalizing before before' with
  | nil => rfl
  | cons y ys ih =>
    have hcons : ∀ x, x ∈ y :: before ↔ x ∈ y :: before' := by
      intro x
      rw [List.mem_cons, List.mem_cons, h]
    simp only [firstsAfter, h, ih h, ih hcons]

theorem firstsAfter_append {xs ys before : List α} :
    firstsAfter before (xs ++ ys) =
      firstsAfter before xs ++ firstsAfter (before ++ firstsAfter before xs) ys := by
  induction xs generalizing before with
  | nil => simp [firstsAfter]
  | cons x xs ih =>
    rw [List.cons_append, firstsAfter, firstsAfter]
    split
    · exact ih
    · rw [ih, List.cons_append]
      congr 2
      refine firstsAfter_congr fun z => ?_
      simp only [List.mem_append, List.mem_cons]
      tauto

theorem firstsAfter_eq_nil {xs before : List α} (h : ∀ x ∈ xs, x ∈ before) :
    firstsAfter before xs = [] := by
  rw [List.eq_nil_iff_forall_not_mem]
  intro x hx
  obtain ⟨hmem, hnew⟩ := mem_firstsAfter.1 hx
  exact hnew (h x hmem)

/-- Where nothing recurs every occurrence is a first one. -/
theorem firstsAfter_eq_self {xs before : List α} (hnodup : xs.Nodup)
    (hnew : ∀ x ∈ xs, x ∉ before) : firstsAfter before xs = xs := by
  induction xs generalizing before with
  | nil => rfl
  | cons x xs ih =>
    rw [List.nodup_cons] at hnodup
    rw [firstsAfter, if_neg (hnew x (List.mem_cons_self ..)), ih hnodup.2]
    intro y hy hmem
    rcases List.mem_cons.1 hmem with rfl | hmem
    · exact hnodup.1 hy
    · exact hnew y (List.mem_cons_of_mem _ hy) hmem

theorem repeatsAfter_eq_nil_iff {xs before : List α} :
    repeatsAfter before xs = [] ↔ xs.Nodup ∧ ∀ x ∈ xs, x ∉ before := by
  induction xs generalizing before with
  | nil => simp [repeatsAfter]
  | cons x xs ih =>
    rw [repeatsAfter]
    split
    · next h => simp [h]
    · next h =>
      rw [ih]
      grind

/-- First occurrences are not changed by a map that tells the elements apart. -/
theorem firstsAfter_map {β : Type} [DecidableEq β] {f : α → β} (xs before : List α)
    (h : ∀ x ∈ xs ++ before, ∀ y ∈ xs ++ before, f x = f y → x = y) :
    firstsAfter (before.map f) (xs.map f) = (firstsAfter before xs).map f := by
  induction xs generalizing before with
  | nil => rfl
  | cons x xs ih =>
    have hmem : f x ∈ before.map f ↔ x ∈ before := by
      refine ⟨fun hfx => ?_, fun hx => List.mem_map_of_mem hx⟩
      obtain ⟨y, hy, heq⟩ := List.mem_map.1 hfx
      have hxy := h y (List.mem_append_right _ hy) x (List.mem_cons_self ..) heq
      exact hxy ▸ hy
    rw [List.map_cons, firstsAfter, firstsAfter]
    by_cases hx : x ∈ before
    · rw [if_pos (hmem.2 hx), if_pos hx]
      refine ih before fun y hy z hz => h y ?_ z ?_
      · exact List.mem_cons_of_mem _ hy
      · exact List.mem_cons_of_mem _ hz
    · rw [if_neg (fun hfx => hx (hmem.1 hfx)), if_neg hx, List.map_cons, ← List.map_cons]
      congr 1
      refine ih (x :: before) fun y hy z hz => h y ?_ z ?_
      · simpa [or_left_comm] using hy
      · simpa [or_left_comm] using hz

theorem idxOf_map_of_inj {β : Type} [DecidableEq β] {f : α → β} {x : α} {xs : List α}
    (h : ∀ y ∈ xs, f y = f x → y = x) : (xs.map f).idxOf (f x) = xs.idxOf x := by
  induction xs with
  | nil => rfl
  | cons y ys ih =>
    have hrest := ih fun z hz => h z (List.mem_cons_of_mem _ hz)
    rw [List.map_cons, List.idxOf_cons, List.idxOf_cons, hrest]
    by_cases hy : y = x
    · rw [hy, beq_self_eq_true, beq_self_eq_true]
    · rw [beq_false_of_ne hy, beq_false_of_ne fun hfy => hy (h y (List.mem_cons_self ..) hfy)]

end

/-! ## Nothing is missed -/

namespace Arena

/-- Whether no finished slot is empty. -/
def Complete (a : Arena) : Prop :=
  ∀ k id slot, a.state? k = some (.finished id) → a.slot? id = some slot → slot.body ≠ none

variable {digest : String → String} {declared : List TypeName} {within : List Definition}
  {a : Arena}

theorem Complete.reserve (h : a.WellFormed declared) (hcomplete : a.Complete) (owner : TypeName)
    (k : String) : (a.reserve owner k).Complete := by
  intro l id slot hl hslot
  obtain ⟨hl', hslot'⟩ := h.finished_of_reserve hl hslot
  exact hcomplete l id slot hl' hslot'

theorem Complete.share (h : a.WellFormed declared) (hcomplete : a.Complete) (owner : TypeName)
    (fuel id : Nat) : (share owner fuel id a).2.Complete := by
  intro l i slot hl hslot
  obtain ⟨hl', s, hs, hgains⟩ := h.finished_of_share hl hslot
  rw [hgains.body]
  exact hcomplete l i s hl' hs

theorem Complete.fill (h : a.WellFormed declared) (hcomplete : a.Complete) {k : String} {id : Nat}
    (hid : id = declared.length + a.met.idxOf k) (name : TypeName) {body : Option Body}
    (hbody : body ≠ none) (faults : List Fault) : (a.fill id k name body faults).Complete := by
  intro l i slot hl hslot
  rcases h.finished_of_fill hid hl hslot with ⟨-, hfilled, -⟩ | ⟨hl', hslot'⟩
  · rw [hfilled]
    exact hbody
  · exact hcomplete l i slot hl' hslot'

/-- In a complete arena, with a definition everything is finished that it contains. -/
theorem Valid.finished_inlines (h : a.Valid digest declared within)
    (hseparates : Separates digest within) (hcomplete : a.Complete) {d : Definition}
    (hd : d ∈ within) (hinlines : d.inlines ⊆ within) {id : TypeId}
    (hid : a.state? (digest d.canonical.text) = some (.finished id)) :
    ∀ e ∈ d.inlines, ∃ i, a.state? (digest e.canonical.text) = some (.finished i) := by
  have hlocated : ∀ e ∈ within, (∃ i, a.state? (digest e.canonical.text) = some (.finished i)) →
      a.Located digest e.references := by
    rintro e he ⟨i, hi⟩
    obtain ⟨slot, hslot, -, hbody⟩ := h.realises hseparates he hi
    obtain ⟨b, hb⟩ := Option.ne_none_iff_exists'.1 (hcomplete _ i slot hi hslot)
    exact (hbody b hb).2.located
  refine Definition.forall_mem_inlines (hlocated d hd ⟨id, hid⟩) fun e he hfinished => ?_
  exact hlocated e (hinlines he) hfinished

end Arena

namespace Scope

variable (scope : Scope)

/-- A run without faults leaves nothing empty.  What has been finished need not be looked at again,
so this does not depend on digests. -/
theorem completes_runRelation :
    scope.RunRelation fun _ a faults b => a.WellFormed scope.declared →
      b.WellFormed scope.declared ∧ (a.Complete → faults = [] → b.Complete) where
  idle _ _ _ _ h := ⟨h, fun hcomplete _ => hcomplete⟩
  trans := by
    intro ds es a faults b faults' c h h' ha
    obtain ⟨hb, hfirst⟩ := h ha
    obtain ⟨hc, hrest⟩ := h' hb
    refine ⟨hc, fun hcomplete hfaults => ?_⟩
    obtain ⟨hnil, hnil'⟩ := List.append_eq_nil_iff.1 hfaults
    exact hrest (hfirst hcomplete hnil) hnil'
  perm := by
    intro ds a faults faults' b hperm h ha
    obtain ⟨hb, hcompletes⟩ := h ha
    refine ⟨hb, fun hcomplete hfaults => hcompletes hcomplete ?_⟩
    rw [hfaults] at hperm
    exact hperm.eq_nil
  place depth d a ih h := by
    have hwellFormed := scope.wellFormed_runRelation.resolve depth (.inline d) a h
    have hplaced := scope.resolve_placed depth d a
    generalize scope.resolve depth (.inline d) a = result at hwellFormed hplaced ⊢
    refine ⟨hwellFormed, fun hcomplete hfaults => ?_⟩
    cases hplaced with
    | shared id hstate => exact hcomplete.share h _ _ _
    | inside hstate => cases hfaults
    | tooDeep hstate hdeep => cases hfaults
    | new name hstate hshallow =>
      have hgrows := scope.grows_compile (depth + 1) d (a.reserve scope.owner (scope.key d))
      obtain ⟨hcompiled, hcompletes⟩ := ih _ (h.reserve hstate scope.owner)
      have hcomplete' := hcompletes (hcomplete.reserve h scope.owner (scope.key d)) hfaults
      have hbody : (scope.compile (depth + 1) d
          (a.reserve scope.owner (scope.key d))).1.value ≠ none := by
        rcases scope.compile_links (depth + 1) d (a.reserve scope.owner (scope.key d)) with
          ⟨hne, -⟩ | ⟨-, b, hb, -⟩
        · exact absurd hfaults hne
        · rw [hb]
          exact Option.some_ne_none b
      exact hcomplete'.fill hcompiled (h.position_of_reserved hstate hgrows).2 name hbody _

theorem completes_compile (depth : Nat) (d : Definition) {a : Arena}
    (h : a.WellFormed scope.declared) (hcomplete : a.Complete)
    (hfaults : (scope.compile depth d a).1.faults = []) : (scope.compile depth d a).2.Complete :=
  (scope.completes_runRelation.compile d depth a h).2 hcomplete hfaults

variable (within : List Definition)

/-- A run without faults from a complete arena leaves a complete one, in which what it has
met stands behind what was there. -/
structure Meets (ds : List Definition) (a b : Arena) : Prop where
  complete : b.Complete
  met : b.met = a.met ++ firstsAfter a.met (ds.map scope.key)

theorem meets_runRelation (hseparates : Separates scope.digest within) :
    scope.RunRelation fun ds a faults b => ds ⊆ within →
      a.Valid scope.digest scope.declared within →
        b.Valid scope.digest scope.declared within ∧
          (a.Complete → faults = [] → scope.Meets ds a b) where
  idle ds a faults hidle _ h := by
    refine ⟨h, fun hcomplete hfaults => ⟨hcomplete, ?_⟩⟩
    rcases hidle with rfl | hne
    · rw [List.map_nil, firstsAfter, List.append_nil]
    · exact absurd hfaults hne
  trans := by
    intro ds es a faults b faults' c h h' hsubset ha
    obtain ⟨hb, hfirst⟩ := h (fun _ he => hsubset (List.mem_append_left _ he)) ha
    obtain ⟨hc, hrest⟩ := h' (fun _ he => hsubset (List.mem_append_right _ he)) hb
    refine ⟨hc, fun hcomplete hfaults => ?_⟩
    obtain ⟨hnil, hnil'⟩ := List.append_eq_nil_iff.1 hfaults
    obtain ⟨hcomplete', hmet⟩ := hfirst hcomplete hnil
    obtain ⟨hcomplete'', hmet'⟩ := hrest hcomplete' hnil'
    refine ⟨hcomplete'', ?_⟩
    rw [hmet', hmet, List.map_append, firstsAfter_append, List.append_assoc]
  perm hperm h hsubset ha := by
    obtain ⟨hb, hmeets⟩ := h hsubset ha
    refine ⟨hb, fun hcomplete hfaults => hmeets hcomplete ?_⟩
    rw [hfaults] at hperm
    exact hperm.eq_nil
  place depth d a ih hsubset h := by
    have hvalid := (scope.valid_runRelation within).resolve depth (.inline d) a
    have hcompletes := scope.completes_runRelation.resolve depth (.inline d) a h.toWellFormed
    have hplaced := scope.resolve_placed depth d a
    rw [Reference.inlines] at hvalid
    generalize scope.resolve depth (.inline d) a = result at hvalid hcompletes hplaced ⊢
    refine ⟨hvalid hsubset h, fun hcomplete hfaults => ⟨hcompletes.2 hcomplete hfaults, ?_⟩⟩
    cases hplaced with
    | shared id hstate =>
      have hinlines := h.finished_inlines hseparates hcomplete (hsubset (List.mem_cons_self ..))
        (fun e he => hsubset (List.mem_cons_of_mem _ he)) hstate
      rw [met_share, firstsAfter_eq_nil, List.append_nil]
      intro k hk
      obtain ⟨e, he, rfl⟩ := List.mem_map.1 hk
      rcases List.mem_cons.1 he with rfl | he
      · exact h.met_of_finished hstate
      · obtain ⟨i, hi⟩ := hinlines e he
        exact h.met_of_finished hi
    | inside hstate => cases hfaults
    | tooDeep hstate hdeep => cases hfaults
    | new name hstate hshallow =>
      obtain ⟨-, hmeets⟩ := ih _ (fun e he => hsubset (List.mem_cons_of_mem _ he))
        (h.reserve hstate scope.owner)
      obtain ⟨-, hmet⟩ :=
        hmeets (hcomplete.reserve h.toWellFormed scope.owner (scope.key d)) hfaults
      have hnew : scope.key d ∉ a.met := fun hmem => (h.known _).1 hmem hstate
      rw [Arena.met_fill, hmet, Arena.met_reserve, List.map_cons, firstsAfter, if_neg hnew,
        List.append_assoc, List.singleton_append]
      congr 2
      refine firstsAfter_congr fun x => ?_
      simp only [List.mem_append, List.mem_cons, List.not_mem_nil, or_false]
      exact or_comm

/-- **What a compile without faults meets.** -/
theorem meets_compile {within : List Definition} (hseparates : Separates scope.digest within)
    (depth : Nat) {d : Definition} (hd : d.inlines ⊆ within) {a : Arena}
    (h : a.Valid scope.digest scope.declared within) (hcomplete : a.Complete)
    (hfaults : (scope.compile depth d a).1.faults = []) :
    scope.Meets d.inlines a (scope.compile depth d a).2 :=
  ((scope.meets_runRelation within hseparates).compile d depth a hd h).2 hcomplete hfaults

end Scope
end WireSchema
