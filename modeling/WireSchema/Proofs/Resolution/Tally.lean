import WireSchema.Proofs.Resolution.Forms
import WireSchema.Proofs.Resolution.Sound
import WireSchema.Proofs.Resolution.Walk

/-!
# Every fault once

A declared type is told the faults of what stands at its places, each canonical text once.
Three ways lead to this: a definition is compiled for the type; it was compiled for the type
before and nothing is told again; or it was compiled for another type, and what was found
then is told from its slot.

It is the last way that does not always lead there.  A slot keeps what was new to the type
for which it was compiled, and that may be less than what is in it; and if the definition has
no content, because something was wrong, what is inside it is told from the slot but does not
become the type's own, and so may be told again.  Both happen only if a definition that has
a fault is inside one with several owners and stands in a declaration a second time
(`Scope.Apart` rules this out).

`Scope.Tallied` is what the slots then remember, `Scope.Accounts` how it goes with the places
of the declaration at hand, and `Scope.accounts_walk` says what is told along a walk.
-/

namespace WireSchema

namespace Definition

theorem map_text_places (depth : Nat) (d : Definition) :
    (d.places depth).map Place.text = texts d.placed := by
  rw [← map_definition_places depth, texts, List.map_map]
  rfl

theorem map_text_place (depth : Nat) (d : Definition) :
    (⟨depth, d⟩ :: d.places (depth + 1)).map Place.text = texts (d :: d.placed) := by
  rw [List.map_cons, map_text_places, texts_cons]
  rfl

theorem map_definition_place (depth : Nat) (d : Definition) :
    (⟨depth, d⟩ :: d.places (depth + 1)).map Place.definition = d :: d.placed := by
  rw [List.map_cons, map_definition_places]

end Definition

namespace Scope

/-! ## What is assumed of a declaration, and what is known of an arena -/

section

variable (scope : Scope) (within : List Definition) (shared earlier : String → Prop)

/-- What is assumed of the places of a declaration.  `shared` are the canonical texts that
other declarations contain as well, and `earlier` those met in declarations before. -/
structure Apart (ps : List Place) : Prop where
  within : Within within ps
  shallow : ∀ p ∈ ps, p.depth < scope.settings.maxInlineDepth
  again : ∀ p ∈ ps, earlier p.text → shared p.text
  /-- What has a fault and is inside something shared stands only once. -/
  once : ∀ q ∈ ps, shared q.text → ∀ f ∈ q.definition.placed, scope.ownFaults f ≠ [] →
    (ps.map Place.text).count f.canonical.text ≤ 1

/-- What the slots of an arena remember, whoever owns them. -/
structure Tallied (a : Arena) : Prop where
  clean : a.Clean scope.digest scope.declared within
  /-- What stands in something finished is finished. -/
  inside : ∀ e ∈ within, ∀ id, a.state? (scope.key e) = some (.finished id) → ∀ f ∈ e.placed,
    ∃ i, a.state? (scope.key f) = some (.finished i)
  /-- The slot of a shared definition has all its faults. -/
  total : ∀ e ∈ within, ∀ id slot, a.state? (scope.key e) = some (.finished id) →
    a.slot? id = some slot → shared e.canonical.text →
      slot.faults.Perm (scope.freshFaults [] (e :: e.placed))

/-- What is known in the middle of a walk of the places done and of what the owner has. -/
structure Accounts (size : Nat) (done : List Place) (a : Arena) : Prop where
  surveyed : scope.Surveyed within size done a
  tallied : scope.Tallied within shared a
  /-- What is finished has been met here or in declarations before. -/
  seen : ∀ e ∈ within, ∀ id, a.state? (scope.key e) = some (.finished id) →
    e.canonical.text ∈ done.map Place.text ∨ earlier e.canonical.text
  /-- What is inside the owner's types has been met. -/
  covered : ∀ e ∈ within, ∀ id slot, a.state? (scope.key e) = some (.finished id) →
    a.slot? id = some slot → scope.owner ∈ slot.owners → texts e.placed ⊆ done.map Place.text
  met : ∀ p ∈ done, a.state? (scope.key p.definition) ≠ none
  /-- What has been met and is not the owner's is inside something shared. -/
  inherited : ∀ p ∈ done, ∀ id slot, a.state? (scope.key p.definition) = some (.finished id) →
    a.slot? id = some slot → scope.owner ∉ slot.owners →
      ∃ q ∈ done, shared q.text ∧ p.text ∈ texts q.definition.placed ∧
        texts q.definition.placed ⊆ done.map Place.text

/-- What is told at places when others have been done: what is wrong at those that are new. -/
def TellsFresh (done ps : List Place) (faults : List Fault) : Prop :=
  faults.Perm (scope.freshFaults (done.map Place.text) (ps.map Place.definition))

end

variable {scope : Scope} {within : List Definition} {shared earlier : String → Prop}
  {size depth : Nat} {done : List Place} {d : Definition} {a : Arena}

theorem Apart.of_append {ps qs : List Place}
    (h : scope.Apart within shared earlier (ps ++ qs)) : scope.Apart within shared earlier ps where
  within p hp := h.within p (List.mem_append_left _ hp)
  shallow p hp := h.shallow p (List.mem_append_left _ hp)
  again p hp := h.again p (List.mem_append_left _ hp)
  once q hq hshared f hf hfault := by
    have hcount := h.once q (List.mem_append_left _ hq) hshared f hf hfault
    rw [List.map_append, List.count_append] at hcount
    omega

/-- What is inside something shared and is met again has no fault. -/
theorem Apart.ownFaults_eq_nil {ps : List Place}
    (h : scope.Apart within shared earlier (done ++ ps)) {q : Place} (hq : q ∈ done ++ ps)
    (hshared : shared q.text) {f : Definition} (hf : f ∈ q.definition.placed)
    (hdone : f.canonical.text ∈ done.map Place.text)
    (hps : f.canonical.text ∈ ps.map Place.text) : scope.ownFaults f = [] := by
  by_contra hfault
  have hcount := h.once q hq hshared f hf hfault
  have hpos := List.count_pos_iff.2 hdone
  have hpos' := List.count_pos_iff.2 hps
  rw [List.map_append, List.count_append] at hcount
  omega

/-- Something shared that is met for the first time tells what it tells on its own: what is
inside it and has been met has no fault. -/
theorem Apart.freshFaults_of_shared
    (h : scope.Apart within shared earlier (done ++ ⟨depth, d⟩ :: d.places (depth + 1)))
    (hshared : shared d.canonical.text) (hnew : d.canonical.text ∉ done.map Place.text) :
    scope.freshFaults (done.map Place.text) (d :: d.placed) =
      scope.freshFaults [] (d :: d.placed) := by
  refine scope.freshFaults_congr fun f hf hfault =>
    iff_of_false (fun hmet => ?_) List.not_mem_nil
  rcases List.mem_cons.1 hf with rfl | hinside
  · exact hnew hmet
  · refine hfault (h.ownFaults_eq_nil (List.mem_append_right _ (List.mem_cons_self ..)) hshared
      hinside hmet ?_)
    rw [Definition.map_text_place]
    exact mem_texts_of_mem hf

/-- What has no state yet has not been met. -/
theorem Accounts.notMem_of_new (h : scope.Accounts within shared earlier size done a)
    (hstate : a.state? (scope.key d) = none) : d.canonical.text ∉ done.map Place.text := by
  intro htext
  obtain ⟨p, hp, htext⟩ := List.mem_map.1 htext
  have hkey : scope.key p.definition = scope.key d := congrArg scope.digest htext
  exact h.met p hp (hkey ▸ hstate)

/-- When everything in a definition has been met, it is finished. -/
theorem Accounts.finished_of_placed (hd : d :: d.inlines ⊆ within)
    (h : scope.Accounts within shared earlier d.inlines.length
      (done ++ ⟨depth, d⟩ :: d.places (depth + 1)) a) :
    ∀ f ∈ d.placed, ∃ i, a.state? (scope.key f) = some (.finished i) := by
  intro f hf
  have hwithin := hd (d.cons_placed_subset (List.mem_cons_of_mem _ hf))
  have hlt := Definition.length_inlines_lt_of_mem_placed hf
  rw [← Definition.map_definition_places (depth + 1)] at hf
  obtain ⟨p, hp, rfl⟩ := List.mem_map.1 hf
  have hmet := h.met p (List.mem_append_right _ (List.mem_cons_of_mem _ hp))
  obtain ⟨state, hsome⟩ := Option.ne_none_iff_exists'.1 hmet
  cases state with
  | inProgress => exact absurd (h.surveyed.enclosing _ hwithin hsome) (Nat.not_le.2 hlt)
  | finished i => exact ⟨i, hsome⟩

theorem TellsFresh.append {ps qs : List Place} {faults faults' : List Fault}
    (h : scope.TellsFresh done ps faults) (h' : scope.TellsFresh (done ++ ps) qs faults') :
    scope.TellsFresh done (ps ++ qs) (faults ++ faults') := by
  have hsplit : scope.freshFaults (done.map Place.text) ((ps ++ qs).map Place.definition) =
      scope.freshFaults (done.map Place.text) (ps.map Place.definition) ++
        scope.freshFaults ((done ++ ps).map Place.text) (qs.map Place.definition) := by
    rw [List.map_append, freshFaults_append, List.map_append, texts, List.map_map]
    rfl
  rw [TellsFresh, hsplit]
  exact List.Perm.append h h'

/-- What a new definition tells, if that is told at the places inside it. -/
theorem TellsFresh.place {faults told : List Fault} (hnew : d.canonical.text ∉ done.map Place.text)
    (hperm : faults.Perm (scope.ownFaults d ++ told))
    (htold : scope.TellsFresh (done ++ [⟨depth, d⟩]) (d.places (depth + 1)) told) :
    scope.TellsFresh done (⟨depth, d⟩ :: d.places (depth + 1)) faults := by
  rw [TellsFresh, Definition.map_definition_places] at htold
  rw [TellsFresh, Definition.map_definition_place, scope.freshFaults_cons_of_notMem _ hnew]
  refine hperm.trans (List.Perm.append_left _ (htold.trans (.of_eq ?_)))
  refine scope.freshFaults_congr fun f _ _ => ?_
  rw [List.map_append, List.mem_append, List.mem_cons, or_comm, List.map_singleton,
    List.mem_singleton]
  exact Iff.rfl

/-! ## A definition that has a type -/

section

variable (hseparates : Separates scope.digest within)

include hseparates

/-- Sharing tells nothing if there is nothing to tell. -/
theorem Accounts.faults_of_shared (h : scope.Accounts within shared earlier size done a)
    (hd : d :: d.inlines ⊆ within) {id : TypeId}
    (hid : a.state? (scope.key d) = some (.finished id))
    (hquiet : ∀ f ∈ d :: d.placed, scope.ownFaults f = []) :
    (share scope.owner a.slots.length id a).1.faults = [] := by
  rw [List.eq_nil_iff_forall_not_mem]
  intro fault hfault
  obtain ⟨i, s, hregion, hs, hanonymous, hmem⟩ :=
    (h.surveyed.sharesWithin hseparates hd hid).faults fault hfault
  have hle := (h.surveyed.valid.anonymous_iff hs).1 hanonymous
  rcases hregion with hlt | ⟨e, he, hstate⟩
  · exact absurd hlt (Nat.not_lt.2 hle)
  · have hsound : ¬ e.Faulty scope.declared := Definition.not_faulty_of_ownFaults scope
      fun f hf => hquiet f (Definition.placed_subset_cons he hf)
    rw [h.tallied.clean e (hd (d.cons_placed_subset he)) i s hsound hstate hs] at hmem
    cases hmem

/-- From the slot of something shared its faults are told to a new owner. -/
theorem Accounts.faults_of_total (h : scope.Accounts within shared earlier size done a)
    (hd : d :: d.inlines ⊆ within) {id : TypeId} {slot : Slot}
    (hid : a.state? (scope.key d) = some (.finished id)) (hslot : a.slot? id = some slot)
    (hnew : scope.owner ∉ slot.owners) (hshared : shared d.canonical.text) :
    (share scope.owner a.slots.length id a).1.faults.Perm
      (scope.freshFaults [] (d :: d.placed)) := by
  have hmem : d ∈ within := hd (List.mem_cons_self ..)
  have htotal := h.tallied.total d hmem id slot hid hslot hshared
  obtain ⟨slot', hslot', -, hrealises⟩ := h.surveyed.valid.realises hseparates hmem hid
  obtain rfl := Option.some.inj (hslot.symm.trans hslot')
  cases hbody : slot.body with
  | some body =>
    -- A definition with a content has no faults, nor has anything inside it.
    rw [(hrealises body hbody).1] at htotal
    have hquiet := scope.of_freshFaults_eq_nil htotal.nil_eq.symm
    rw [h.faults_of_shared hseparates hd hid fun f hf =>
      (hquiet f hf).resolve_left List.not_mem_nil, htotal.nil_eq]
  | none =>
    have hanonymous := h.surveyed.valid.anonymousSlots id slot
      (h.surveyed.valid.declared_le hid) hslot
    obtain ⟨n, hn⟩ := Nat.exists_eq_succ_of_ne_zero
      (Nat.ne_of_gt (Nat.zero_lt_of_lt (h.surveyed.valid.lt_length hid)))
    rw [hn, share_of_unowned ⟨hslot, hanonymous, hnew⟩, hbody]
    exact (List.append_nil slot.faults).symm ▸ htotal

omit hseparates in
/-- Nothing is told of a definition that the owner has: it has been met, and so has what is
inside it. -/
theorem Accounts.tells_of_owned (h : scope.Accounts within shared earlier size done a)
    (hd : d ∈ within) {id : TypeId} {slot : Slot}
    (hid : a.state? (scope.key d) = some (.finished id)) (hslot : a.slot? id = some slot)
    (howner : scope.owner ∈ slot.owners) :
    scope.TellsFresh done (⟨depth, d⟩ :: d.places (depth + 1))
      (share scope.owner a.slots.length id a).1.faults := by
  have hmet : ∀ f ∈ d :: d.placed, f.canonical.text ∈ done.map Place.text :=
    List.forall_mem_cons.2 ⟨h.surveyed.known d hd id slot hid hslot howner,
      fun f hf => h.covered d hd id slot hid hslot howner (mem_texts_of_mem hf)⟩
  rw [share_of_not_unowned (Arena.not_unowned_of_mem hslot howner), TellsFresh,
    Definition.map_definition_place, scope.freshFaults_eq_nil fun f hf => Or.inl (hmet f hf)]
  exact .refl []

/-- What a definition with a type that is not the owner's tells, and what it is inside. -/
theorem Accounts.tells_of_unowned
    (hapart : scope.Apart within shared earlier (done ++ ⟨depth, d⟩ :: d.places (depth + 1)))
    (h : scope.Accounts within shared earlier size done a) {id : TypeId} {slot : Slot}
    (hid : a.state? (scope.key d) = some (.finished id)) (hslot : a.slot? id = some slot)
    (hnew : scope.owner ∉ slot.owners) :
    scope.TellsFresh done (⟨depth, d⟩ :: d.places (depth + 1))
        (share scope.owner a.slots.length id a).1.faults ∧
      ∃ q ∈ done ++ ⟨depth, d⟩ :: d.places (depth + 1), shared q.text ∧
        texts d.placed ⊆ texts q.definition.placed ∧ texts q.definition.placed ⊆
          (done ++ ⟨depth, d⟩ :: d.places (depth + 1)).map Place.text := by
  have hd : d :: d.inlines ⊆ within :=
    hapart.within ⟨depth, d⟩ (List.mem_append_right _ (List.mem_cons_self ..))
  have hmem : d ∈ within := hd (List.mem_cons_self ..)
  rw [TellsFresh, Definition.map_definition_place]
  by_cases hdone : d.canonical.text ∈ done.map Place.text
  · -- It was inside something shared that has no content.
    obtain ⟨p, hp, htext⟩ := List.mem_map.1 hdone
    have hkey : scope.key p.definition = scope.key d := congrArg scope.digest htext
    obtain ⟨q, hq, hshared, hinside, hcovered⟩ :=
      h.inherited p hp id slot (hkey ▸ hid) hslot hnew
    rw [htext] at hinside
    have hsubset := Definition.texts_placed_subset hinside
    have hquiet : ∀ f ∈ d :: d.placed, scope.ownFaults f = [] := by
      intro f hf
      obtain ⟨g, hg, hgf⟩ := mem_texts.1 (hsubset (mem_texts_of_mem hf))
      have halike : f.Alike g := hgf.symm
      rw [halike.ownFaults scope]
      refine hapart.ownFaults_eq_nil (List.mem_append_left _ hq) hshared hg ?_ ?_
      · exact hcovered (mem_texts_of_mem hg)
      · rw [hgf, Definition.map_text_place]
        exact mem_texts_of_mem hf
    refine ⟨?_, q, List.mem_append_left _ hq, hshared, fun t ht => hsubset ?_, fun t ht => ?_⟩
    · rw [h.faults_of_shared hseparates hd hid hquiet,
        scope.freshFaults_eq_nil fun f hf => Or.inr (hquiet f hf)]
    · rw [texts_cons]
      exact List.mem_cons_of_mem _ ht
    · rw [List.map_append]
      exact List.mem_append_left _ (hcovered ht)
  · -- It was compiled in a declaration before.
    have hshared : shared d.canonical.text :=
      hapart.again ⟨depth, d⟩ (List.mem_append_right _ (List.mem_cons_self ..))
        ((h.seen d hmem id hid).resolve_left hdone)
    refine ⟨?_, ⟨depth, d⟩, List.mem_append_right _ (List.mem_cons_self ..), hshared,
      fun t ht => ht, fun t ht => ?_⟩
    · rw [hapart.freshFaults_of_shared hshared hdone]
      exact h.faults_of_total hseparates hd hid hslot hnew hshared
    · rw [List.map_append, Definition.map_text_place, texts_cons]
      exact List.mem_append_right _ (List.mem_cons_of_mem _ ht)

end

/-! ## What slots remember -/

theorem Tallied.reserve (hvalid : a.WellFormed scope.declared) (h : scope.Tallied within shared a)
    (hstate : a.state? (scope.key d) = none) :
    scope.Tallied within shared (a.reserve scope.owner (scope.key d)) where
  clean e he i t hsound hi ht := by
    obtain ⟨hi', ht'⟩ := hvalid.finished_of_reserve hi ht
    exact h.clean e he i t hsound hi' ht'
  inside e he i hi f hf := by
    rw [Arena.state?_reserve] at hi
    split at hi
    · cases hi
    · obtain ⟨j, hj⟩ := h.inside e he i hi f hf
      have hne : scope.key f ≠ scope.key d := by
        intro hkey
        rw [hkey, hstate] at hj
        cases hj
      exact ⟨j, by rw [Arena.state?_reserve, if_neg hne, hj]⟩
  total e he i t hi ht hshared := by
    obtain ⟨hi', ht'⟩ := hvalid.finished_of_reserve hi ht
    exact h.total e he i t hi' ht' hshared

theorem Tallied.share (hvalid : a.WellFormed scope.declared) (h : scope.Tallied within shared a)
    (id : TypeId) : scope.Tallied within shared (share scope.owner a.slots.length id a).2 where
  clean e he i t hsound hi ht := by
    obtain ⟨hi', s, hs, hgains⟩ := hvalid.finished_of_share hi ht
    rw [hgains.faults]
    exact h.clean e he i s hsound hi' hs
  inside e he i hi f hf := by
    rw [state?_share] at hi
    obtain ⟨j, hj⟩ := h.inside e he i hi f hf
    exact ⟨j, by rw [state?_share, hj]⟩
  total e he i t hi ht hshared := by
    obtain ⟨hi', s, hs, hgains⟩ := hvalid.finished_of_share hi ht
    rw [hgains.faults]
    exact h.total e he i s hi' hs hshared

/-- A slot is filled with the faults of what is in it, in so far as it matters. -/
theorem Tallied.fill (hseparates : Separates scope.digest within)
    (hvalid : a.WellFormed scope.declared) (h : scope.Tallied within shared a) (hd : d ∈ within)
    {id : Nat} (hid : id = scope.declared.length + a.met.idxOf (scope.key d)) (name : TypeName)
    (body : Option Body) {faults : List Fault}
    (hinside : ∀ f ∈ d.placed, ∃ i, a.state? (scope.key f) = some (.finished i))
    (hnone : ¬ d.Faulty scope.declared → faults = [])
    (htotal : shared d.canonical.text → faults.Perm (scope.freshFaults [] (d :: d.placed))) :
    scope.Tallied within shared (a.fill id (scope.key d) name body faults) where
  clean e he i t hsound hi ht := by
    rcases hvalid.finished_of_fill hid hi ht with ⟨hkey, -, hfaults⟩ | ⟨hi', ht'⟩
    · rw [hfaults]
      exact hnone (Definition.not_faulty_of_text (hseparates e he d hd hkey) hsound)
    · exact h.clean e he i t hsound hi' ht'
  inside e he i hi f hf := by
    have hstays : (∃ j, a.state? (scope.key f) = some (.finished j)) →
        ∃ j, (a.fill id (scope.key d) name body faults).state? (scope.key f) =
          some (.finished j) := by
      rintro ⟨j, hj⟩
      rw [Arena.state?_fill]
      split
      · exact ⟨id, rfl⟩
      · exact ⟨j, hj⟩
    refine hstays ?_
    rw [Arena.state?_fill] at hi
    split at hi
    · next hkey =>
      have halike : e.Alike d := hseparates e he d hd hkey
      obtain ⟨g, hg, hfg⟩ := halike.exists_mem_placed hf
      obtain ⟨j, hj⟩ := hinside g hg
      have hkey' : scope.key f = scope.key g := congrArg scope.digest hfg
      exact ⟨j, hkey' ▸ hj⟩
    · exact h.inside e he i hi f hf
  total e he i t hi ht hshared := by
    rcases hvalid.finished_of_fill hid hi ht with ⟨hkey, -, hfaults⟩ | ⟨hi', ht'⟩
    · have halike : e.Alike d := hseparates e he d hd hkey
      have htext : e.canonical.text = d.canonical.text := halike
      rw [hfaults, scope.freshFaults_of_alike (.cons halike halike.placed)]
      exact htotal (htext ▸ hshared)
    · exact h.total e he i t hi' ht' hshared

/-! ## The steps of a walk -/

/-- A definition with a type is the owner's then, and what is inside it has been met. -/
theorem Accounts.of_shared (hseparates : Separates scope.digest within) {ps : List Place}
    (hps : ps = ⟨depth, d⟩ :: d.places (depth + 1)) (hd : d :: d.inlines ⊆ within)
    (h : scope.Accounts within shared earlier size done a) {id : TypeId}
    (hid : a.state? (scope.key d) = some (.finished id))
    (hsurveyed : scope.Surveyed within size (done ++ ps)
      (share scope.owner a.slots.length id a).2)
    (hcover : ∀ t ∈ texts d.placed, t ∈ done.map Place.text ∨
      ∃ q ∈ done ++ ps, shared q.text ∧ t ∈ texts q.definition.placed ∧
        texts q.definition.placed ⊆ (done ++ ps).map Place.text) :
    scope.Accounts within shared earlier size (done ++ ps)
      (share scope.owner a.slots.length id a).2 := by
  have hmem : d ∈ within := hd (List.mem_cons_self ..)
  have hold : done.map Place.text ⊆ (done ++ ps).map Place.text := by
    rw [List.map_append]
    exact List.subset_append_left _ _
  have hnew : texts (d :: d.placed) ⊆ (done ++ ps).map Place.text := by
    rw [List.map_append, hps, Definition.map_text_place]
    exact List.subset_append_right _ _
  refine ⟨hsurveyed, h.tallied.share h.surveyed.valid.toWellFormed id, ?seen, ?covered, ?met,
    ?inherited⟩
  case seen =>
    intro e he i hi
    rw [state?_share] at hi
    exact (h.seen e he i hi).imp_left (hold ·)
  case covered =>
    intro e he i t hi ht howner
    rw [state?_share] at hi
    obtain ⟨s, hs, -, htold⟩ := (h.surveyed.sharesWithin hseparates hd hid).slots i t ht
    rcases htold howner with howner | ⟨hlt | ⟨f, hf, hstate⟩, -⟩
    · exact fun u hu => hold (h.covered e he i s hi hs howner hu)
    · exact absurd (h.surveyed.valid.declared_le hi) (Nat.not_le.2 hlt)
    · have halike : e.Alike f := hseparates e he f (hd (d.cons_placed_subset hf))
        (h.surveyed.valid.eq_of_finished hstate hi)
      rw [halike.texts_placed]
      intro u hu
      obtain ⟨g, hg, rfl⟩ := mem_texts.1 hu
      exact hnew (mem_texts_of_mem
        (Definition.placed_subset_cons hf (List.mem_cons_of_mem _ hg)))
  case met =>
    intro p hp
    rw [state?_share]
    rcases List.mem_append.1 hp with hp | hp
    · exact h.met p hp
    · rw [hps] at hp
      rcases List.mem_cons.1 hp with rfl | hp
      · exact fun hnone => by cases hid.symm.trans hnone
      · have hplaced : p.definition ∈ d.placed := by
          rw [← Definition.map_definition_places (depth + 1)]
          exact List.mem_map_of_mem hp
        obtain ⟨j, hj⟩ := h.tallied.inside d hmem id hid _ hplaced
        exact fun hnone => by cases hj.symm.trans hnone
  case inherited =>
    intro p hp i t hi ht hunowned
    obtain ⟨hi', s, hs, hgains⟩ := h.surveyed.valid.finished_of_share hi ht
    have hunowned' : scope.owner ∉ s.owners := fun howner => hunowned (hgains.mem_owners howner)
    -- What has been met before is inside something shared already.
    have hbefore : p.text ∈ done.map Place.text → ∃ q ∈ done ++ ps, shared q.text ∧
        p.text ∈ texts q.definition.placed ∧
          texts q.definition.placed ⊆ (done ++ ps).map Place.text := by
      intro htext
      obtain ⟨p', hp', htext'⟩ := List.mem_map.1 htext
      have hkey : scope.key p'.definition = scope.key p.definition :=
        congrArg scope.digest htext'
      obtain ⟨q, hq, hshared, hinside, hcovered⟩ :=
        h.inherited p' hp' i s (hkey ▸ hi') hs hunowned'
      exact ⟨q, List.mem_append_left _ hq, hshared, htext' ▸ hinside,
        fun u hu => hold (hcovered hu)⟩
    rcases List.mem_append.1 hp with hp | hp
    · exact hbefore (List.mem_map_of_mem hp)
    · rw [hps] at hp
      rcases List.mem_cons.1 hp with rfl | hp
      · obtain rfl := InlineState.finished.inj (Option.some.inj (hid.symm.trans hi'))
        have hanonymous := h.surveyed.valid.anonymousSlots id s
          (h.surveyed.valid.declared_le hid) hs
        exact absurd (Arena.has_share scope.owner id a t ht (hgains.anonymous.trans hanonymous))
          hunowned
      · have htext : p.text ∈ texts d.placed := by
          rw [← Definition.map_text_places (depth + 1)]
          exact List.mem_map_of_mem hp
        rcases hcover _ htext with hdone | hq
        · exact hbefore hdone
        · exact hq

/-- The slot of a definition is reserved before it is compiled. -/
theorem Accounts.reserve (hseparates : Separates scope.digest within) (hd : d ∈ within)
    (h : scope.Accounts within shared earlier size done a) (hsize : d.inlines.length ≤ size)
    (hstate : a.state? (scope.key d) = none) :
    scope.Accounts within shared earlier d.inlines.length (done ++ [⟨depth, d⟩])
      (a.reserve scope.owner (scope.key d)) := by
  have hvalid := h.surveyed.valid.toWellFormed
  have hold : done.map Place.text ⊆ (done ++ [(⟨depth, d⟩ : Place)]).map Place.text := by
    rw [List.map_append]
    exact List.subset_append_left _ _
  refine ⟨h.surveyed.reserve hseparates hd hsize hstate _, h.tallied.reserve hvalid hstate,
    ?seen, ?covered, ?met, ?inherited⟩
  case seen =>
    intro e he i hi
    rw [Arena.state?_reserve] at hi
    split at hi
    · cases hi
    · exact (h.seen e he i hi).imp_left (hold ·)
  case covered =>
    intro e he i t hi ht howner
    obtain ⟨hi', ht'⟩ := hvalid.finished_of_reserve hi ht
    exact fun u hu => hold (h.covered e he i t hi' ht' howner hu)
  case met =>
    intro p hp
    rw [Arena.state?_reserve]
    split
    · exact Option.some_ne_none _
    · next hne =>
      rcases List.mem_append.1 hp with hp | hp
      · exact h.met p hp
      · rw [List.mem_singleton.1 hp] at hne
        exact absurd rfl hne
  case inherited =>
    intro p hp i t hi ht hunowned
    obtain ⟨hi', ht'⟩ := hvalid.finished_of_reserve hi ht
    rcases List.mem_append.1 hp with hp | hp
    · obtain ⟨q, hq, hshared, hinside, hcovered⟩ := h.inherited p hp i t hi' ht' hunowned
      exact ⟨q, List.mem_append_left _ hq, hshared, hinside, fun u hu => hold (hcovered hu)⟩
    · rw [List.mem_singleton.1 hp] at hi'
      cases hstate.symm.trans hi'

/-- The slot of a definition is filled when it has been compiled. -/
theorem Accounts.fill (hseparates : Separates scope.digest within) {ps : List Place}
    (hps : ps = ⟨depth, d⟩ :: d.places (depth + 1)) (hd : d ∈ within)
    (h : scope.Accounts within shared earlier d.inlines.length (done ++ ps) a) {id : Nat}
    (hid : id = scope.declared.length + a.met.idxOf (scope.key d))
    (howned : ∀ slot, a.slot? id = some slot → scope.owner ∈ slot.owners) {name : TypeName}
    {body : Option Body} {faults : List Fault}
    (htallied : scope.Tallied within shared (a.fill id (scope.key d) name body faults))
    (hsurveyed : scope.Surveyed within size (done ++ ps)
      (a.fill id (scope.key d) name body faults)) :
    scope.Accounts within shared earlier size (done ++ ps)
      (a.fill id (scope.key d) name body faults) := by
  have hvalid := h.surveyed.valid.toWellFormed
  have hnew : texts (d :: d.placed) ⊆ (done ++ ps).map Place.text := by
    rw [List.map_append, hps, Definition.map_text_place]
    exact List.subset_append_right _ _
  refine ⟨hsurveyed, htallied, ?seen, ?covered, ?met, ?inherited⟩
  case seen =>
    intro e he i hi
    rw [Arena.state?_fill] at hi
    split at hi
    · next hkey =>
      have htext : e.canonical.text = d.canonical.text := hseparates e he d hd hkey
      exact Or.inl (hnew (htext ▸ List.mem_cons_self ..))
    · exact h.seen e he i hi
  case covered =>
    intro e he i t hi ht howner
    rw [Arena.state?_fill] at hi
    split at hi
    · next hkey =>
      have halike : e.Alike d := hseparates e he d hd hkey
      rw [halike.texts_placed]
      exact fun u hu => hnew (List.mem_cons_of_mem _ hu)
    · next hkey =>
      rw [Arena.slot?_fill, if_neg (hvalid.ne_of_finished hid hi hkey)] at ht
      exact h.covered e he i t hi ht howner
  case met =>
    intro p hp
    rw [Arena.state?_fill]
    split
    · exact Option.some_ne_none _
    · exact h.met p hp
  case inherited =>
    intro p hp i t hi ht hunowned
    rw [Arena.state?_fill] at hi
    split at hi
    · obtain rfl := InlineState.finished.inj (Option.some.inj hi)
      rw [Arena.slot?_fill, if_pos rfl] at ht
      obtain ⟨s, hs, rfl⟩ := Option.map_eq_some_iff.1 ht
      exact absurd (howned s hs) hunowned
    · next hkey =>
      rw [Arena.slot?_fill, if_neg (hvalid.ne_of_finished hid hi hkey)] at ht
      exact h.inherited p hp i t hi ht hunowned

/-- **A walk tells what is wrong at its places, each canonical text once.** -/
theorem accounts_walk (hseparates : Separates scope.digest within) :
    scope.WalkInvariant (scope.Apart within shared earlier)
      (scope.Accounts within shared earlier) scope.TellsFresh where
  along h := h.of_append
  nil done := .refl []
  append h h' := h.append h'
  place {size done depth d a} hapart hsize h ih := by
    have hd : d :: d.inlines ⊆ within :=
      hapart.within ⟨depth, d⟩ (List.mem_append_right _ (List.mem_cons_self ..))
    have hmem : d ∈ within := hd (List.mem_cons_self ..)
    have hsurveyed := ((surveyed_walk hseparates).resolve hapart.within hsize h.surveyed).1
    have hplaced := scope.resolve_placed depth d a
    generalize scope.resolve depth (.inline d) a = result at hsurveyed hplaced ⊢
    cases hplaced with
    | shared id hstate =>
      obtain ⟨slot, hslot, -⟩ := h.surveyed.valid.realises hseparates hmem hstate
      by_cases howner : scope.owner ∈ slot.owners
      · exact ⟨h.of_shared hseparates rfl hd hstate hsurveyed fun t ht =>
          Or.inl (h.covered d hmem id slot hstate hslot howner ht),
          h.tells_of_owned hmem hstate hslot howner⟩
      · obtain ⟨htold, q, hq, hshared, hinside, hmet⟩ :=
          h.tells_of_unowned hseparates hapart hstate hslot howner
        exact ⟨h.of_shared hseparates rfl hd hstate hsurveyed fun t ht =>
          Or.inr ⟨q, hq, hshared, hinside ht, hmet⟩, htold⟩
    | inside hstate =>
      exact absurd (h.surveyed.enclosing d hmem hstate) (Nat.not_le.2 hsize)
    | tooDeep hstate hdeep =>
      have hshallow := hapart.shallow ⟨depth, d⟩ (List.mem_append_right _ (List.mem_cons_self ..))
      exact absurd hdeep (Nat.not_le.2 hshallow)
    | new name hstate hshallow =>
      obtain ⟨faults, hperm, hend, htold⟩ := ih _
        (h.reserve hseparates hmem (Nat.le_of_lt hsize) hstate)
      rw [List.append_assoc, List.singleton_append] at hend
      have hgrows := scope.grows_compile (depth + 1) d (a.reserve scope.owner (scope.key d))
      have hposition := (h.surveyed.valid.position_of_reserved hstate hgrows).2
      have hvalid := hend.surveyed.valid.toWellFormed
      have hnew := h.notMem_of_new hstate
      -- What the slot is filled with is what is told.
      have hfresh := htold.place hnew hperm
      have hreport := hfresh
      rw [TellsFresh, Definition.map_definition_place] at hreport
      have hnone : ¬ d.Faulty scope.declared → (scope.compile (depth + 1) d
          (a.reserve scope.owner (scope.key d))).1.faults = [] := by
        intro hsound
        rw [scope.freshFaults_of_not_faulty hsound] at hreport
        exact hreport.eq_nil
      have htotal : shared d.canonical.text → (scope.compile (depth + 1) d
          (a.reserve scope.owner (scope.key d))).1.faults.Perm
            (scope.freshFaults [] (d :: d.placed)) := by
        intro hshared
        rw [← hapart.freshFaults_of_shared hshared hnew]
        exact hreport
      have howned : ∀ slot, (scope.compile (depth + 1) d
          (a.reserve scope.owner (scope.key d))).2.slot? a.slots.length = some slot →
            scope.owner ∈ slot.owners := by
        intro slot hslot
        obtain ⟨t, ht, hgains⟩ := hgrows.slots _ _ (Arena.slot?_reserve a scope.owner (scope.key d))
        obtain rfl := Option.some.inj (hslot.symm.trans ht)
        exact hgains.mem_owners (List.mem_singleton_self scope.owner)
      have htallied := hend.tallied.fill hseparates hvalid hmem hposition name
        (scope.compile (depth + 1) d (a.reserve scope.owner (scope.key d))).1.value
        (hend.finished_of_placed hd) hnone htotal
      exact ⟨hend.fill hseparates rfl hmem hposition howned htallied hsurveyed, hfresh⟩

end Scope
end WireSchema
