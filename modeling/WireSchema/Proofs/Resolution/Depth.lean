import WireSchema.Proofs.Resolution.Intrinsic
import WireSchema.Proofs.Resolution.Walk

/-!
# The limit on nesting

The depth of a definition in place is looked at when its type is new, and only then.  Met
again, it has a type already, whatever its depth is by now; and if something in it was found
too deep before, that is reported again, whether it is too deep here or not.

So the limit does what it says where a definition in place is as deep as it was at first, as
far as the limit is concerned: it reaches beyond the limit wherever it stands, or nowhere.
Then the slot of a definition remembers that it is too deep exactly if it is
(`Arena.Measured`), and a walk reports that exactly if one of its places reaches beyond the
limit (`Scope.measured_walk`).
-/

namespace WireSchema

/-- The fault of a definition that is too deep. -/
def tooDeepFault (limit : Nat) : Fault :=
  .unsupportedForm (.tooDeep limit)

/-- Whether a place reaches beyond a limit: something at it or inside it is deeper than
allowed. -/
def Place.Exceeds (limit : Nat) (p : Place) : Prop :=
  limit < p.depth + 1 + p.definition.nesting

namespace Definition

/-- The places of a definition in place reach beyond a limit if the definition does. -/
theorem exists_exceeds_iff {limit depth : Nat} {d : Definition} :
    (∃ p ∈ ⟨depth, d⟩ :: d.places (depth + 1), p.Exceeds limit) ↔
      Place.Exceeds limit ⟨depth, d⟩ := by
  constructor
  · rintro ⟨p, hp, hexceeds⟩
    rcases List.mem_cons.1 hp with rfl | hp
    · exact hexceeds
    · exact Nat.lt_of_lt_of_le hexceeds (reach_le hp)
  · exact fun h => ⟨_, List.mem_cons_self .., h⟩

end Definition

/-- Whether the slots of an arena remember which definitions in place are too deep. -/
def Arena.Measured (digest : String → String) (limit : Nat) (within : List Definition)
    (places : List Place) (a : Arena) : Prop :=
  ∀ e ∈ within, ∀ id slot, a.state? (digest e.canonical.text) = some (.finished id) →
    a.slot? id = some slot → (tooDeepFault limit ∈ slot.faults ↔
      ∃ p ∈ places, p.text = e.canonical.text ∧ p.Exceeds limit)

namespace Scope

variable (scope : Scope)

theorem tooDeep_notMem_ownFaults (limit : Nat) (d : Definition) :
    tooDeepFault limit ∉ scope.ownFaults d :=
  fun h => scope.intrinsic_ownFaults d _ h

/-- What is assumed of the places of a walk: they are among some places, of which those for
one definition reach beyond the limit together; and a definition that does stands only once. -/
structure Level (within : List Definition) (places ps : List Place) : Prop where
  within : Within within ps
  among : ps ⊆ places
  once : ∀ p ∈ ps, p.Exceeds scope.settings.maxInlineDepth → (ps.map Place.text).count p.text ≤ 1

/-- What is told of depth at places. -/
def TellsDepth (ps : List Place) (faults : List Fault) : Prop :=
  tooDeepFault scope.settings.maxInlineDepth ∈ faults ↔
    ∃ p ∈ ps, p.Exceeds scope.settings.maxInlineDepth

variable {scope} {within : List Definition} {places : List Place} {size depth : Nat}
  {done : List Place} {d : Definition} {a : Arena}

theorem TellsDepth.append {ps qs : List Place} {faults faults' : List Fault}
    (h : scope.TellsDepth ps faults) (h' : scope.TellsDepth qs faults') :
    scope.TellsDepth (ps ++ qs) (faults ++ faults') := by
  unfold TellsDepth at h h' ⊢
  rw [List.mem_append, h, h']
  constructor
  · rintro (⟨p, hp, hexceeds⟩ | ⟨p, hp, hexceeds⟩)
    · exact ⟨p, List.mem_append_left _ hp, hexceeds⟩
    · exact ⟨p, List.mem_append_right _ hp, hexceeds⟩
  · rintro ⟨p, hp, hexceeds⟩
    rcases List.mem_append.1 hp with hp | hp
    · exact Or.inl ⟨p, hp, hexceeds⟩
    · exact Or.inr ⟨p, hp, hexceeds⟩

theorem Level.of_append {ps qs : List Place} (h : scope.Level within places (ps ++ qs)) :
    scope.Level within places ps where
  within p hp := h.within p (List.mem_append_left _ hp)
  among p hp := h.among (List.mem_append_left _ hp)
  once p hp hexceeds := by
    have hcount := h.once p (List.mem_append_left _ hp) hexceeds
    rw [List.map_append, List.count_append] at hcount
    omega

/-- What reaches beyond the limit has not been met before. -/
theorem Level.not_exceeds (h : scope.Level within places
      (done ++ ⟨depth, d⟩ :: d.places (depth + 1)))
    (hmet : d.canonical.text ∈ done.map Place.text) :
    ¬ Place.Exceeds scope.settings.maxInlineDepth ⟨depth, d⟩ := by
  intro hexceeds
  have hcount := h.once _ (List.mem_append_right _ (List.mem_cons_self ..)) hexceeds
  rw [List.map_append, List.count_append, List.map_cons, List.count_cons_self] at hcount
  have hpos := List.count_pos_iff.2 hmet
  simp only [Place.text] at hcount
  omega

section

variable (huniform : ∀ p ∈ places, ∀ q ∈ places, p.text = q.text →
  p.Exceeds scope.settings.maxInlineDepth → q.Exceeds scope.settings.maxInlineDepth)

include huniform

/-- What is too deep anywhere is too deep at hand. -/
theorem exceeds_iff_of_mem {p : Place} (hp : p ∈ places) :
    (∃ q ∈ places, q.text = p.text ∧ q.Exceeds scope.settings.maxInlineDepth) ↔
      p.Exceeds scope.settings.maxInlineDepth := by
  constructor
  · rintro ⟨q, hq, htext, hexceeds⟩
    exact huniform q hq p hp htext hexceeds
  · exact fun h => ⟨p, hp, rfl, h⟩

/-- Sharing the type of a definition tells whether the definition is too deep. -/
theorem tells_of_shared (hseparates : Separates scope.digest within)
    (hlevel : scope.Level within places (done ++ ⟨depth, d⟩ :: d.places (depth + 1)))
    (h : scope.Surveyed within size done a)
    (hmeasured : a.Measured scope.digest scope.settings.maxInlineDepth within places)
    {id : TypeId} (hid : a.state? (scope.key d) = some (.finished id)) :
    scope.TellsDepth (⟨depth, d⟩ :: d.places (depth + 1))
      (share scope.owner a.slots.length id a).1.faults := by
  have hamong : ∀ p ∈ ⟨depth, d⟩ :: d.places (depth + 1), p ∈ places :=
    fun p hp => hlevel.among (List.mem_append_right _ hp)
  have hd : d :: d.inlines ⊆ within :=
    hlevel.within ⟨depth, d⟩ (List.mem_append_right _ (List.mem_cons_self ..))
  have hmem : d ∈ within := hd (List.mem_cons_self ..)
  obtain ⟨slot, hslot, -⟩ := h.valid.realises hseparates hmem hid
  have hanonymous := h.valid.anonymousSlots id slot (h.valid.declared_le hid) hslot
  unfold TellsDepth
  rw [Definition.exists_exceeds_iff]
  by_cases howner : scope.owner ∈ slot.owners
  · -- The owner had it already, so it has been met before.
    rw [share_of_not_unowned (Arena.not_unowned_of_mem hslot howner)]
    refine iff_of_false List.not_mem_nil (hlevel.not_exceeds ?_)
    exact h.known d hmem id slot hid hslot howner
  · constructor
    · intro hfault
      obtain ⟨i, s, hregion, hs, hanonymous', hfault⟩ :=
        (h.sharesWithin hseparates hd hid).faults _ hfault
      have hle := (h.valid.anonymous_iff hs).1 hanonymous'
      rcases hregion with hlt | ⟨e, he, hstate⟩
      · exact absurd hlt (Nat.not_lt.2 hle)
      · rw [← Definition.definitions_places_inline depth, Reference.places] at he
        obtain ⟨p, hp, rfl⟩ := List.mem_map.1 he
        have hwithin : p.definition ∈ within :=
          hlevel.within p (List.mem_append_right _ hp) (List.mem_cons_self ..)
        have hexceeds := (hmeasured _ hwithin i s hstate hs).1 hfault
        exact Definition.exists_exceeds_iff.1
          ⟨p, hp, (exceeds_iff_of_mem huniform (hamong p hp)).1 hexceeds⟩
    · intro hexceeds
      have hfault := (hmeasured d hmem id slot hid hslot).2
        ⟨_, hamong _ (List.mem_cons_self ..), rfl, hexceeds⟩
      obtain ⟨n, hn⟩ := Nat.exists_eq_succ_of_ne_zero
        (Nat.ne_of_gt (Nat.zero_lt_of_lt (h.valid.lt_length hid)))
      rw [hn, share_of_unowned ⟨hslot, hanonymous, howner⟩]
      exact List.mem_append_left _ hfault

/-- **A walk tells whether one of its places reaches beyond the limit.** -/
theorem measured_walk (hseparates : Separates scope.digest within) :
    scope.WalkInvariant (scope.Level within places)
      (fun size done a => scope.Surveyed within size done a ∧
        a.Measured scope.digest scope.settings.maxInlineDepth within places)
      fun _ => scope.TellsDepth where
  along h := h.of_append
  nil done := iff_of_false List.not_mem_nil fun ⟨_, hp, _⟩ => List.not_mem_nil hp
  append h h' := h.append h'
  place {size done depth d a} hlevel hsize h ih := by
    obtain ⟨hsurveyed, hmeasured⟩ := h
    have hplace : (⟨depth, d⟩ : Place) ∈ places :=
      hlevel.among (List.mem_append_right _ (List.mem_cons_self ..))
    have hmem : d ∈ within :=
      hlevel.within ⟨depth, d⟩ (List.mem_append_right _ (List.mem_cons_self ..))
        (List.mem_cons_self ..)
    have hsurveyed' := ((surveyed_walk hseparates).resolve hlevel.within hsize hsurveyed).1
    have hplaced := scope.resolve_placed depth d a
    generalize scope.resolve depth (.inline d) a = result at hsurveyed' hplaced ⊢
    cases hplaced with
    | shared id hstate =>
      refine ⟨⟨hsurveyed', fun e he i t hi ht => ?_⟩,
        tells_of_shared huniform hseparates hlevel hsurveyed hmeasured hstate⟩
      obtain ⟨hi', s, hs, hgains⟩ := hsurveyed.valid.finished_of_share hi ht
      rw [hgains.faults]
      exact hmeasured e he i s hi' hs
    | inside hstate =>
      exact absurd (hsurveyed.enclosing d hmem hstate) (Nat.not_le.2 hsize)
    | tooDeep hstate hdeep =>
      refine ⟨⟨hsurveyed', hmeasured⟩, iff_of_true (List.mem_singleton_self _)
        (Definition.exists_exceeds_iff.2 ?_)⟩
      show scope.settings.maxInlineDepth < depth + 1 + d.nesting
      omega
    | new name hstate hshallow =>
      have hreserved := hsurveyed.reserve hseparates hmem (Nat.le_of_lt hsize) hstate [⟨depth, d⟩]
      obtain ⟨faults, hperm, ⟨hend, hmeasured'⟩, htold⟩ := ih _ ⟨hreserved, by
        intro e he i t hi ht
        obtain ⟨hi', ht'⟩ := hsurveyed.valid.finished_of_reserve hi ht
        exact hmeasured e he i t hi' ht'⟩
      have hgrows := scope.grows_compile (depth + 1) d (a.reserve scope.owner (scope.key d))
      have hposition := (hsurveyed.valid.position_of_reserved hstate hgrows).2
      have htells : tooDeepFault scope.settings.maxInlineDepth ∈
          (scope.compile (depth + 1) d (a.reserve scope.owner (scope.key d))).1.faults ↔
            Place.Exceeds scope.settings.maxInlineDepth ⟨depth, d⟩ := by
        rw [hperm.mem_iff, List.mem_append,
          or_iff_right (scope.tooDeep_notMem_ownFaults scope.settings.maxInlineDepth d)]
        exact Iff.trans htold (Definition.exists_reach_iff hshallow)
      refine ⟨⟨hsurveyed', fun e he i t hi ht => ?_⟩,
        htells.trans Definition.exists_exceeds_iff.symm⟩
      rcases hend.valid.finished_of_fill hposition hi ht with ⟨hkey, -, hfaults⟩ | ⟨hi', ht'⟩
      · rw [hfaults, htells, hseparates e he d hmem hkey]
        exact (exceeds_iff_of_mem huniform hplace).symm
      · exact hmeasured' e he i t hi' ht'

end

end Scope
end WireSchema
