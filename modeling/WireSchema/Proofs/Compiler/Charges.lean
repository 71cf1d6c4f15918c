import WireSchema.Proofs.Compiler.Declarations
import WireSchema.Proofs.Resolution.Sound

/-!
# What the declaration pass charges

Every declaration is compiled on behalf of its own name, which owns nothing yet.  So what is
charged to it then says whether it is sound, and which definitions in place are its own; and
later declarations change neither, as they give types to their own names only
(`Arena.Continues`).  In the end each declaration is `Compiler.Charged` with what is wrong
with it, no more and no less (`Compiler.declarations_charged`).
-/

namespace WireSchema

/-! ## Going on for other owners -/

/-- What happens to the types of definitions in place when the arena is used on behalf of
some owners: they stay as they are, and only these owners get them. -/
structure Arena.Continues (owners : List TypeName) (a b : Arena) : Prop where
  slots : ∀ (i : Nat) (s : Slot), a.slot? i = some s → s.anonymous = true →
    ∃ t, b.slot? i = some t ∧ t.anonymous = true ∧ t.body = s.body ∧ s.owners ⊆ t.owners
  owned : ∀ (i : Nat) (t : Slot), b.slot? i = some t → t.anonymous = true → ∀ p ∈ t.owners,
    p ∈ owners ∨ ∃ s, a.slot? i = some s ∧ s.anonymous = true ∧ p ∈ s.owners
  keeps : a.Keeps b

namespace Arena

variable {digest : String → String} {declared : List TypeName} {within : List Definition}
  {owners owners' : List TypeName} {owner : TypeName} {a b c : Arena}

namespace Continues

theorem refl (owners : List TypeName) (a : Arena) : a.Continues owners a where
  slots _ s hs hanonymous := ⟨s, hs, hanonymous, rfl, fun _ hp => hp⟩
  owned _ t ht hanonymous _ hp := Or.inr ⟨t, ht, hanonymous, hp⟩
  keeps _ _ hk := hk

theorem trans (h : a.Continues owners b) (h' : b.Continues owners' c) :
    a.Continues (owners ++ owners') c where
  slots i s hs hanonymous := by
    obtain ⟨t, ht, hanonymous', hbody, howners⟩ := h.slots i s hs hanonymous
    obtain ⟨u, hu, hanonymous'', hbody', howners'⟩ := h'.slots i t ht hanonymous'
    exact ⟨u, hu, hanonymous'', hbody'.trans hbody, fun p hp => howners' (howners hp)⟩
  owned i u hu hanonymous p hp := by
    rcases h'.owned i u hu hanonymous p hp with hp | ⟨t, ht, hanonymous', hp⟩
    · exact Or.inl (List.mem_append_right _ hp)
    · rcases h.owned i t ht hanonymous' p hp with hp | hbefore
      · exact Or.inl (List.mem_append_left _ hp)
      · exact Or.inr hbefore
  keeps k id hk := h'.keeps k id (h.keeps k id hk)

theorem of_grows (h : a.Grows owner b) : a.Continues [owner] b where
  slots i s hs hanonymous := by
    obtain ⟨t, ht, hgains⟩ := h.slots i s hs
    exact ⟨t, ht, hgains.anonymous.trans hanonymous, hgains.body, fun p hp => hgains.mem_owners hp⟩
  owned i t ht hanonymous p hp := by
    by_cases hlt : i < a.slots.length
    · obtain ⟨s, hs, hgains⟩ := h.exists_slot hlt ht
      rcases hgains.of_mem_owners hp with hp | rfl
      · exact Or.inr ⟨s, hs, hgains.anonymous.symm.trans hanonymous, hp⟩
      · exact Or.inl (List.mem_singleton_self p)
    · obtain ⟨-, howners⟩ := h.new i t (Nat.not_lt.1 hlt) ht
      rw [howners] at hp
      exact Or.inl hp
  keeps := h.keeps

/-- The contents of declared types are not looked at. -/
theorem modify_body (h : a.WellFormed declared) {id : Nat} (hid : id < declared.length)
    (body : Option Body) : a.Continues [] (a.modify id fun s => { s with body }) where
  slots i s hs hanonymous := by
    have hle := (h.anonymous_iff hs).1 hanonymous
    refine ⟨s, ?_, hanonymous, rfl, fun p hp => hp⟩
    rw [slot?_modify, if_neg (by omega), hs]
  owned i t ht hanonymous p hp := by
    rw [slot?_modify] at ht
    split at ht
    · obtain ⟨s, hs, rfl⟩ := Option.map_eq_some_iff.1 ht
      exact Or.inr ⟨s, hs, hanonymous, hp⟩
    · exact Or.inr ⟨t, ht, hanonymous, hp⟩
  keeps _ _ hk := hk

end Continues

theorem Clean.modify_body (h : a.Valid digest declared within)
    (hclean : a.Clean digest declared within) {id : Nat} (hid : id < declared.length)
    (body : Option Body) :
    (a.modify id fun s => { s with body }).Clean digest declared within := by
  intro e he i slot hsound hi hslot
  have hne : id ≠ i := Nat.ne_of_lt (Nat.lt_of_lt_of_le hid (h.declared_le hi))
  rw [slot?_modify, if_neg hne] at hslot
  exact hclean e he i slot hsound hi hslot

end Arena

/-! ## One declaration -/

namespace Compiler

/-- What a declaration is charged with: faults if and only if it is faulty.  What it owns is
contained in it, and if it is sound it owns all of that. -/
structure Charged (digest : String → String) (declared : List TypeName) (a : Arena)
    (e : TypeName × Definition) (faults : List Fault) : Prop where
  faulty : faults = [] ↔ ¬ e.2.Faulty declared
  contained : ∀ (i : Nat) (t : Slot), a.slot? i = some t → t.anonymous = true → e.1 ∈ t.owners →
    ∃ f ∈ e.2.inlines, a.state? (digest f.canonical.text) = some (.finished i)
  serves : faults = [] → ∀ f ∈ e.2.inlines, a.Serves digest e.1 f

variable {digest : String → String} {declared : List TypeName} {within : List Definition}

theorem Charged.of_continues {a b : Arena} {e : TypeName × Definition} {faults : List Fault}
    {owners : List TypeName} (h : Charged digest declared a e faults)
    (ha : a.WellFormed declared) (hcontinues : a.Continues owners b) (hnew : e.1 ∉ owners) :
    Charged digest declared b e faults where
  faulty := h.faulty
  contained i t ht hanonymous howner := by
    rcases hcontinues.owned i t ht hanonymous e.1 howner with hmem | ⟨s, hs, hanonymous', howner'⟩
    · exact absurd hmem hnew
    · obtain ⟨f, hf, hid⟩ := h.contained i s hs hanonymous' howner'
      exact ⟨f, hf, hcontinues.keeps _ _ hid⟩
  serves hnone f hf := by
    obtain ⟨id, slot, body, hid, hslot, howner, hbody⟩ := h.serves hnone f hf
    have hanonymous := ha.anonymousSlots id slot (ha.declared_le hid) hslot
    obtain ⟨t, ht, -, hbody', howners⟩ := hcontinues.slots id slot hslot hanonymous
    exact ⟨id, t, body, hcontinues.keeps _ _ hid, ht, howners howner, hbody'.trans hbody⟩

/-- A declaration is charged when it has been compiled for a name that owned nothing. -/
theorem charged_compile {c : Compiler} (hseparates : Separates c.digest within) (name : TypeName)
    {d : Definition} (hd : d.inlines ⊆ within)
    (hnesting : d.nesting ≤ c.settings.maxInlineDepth) {a : Arena}
    (h : a.Valid c.digest declared within) (hclean : a.Clean c.digest declared within)
    (hsettled : ∀ k, a.state? k ≠ some .inProgress)
    (hnew : ∀ (i : Nat) (t : Slot), a.slot? i = some t → t.anonymous = true → name ∉ t.owners) :
    Charged c.digest declared ((c.scope declared name).compile 0 d a).2 (name, d)
        ((c.scope declared name).compile 0 d a).1.faults ∧
      ((c.scope declared name).compile 0 d a).2.Clean c.digest declared within := by
  let scope := c.scope declared name
  have hready : scope.Ready within d.inlines.length a :=
    ⟨h, hclean, fun e _ hprogress => absurd hprogress (hsettled _)⟩
  obtain ⟨hready', hnone⟩ := scope.ready_compile hseparates hd 0
    (Nat.le_trans (Nat.le_of_eq (Nat.zero_add _)) hnesting) hready
  have hcharges := scope.charges_compile 0 hseparates hd h
  have hsound := fun hfaults => scope.sound_of_compile 0 hseparates hd h hnew hfaults
  refine ⟨⟨⟨fun hfaults => (hsound hfaults).1, hnone⟩, fun i t ht hanonymous howner => ?_,
    fun hfaults => (hsound hfaults).2⟩, hready'.clean⟩
  exact (hcharges.charged_of_new hnew ht hanonymous howner).2

/-! ## All declarations -/

/-- **Every declaration is charged with its own faults.** -/
theorem declarations_charged {c : Compiler} (hseparates : Separates c.digest within)
    (ds : List (TypeName × Definition)) (id : Nat) (a : Arena) (hnodup : (ds.map Prod.fst).Nodup)
    (hlength : id + ds.length ≤ declared.length)
    (hds : ∀ e ∈ ds, e.2.inlines ⊆ within ∧ e.2.nesting ≤ c.settings.maxInlineDepth)
    (h : a.Valid c.digest declared within) (hclean : a.Clean c.digest declared within)
    (hsettled : ∀ k, a.state? k ≠ some .inProgress)
    (hnew : ∀ (i : Nat) (t : Slot), a.slot? i = some t → t.anonymous = true →
      ∀ e ∈ ds, e.1 ∉ t.owners) :
    a.Continues (ds.map Prod.fst) (c.declarations declared id ds a).2 ∧
      ∀ e ∈ ds, ∃ faults, (e.1, faults) ∈ (c.declarations declared id ds a).1 ∧
        Charged c.digest declared (c.declarations declared id ds a).2 e faults := by
  induction ds generalizing id a with
  | nil => exact ⟨.refl [] a, fun _ he => (by cases he)⟩
  | cons e rest ih =>
    obtain ⟨name, d⟩ := e
    let scope := c.scope declared name
    obtain ⟨hinlines, hnesting⟩ := hds _ (List.mem_cons_self ..)
    rw [List.map_cons, List.nodup_cons] at hnodup
    rw [List.length_cons] at hlength
    have hid : id < declared.length := by omega
    have hgrows := scope.grows_compile 0 d a
    have hvalid := scope.valid_compile 0 hinlines h
    obtain ⟨hcharged, hclean'⟩ := charged_compile hseparates name hinlines hnesting h
      hclean hsettled fun i t ht hanonymous => hnew i t ht hanonymous _ (List.mem_cons_self ..)
    have hhead : a.Continues [name] ((scope.compile 0 d a).2.modify id fun s =>
        { s with body := (scope.compile 0 d a).1.value }) :=
      (Arena.Continues.of_grows hgrows).trans (.modify_body hvalid.toWellFormed hid _)
    obtain ⟨hcontinues, hrest⟩ := ih (id + 1)
      ((scope.compile 0 d a).2.modify id fun s =>
        { s with body := (scope.compile 0 d a).1.value }) hnodup.2 (by omega)
      (fun e he => hds e (List.mem_cons_of_mem _ he)) (hvalid.modify_body hid _)
      (hclean'.modify_body hvalid hid _) (fun k hk => hsettled k (hgrows.inProgress hk)) (by
        intro i t ht hanonymous e he howner
        rcases hhead.owned i t ht hanonymous e.1 howner with hmem | ⟨s, hs, hanonymous', howner'⟩
        · have hname : e.1 ∈ rest.map Prod.fst := List.mem_map_of_mem he
          rw [List.mem_singleton.1 hmem] at hname
          exact hnodup.1 hname
        · exact hnew i s hs hanonymous' e (List.mem_cons_of_mem _ he) howner')
    rw [declarations_cons]
    refine ⟨hhead.trans hcontinues, fun e he => ?_⟩
    rcases List.mem_cons.1 he with rfl | he
    · refine ⟨_, List.mem_cons_self .., ?_⟩
      have hmodified := hcharged.of_continues hvalid.toWellFormed
        (.modify_body hvalid.toWellFormed hid (scope.compile 0 d a).1.value) List.not_mem_nil
      exact hmodified.of_continues (hvalid.modify_body hid _).toWellFormed hcontinues hnodup.1
    · obtain ⟨faults, hmem, hcharged'⟩ := hrest e he
      exact ⟨faults, List.mem_cons_of_mem _ hmem, hcharged'⟩

end Compiler
end WireSchema
