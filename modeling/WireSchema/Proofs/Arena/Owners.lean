import Mathlib.Data.Finset.Card
import Mathlib.Data.Finset.Range
import WireSchema.Proofs.Arena.Growth

/-!
# Owners of types

Whoever owns a definition in place owns all that its content refers to, and that is how an
owner gets to know of faults far below.  `Arena.Closed` is this condition on one owner.

Sharing keeps it (`Arena.Closed.share`).  It marks a type as owned before it follows the
references of the type, so in between the condition fails at the types that are not done
yet; `Arena.ClosedBut` allows for them.  That sharing never stops early is a matter of its
fuel: every step takes one position out of `Arena.unowned`.

In the other direction, a new owner gets nothing but what can be reached from the type it
shares, and is told exactly the faults in these slots (`Arena.sharesWithin`).
-/

namespace WireSchema
namespace Arena

variable {owner : TypeName} {a b c : Arena}

/-! ## What an owner has -/

/-- Whether an owner has the type at a position, unless it is a declared one. -/
def Has (a : Arena) (owner : TypeName) (id : TypeId) : Prop :=
  ∀ slot, a.slot? id = some slot → slot.anonymous = true → owner ∈ slot.owners

/-- Whether an owner has what the types that it owns refer to, apart from some of these
types. -/
def ClosedBut (a : Arena) (owner : TypeName) (pending : TypeId → Prop) : Prop :=
  ∀ (id : TypeId) (slot : Slot) (body : Body), ¬ pending id → a.slot? id = some slot →
    slot.anonymous = true → owner ∈ slot.owners → slot.body = some body →
      ∀ child ∈ body.references, a.Has owner child

/-- Whether an owner has what the types that it owns refer to. -/
def Closed (a : Arena) (owner : TypeName) : Prop :=
  a.ClosedBut owner fun _ => False

/-- What an owner has is not lost on its behalf. -/
theorem Has.of_grows {id : Nat} (h : a.Has owner id) (hgrows : a.Grows owner b) :
    b.Has owner id := by
  intro t ht hanonymous
  by_cases hlt : id < a.slots.length
  · obtain ⟨s, hs, hgains⟩ := hgrows.exists_slot hlt ht
    rw [hgains.anonymous] at hanonymous
    exact hgains.mem_owners (h s hs hanonymous)
  · obtain ⟨-, howners⟩ := hgrows.new id t (Nat.not_lt.1 hlt) ht
    rw [howners]
    exact List.mem_singleton_self owner

theorem Has.reserve {id : Nat} (h : a.Has owner id) (k : String) :
    (a.reserve owner k).Has owner id := by
  intro t ht hanonymous
  rcases slot_of_reserve ht with ht | ⟨-, rfl⟩
  · exact h t ht hanonymous
  · exact List.mem_singleton_self owner

theorem Has.fill {i : Nat} (h : a.Has owner i) (id : Nat) (k : String) (name : TypeName)
    (body : Option Body) (faults : List Fault) : (a.fill id k name body faults).Has owner i := by
  intro t ht hanonymous
  rw [slot?_fill] at ht
  split at ht
  · obtain ⟨s, hs, rfl⟩ := Option.map_eq_some_iff.1 ht
    exact h s hs hanonymous
  · exact h t ht hanonymous

/-- A reserved slot has no content yet. -/
theorem Closed.reserve (h : a.Closed owner) (k : String) : (a.reserve owner k).Closed owner := by
  intro (i : Nat) t body _ ht hanonymous howner hbody child hchild
  rcases slot_of_reserve ht with ht | ⟨-, rfl⟩
  · exact (h i t body not_false ht hanonymous howner hbody child hchild).reserve k
  · cases hbody

/-- A slot is filled with a content of whose references the owner has all. -/
theorem Closed.fill (h : a.Closed owner) (id : Nat) (k : String) (name : TypeName)
    {body : Option Body} (faults : List Fault)
    (hbody : ∀ b, body = some b → ∀ child ∈ b.references, a.Has owner child) :
    (a.fill id k name body faults).Closed owner := by
  intro i t b _ ht hanonymous howner hb child hchild
  rw [slot?_fill] at ht
  split at ht
  · obtain ⟨s, -, rfl⟩ := Option.map_eq_some_iff.1 ht
    exact (hbody b hb child hchild).fill id k name body faults
  · exact (h i t b not_false ht hanonymous howner hb child hchild).fill id k name body faults

theorem has_of_not_unowned {id : TypeId} (h : ∀ slot, ¬ a.Unowned owner id slot) :
    a.Has owner id := by
  intro slot hslot hanonymous
  by_contra hnew
  exact h slot ⟨hslot, hanonymous, hnew⟩

/-! ## Fuel -/

open Classical in
/-- The positions of anonymous types that an owner does not have. -/
noncomputable def unowned (a : Arena) (owner : TypeName) : Finset Nat :=
  (Finset.range a.slots.length).filter fun id => ∃ slot, a.Unowned owner id slot

theorem mem_unowned {id : Nat} : id ∈ a.unowned owner ↔ ∃ slot, a.Unowned owner id slot := by
  classical
  rw [unowned, Finset.mem_filter, Finset.mem_range]
  constructor
  · rintro ⟨-, h⟩
    exact h
  · rintro ⟨slot, hslot⟩
    exact ⟨lt_length_of_slot? hslot.1, slot, hslot⟩

theorem card_unowned_le (a : Arena) (owner : TypeName) :
    (a.unowned owner).card ≤ a.slots.length := by
  classical
  rw [unowned]
  exact (Finset.card_filter_le _ _).trans_eq (Finset.card_range _)

/-- Growth on behalf of an owner leaves no more to be had. -/
theorem card_unowned_of_grows (h : a.Grows owner b) :
    (b.unowned owner).card ≤ (a.unowned owner).card := by
  refine Finset.card_le_card fun id hid => ?_
  obtain ⟨t, ht, hanonymous, hnew⟩ := mem_unowned.1 hid
  by_cases hlt : id < a.slots.length
  · obtain ⟨s, hs, hgains⟩ := h.exists_slot hlt ht
    rw [hgains.anonymous] at hanonymous
    exact mem_unowned.2 ⟨s, hs, hanonymous, fun hmem => hnew (hgains.mem_owners hmem)⟩
  · obtain ⟨-, howners⟩ := h.new id t (Nat.not_lt.1 hlt) ht
    rw [howners] at hnew
    exact absurd (List.mem_singleton_self owner) hnew

/-- With every type that an owner gets there is one less to be had. -/
theorem card_unowned_own {id : Nat} {slot : Slot} (h : a.Unowned owner id slot) :
    ((a.modify id fun s => { s with owners := s.owners ++ [owner] }).unowned owner).card <
      (a.unowned owner).card := by
  obtain ⟨hslot, hanonymous, hnew⟩ := h
  have hgrows := grows_own hslot hanonymous hnew
  refine Finset.card_lt_card (Finset.ssubset_iff_subset_ne.2 ⟨fun i hi => ?_, fun heq => ?_⟩)
  · obtain ⟨t, ht, hanonymous', hnew'⟩ := mem_unowned.1 hi
    have hlt := lt_length_of_slot? ht
    rw [length_modify] at hlt
    obtain ⟨s, hs, hgains⟩ := hgrows.exists_slot hlt ht
    rw [hgains.anonymous] at hanonymous'
    exact mem_unowned.2 ⟨s, hs, hanonymous', fun hmem => hnew' (hgains.mem_owners hmem)⟩
  · have hmem : id ∈ a.unowned owner := mem_unowned.2 ⟨slot, hslot, hanonymous, hnew⟩
    rw [← heq] at hmem
    obtain ⟨t, ht, -, hnew'⟩ := mem_unowned.1 hmem
    rw [slot?_modify, if_pos rfl, hslot] at ht
    obtain rfl := Option.some.inj ht
    exact hnew' (List.mem_append_right _ (List.mem_singleton_self owner))

/-! ## Sharing reaches everything -/

/-- What sharing some types for an owner does: the owner then has them, and still has what
its types refer to where it had. -/
structure Reaches (owner : TypeName) (ids : List TypeId) (a b : Arena) : Prop where
  grows : a.Grows owner b
  has : ∀ id ∈ ids, b.Has owner id
  closed : ∀ pending, a.ClosedBut owner pending → b.ClosedBut owner pending

namespace Reaches

variable {id : TypeId} {ids : List TypeId}

/-- There is nothing to be done for types that the owner has. -/
theorem of_has (h : ∀ id ∈ ids, a.Has owner id) : Reaches owner ids a a where
  grows := .refl owner a
  has := h
  closed _ hclosed := hclosed

theorem cons (h : Reaches owner [id] a b) (h' : Reaches owner ids b c) :
    Reaches owner (id :: ids) a c where
  grows := h.grows.trans h'.grows
  has i hi := by
    rcases List.mem_cons.1 hi with rfl | hi
    · exact (h.has i (List.mem_singleton_self i)).of_grows h'.grows
    · exact h'.has i hi
  closed pending hclosed := h'.closed pending (h.closed pending hclosed)

/-- A type is marked as owned, and its references are followed. -/
theorem mark {slot : Slot} (hslot : a.Unowned owner id slot)
    (h : Reaches owner ((slot.body.map Body.references).getD [])
      (a.modify id fun s => { s with owners := s.owners ++ [owner] }) b) :
    Reaches owner [id] a b := by
  have hgrows := grows_own hslot.1 hslot.2.1 hslot.2.2
  have hmarked : (a.modify id fun s => { s with owners := s.owners ++ [owner] }).slot? id =
      some { slot with owners := slot.owners ++ [owner] } := by
    rw [slot?_modify, if_pos rfl, hslot.1]
    rfl
  obtain ⟨t, ht, hgains⟩ := h.grows.slots id _ hmarked
  refine ⟨hgrows.trans h.grows, fun i hi => ?_, fun pending hclosed => ?_⟩
  · obtain rfl := List.mem_singleton.1 hi
    intro t' ht' _
    obtain rfl := Option.some.inj (ht.symm.trans ht')
    exact hgains.mem_owners (List.mem_append_right _ (List.mem_singleton_self owner))
  · -- The type itself is pending until its references have been followed.
    have hpending : (a.modify id fun s => { s with owners := s.owners ++ [owner] }).ClosedBut
        owner fun i => pending i ∨ id = i := by
      intro i s body hi hs hanonymous howner hbody child hchild
      rw [slot?_modify, if_neg fun heq => hi (Or.inr heq)] at hs
      have hhad := hclosed i s body (fun hp => hi (Or.inl hp)) hs hanonymous howner hbody child
      exact (hhad hchild).of_grows hgrows
    intro i s body hi hs hanonymous howner hbody child hchild
    by_cases heq : id = i
    · subst heq
      obtain rfl := Option.some.inj (ht.symm.trans hs)
      have hsame := hgains.body
      rw [hbody] at hsame
      refine h.has child ?_
      rw [← hsame]
      exact hchild
    · have hother : ¬ (pending i ∨ id = i) := fun hor => hor.elim hi heq
      exact h.closed _ hpending i s body hother hs hanonymous howner hbody child hchild

end Reaches

/-- **What sharing reaches.**  With enough fuel the owner then has the type, and with it
everything that the types it has refer to. -/
theorem share_reaches (owner : TypeName) (fuel : Nat) (id : TypeId) (a : Arena) :
    (a.unowned owner).card ≤ fuel → Reaches owner [id] a (share owner fuel id a).2 := by
  refine share_induction owner
    (P := fun fuel id a _ b => (a.unowned owner).card ≤ fuel → Reaches owner [id] a b)
    (Q := fun fuel ids a _ b => (a.unowned owner).card ≤ fuel → Reaches owner ids a b)
    ?zero ?skip ?own ?nil ?cons fuel id a
  case zero =>
    intro id a hfuel
    refine .of_has fun i hi => has_of_not_unowned fun slot hslot => ?_
    obtain rfl := List.mem_singleton.1 hi
    have hpos := Finset.card_pos.2 ⟨i, mem_unowned.2 ⟨slot, hslot⟩⟩
    omega
  case skip =>
    intro fuel id a hnone _
    refine .of_has fun i hi => has_of_not_unowned ?_
    obtain rfl := List.mem_singleton.1 hi
    exact hnone
  case own =>
    intro fuel id a slot faults b hslot hrest hfuel
    have hless := card_unowned_own hslot
    exact .mark hslot (hrest (by omega))
  case nil =>
    intro fuel a _
    exact .of_has fun id hid => by cases hid
  case cons =>
    intro fuel id ids a faults b faults' c hfirst hrest hfuel
    have hreaches := hfirst hfuel
    have hless := card_unowned_of_grows hreaches.grows
    exact hreaches.cons (hrest (by omega))

/-- The owner of a shared type has it. -/
theorem has_share (owner : TypeName) (id : TypeId) (a : Arena) :
    (share owner a.slots.length id a).2.Has owner id :=
  (share_reaches owner _ id a (a.card_unowned_le owner)).has id (List.mem_singleton_self id)

/-- Sharing leaves an owner with all that its types refer to. -/
theorem Closed.share (h : a.Closed owner) (id : TypeId) :
    (share owner a.slots.length id a).2.Closed owner :=
  (share_reaches owner _ id a (a.card_unowned_le owner)).closed _ h

/-! ## Sharing reaches nothing else -/

/-- Whether the references of anonymous types do not lead out of a set of positions. -/
def Under (a : Arena) (region : TypeId → Prop) : Prop :=
  ∀ (id : TypeId) (slot : Slot) (body : Body), region id → a.slot? id = some slot →
    slot.anonymous = true → slot.body = some body → ∀ child ∈ body.references, region child

/-- Sharing a type goes on to types in the same set. -/
theorem Under.children {region : TypeId → Prop} (h : a.Under region) {id : TypeId} {slot : Slot}
    (hid : region id) (hslot : a.Unowned owner id slot) :
    ∀ child ∈ (slot.body.map Body.references).getD [], region child := by
  intro child hchild
  cases hbody : slot.body with
  | none =>
    rw [hbody] at hchild
    cases hchild
  | some body =>
    rw [hbody] at hchild
    exact h id slot body hid hslot.1 hslot.2.1 hbody child hchild

/-- Owners make no difference to where references lead. -/
theorem Under.own {region : TypeId → Prop} (h : a.Under region) (owner : TypeName) (id : Nat) :
    (a.modify id fun s => { s with owners := s.owners ++ [owner] }).Under region := by
  intro i slot body hi hslot hanonymous hbody
  rw [slot?_modify] at hslot
  split at hslot
  · obtain ⟨slot', hslot', rfl⟩ := Option.map_eq_some_iff.1 hslot
    exact h i slot' body hi hslot' hanonymous hbody
  · exact h i slot body hi hslot hanonymous hbody

/-- What sharing does in a set of positions: slots become the owner's in this set only,
where their faults are told, and no other faults are. -/
structure SharesWithin (owner : TypeName) (region : TypeId → Prop) (a : Arena)
    (faults : List Fault) (b : Arena) : Prop where
  slots : ∀ (i : Nat) (t : Slot), b.slot? i = some t → ∃ s, a.slot? i = some s ∧
    s.Gains owner t ∧ (owner ∈ t.owners → owner ∈ s.owners ∨ region i ∧ t.faults ⊆ faults)
  faults : ∀ f ∈ faults, ∃ (i : Nat) (s : Slot), region i ∧ a.slot? i = some s ∧
    s.anonymous = true ∧ f ∈ s.faults

namespace SharesWithin

variable {region : TypeId → Prop} {faults faults' : List Fault}

theorem refl (owner : TypeName) (region : TypeId → Prop) (a : Arena) :
    SharesWithin owner region a [] a where
  slots _ t ht := ⟨t, ht, .refl owner t, Or.inl⟩
  faults _ hf := by cases hf

theorem trans (h : SharesWithin owner region a faults b)
    (h' : SharesWithin owner region b faults' c) :
    SharesWithin owner region a (faults ++ faults') c where
  slots i u hu := by
    obtain ⟨t, ht, hgains', htold'⟩ := h'.slots i u hu
    obtain ⟨s, hs, hgains, htold⟩ := h.slots i t ht
    refine ⟨s, hs, hgains.trans hgains', fun howner => ?_⟩
    rcases htold' howner with howner | ⟨hregion, hfaults⟩
    · rcases htold howner with howner | ⟨hregion, hfaults⟩
      · exact Or.inl howner
      · rw [hgains'.faults]
        exact Or.inr ⟨hregion, fun f hf => List.mem_append_left _ (hfaults hf)⟩
    · exact Or.inr ⟨hregion, fun f hf => List.mem_append_right _ (hfaults hf)⟩
  faults f hf := by
    rcases List.mem_append.1 hf with hf | hf
    · exact h.faults f hf
    · obtain ⟨i, t, hregion, ht, hanonymous, hf⟩ := h'.faults f hf
      obtain ⟨s, hs, hgains, -⟩ := h.slots i t ht
      rw [hgains.anonymous] at hanonymous
      rw [hgains.faults] at hf
      exact ⟨i, s, hregion, hs, hanonymous, hf⟩

theorem under (h : SharesWithin owner region a faults b) (hunder : a.Under region) :
    b.Under region := by
  intro i t body hi ht hanonymous hbody
  obtain ⟨s, hs, hgains, -⟩ := h.slots i t ht
  rw [hgains.anonymous] at hanonymous
  rw [hgains.body] at hbody
  exact hunder i s body hi hs hanonymous hbody

end SharesWithin

/-- **What sharing reaches at most.** -/
theorem sharesWithin {region : TypeId → Prop} (owner : TypeName) (fuel : Nat) (id : TypeId)
    (a : Arena) (hid : region id) (hunder : a.Under region) :
    SharesWithin owner region a (share owner fuel id a).1.faults (share owner fuel id a).2 := by
  refine share_induction owner
    (P := fun _ id a faults b =>
      region id → a.Under region → SharesWithin owner region a faults b)
    (Q := fun _ ids a faults b =>
      (∀ id ∈ ids, region id) → a.Under region → SharesWithin owner region a faults b)
    ?zero ?skip ?own ?nil ?cons fuel id a hid hunder
  case zero => exact fun id a _ _ => .refl owner region a
  case skip => exact fun fuel id a _ _ _ => .refl owner region a
  case own =>
    intro fuel id a slot faults b hslot hrest hid hunder
    have hchildren := hunder.children hid hslot
    have hmark : SharesWithin owner region a slot.faults
        (a.modify id fun s => { s with owners := s.owners ++ [owner] }) := by
      refine ⟨fun i t ht => ?_, fun f hf => ⟨id, slot, hid, hslot.1, hslot.2.1, hf⟩⟩
      rw [slot?_modify] at ht
      by_cases heq : id = i
      · subst heq
        rw [if_pos rfl, hslot.1] at ht
        obtain rfl := Option.some.inj ht
        exact ⟨slot, hslot.1, Or.inr ⟨hslot.2.1, hslot.2.2, rfl⟩,
          fun _ => Or.inr ⟨hid, fun f hf => hf⟩⟩
      · rw [if_neg heq] at ht
        exact ⟨t, ht, .refl owner t, Or.inl⟩
    exact hmark.trans (hrest hchildren (hunder.own owner id))
  case nil => exact fun fuel a _ _ => .refl owner region a
  case cons =>
    intro fuel id ids a faults b faults' c hfirst hrest hids hunder
    have hshares := hfirst (hids id (List.mem_cons_self ..)) hunder
    exact hshares.trans (hrest (fun i hi => hids i (List.mem_cons_of_mem _ hi))
      (hshares.under hunder))

end Arena
end WireSchema
