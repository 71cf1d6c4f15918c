import Mathlib.Tactic.Common
import WireSchema.Arena

/-!
# How an arena grows

A compile on behalf of one owner only ever adds to an arena.  A slot that is there keeps
its name, its content and its faults, and at most becomes the owner's as well; a new slot
is anonymous and the owner's alone; a digest that has been met keeps its state, and one
that is met by the way is finished in the end.  `Arena.Grows` is this relation.

The only step that is not growth by itself is filling a slot.  It happens in the slot
that has been reserved for it, so that from the outside a slot is either not there or
filled (`Arena.Grows.fill`).

Sharing a type is growth in which nothing but owners changes (`share_frame`), and
`share_induction` is the induction along the types that it reaches.
-/

namespace WireSchema

/-! ## Lookups -/

namespace Arena

theorem slot?_modify (a : Arena) (id : Nat) (f : Slot → Slot) (i : Nat) :
    (a.modify id f).slot? i = if id = i then (a.slot? i).map f else a.slot? i := by
  rw [slot?, slot?, modify, List.getElem?_modify]
  split
  · rfl
  · cases a.slots[i]? <;> rfl

theorem slot?_reserve_of_lt {a : Arena} {owner : TypeName} {digest : String} {i : Nat}
    (h : i < a.slots.length) : (a.reserve owner digest).slot? i = a.slot? i :=
  List.getElem?_append_left h

theorem slot?_reserve (a : Arena) (owner : TypeName) (digest : String) :
    (a.reserve owner digest).slot? a.slots.length = some ⟨"", [owner], true, none, []⟩ :=
  List.getElem?_concat_length

theorem length_reserve (a : Arena) (owner : TypeName) (digest : String) :
    (a.reserve owner digest).slots.length = a.slots.length + 1 :=
  List.length_append

theorem slot?_fill (a : Arena) (id : Nat) (digest : String) (name : TypeName)
    (body : Option Body) (faults : List Fault) (i : Nat) :
    (a.fill id digest name body faults).slot? i =
      if id = i then (a.slot? i).map (fun s => { s with name, body, faults }) else a.slot? i :=
  a.slot?_modify id _ i

theorem length_fill (a : Arena) (id : Nat) (digest : String) (name : TypeName)
    (body : Option Body) (faults : List Fault) :
    (a.fill id digest name body faults).slots.length = a.slots.length :=
  List.length_modify ..

theorem length_modify (a : Arena) (id : Nat) (f : Slot → Slot) :
    (a.modify id f).slots.length = a.slots.length :=
  List.length_modify ..

theorem lt_length_of_slot? {a : Arena} {id : Nat} {slot : Slot} (h : a.slot? id = some slot) :
    id < a.slots.length :=
  (List.getElem?_eq_some_iff.1 h).1

theorem exists_slot? {a : Arena} {id : Nat} (h : id < a.slots.length) :
    ∃ slot, a.slot? id = some slot :=
  ⟨_, List.getElem?_eq_getElem h⟩

/-- A slot of an arena with a new one was there before, or is the new one. -/
theorem slot_of_reserve {a : Arena} {owner : TypeName} {digest : String} {id : Nat} {slot : Slot}
    (h : (a.reserve owner digest).slot? id = some slot) :
    a.slot? id = some slot ∨
      id = a.slots.length ∧ slot = ⟨"", [owner], true, none, []⟩ := by
  by_cases hlt : id < a.slots.length
  · rw [slot?_reserve_of_lt hlt] at h
    exact Or.inl h
  · have hle := lt_length_of_slot? h
    rw [length_reserve] at hle
    obtain rfl : id = a.slots.length := by omega
    rw [slot?_reserve] at h
    exact Or.inr ⟨rfl, (Option.some.inj h).symm⟩

theorem state?_reserve (a : Arena) (owner : TypeName) (digest k : String) :
    (a.reserve owner digest).state? k = if k = digest then some .inProgress else a.state? k := by
  rw [state?, state?, reserve, List.lookup_cons]
  split <;> simp_all

theorem state?_fill (a : Arena) (id : Nat) (digest : String) (name : TypeName)
    (body : Option Body) (faults : List Fault) (k : String) :
    (a.fill id digest name body faults).state? k =
      if k = digest then some (.finished id) else a.state? k := by
  rw [state?, state?, fill, List.lookup_cons]
  split <;> simp_all [modify]

@[simp] theorem state?_modify (a : Arena) (id : Nat) (f : Slot → Slot) (k : String) :
    (a.modify id f).state? k = a.state? k := rfl

/-! ### Digests in the order in which they were met -/

/-- The digests for which slots have been reserved, in order. -/
def met (a : Arena) : List String :=
  (a.inlines.filterMap fun e => if e.2 = .inProgress then some e.1 else none).reverse

@[simp] theorem met_reserve (a : Arena) (owner : TypeName) (digest : String) :
    (a.reserve owner digest).met = a.met ++ [digest] := by
  rw [met, met, reserve, List.filterMap_cons_some (by rfl), List.reverse_cons]

@[simp] theorem met_fill (a : Arena) (id : Nat) (digest : String) (name : TypeName)
    (body : Option Body) (faults : List Fault) :
    (a.fill id digest name body faults).met = a.met := by
  rw [met, met, fill, List.filterMap_cons_none (by rfl), modify]

@[simp] theorem met_modify (a : Arena) (id : Nat) (f : Slot → Slot) :
    (a.modify id f).met = a.met := rfl

end Arena

/-! ## Growth -/

/-- A slot becomes an owner's, unless it is already or comes from a declaration. -/
def Slot.Gains (owner : TypeName) (s t : Slot) : Prop :=
  t = s ∨ s.anonymous = true ∧ owner ∉ s.owners ∧ t = { s with owners := s.owners ++ [owner] }

namespace Slot.Gains

variable {owner : TypeName} {s t u : Slot}

theorem refl (owner : TypeName) (s : Slot) : s.Gains owner s := Or.inl rfl

/-- A slot becomes an owner's only once. -/
theorem trans (h : s.Gains owner t) (h' : t.Gains owner u) : s.Gains owner u := by
  rcases h with rfl | ⟨hanonymous, hnew, rfl⟩
  · exact h'
  · rcases h' with rfl | ⟨-, hnew', -⟩
    · exact Or.inr ⟨hanonymous, hnew, rfl⟩
    · exact absurd (List.mem_append_right _ (List.mem_singleton_self _)) hnew'

theorem name (h : s.Gains owner t) : t.name = s.name := by
  rcases h with rfl | ⟨-, -, rfl⟩ <;> rfl

theorem anonymous (h : s.Gains owner t) : t.anonymous = s.anonymous := by
  rcases h with rfl | ⟨-, -, rfl⟩ <;> rfl

theorem body (h : s.Gains owner t) : t.body = s.body := by
  rcases h with rfl | ⟨-, -, rfl⟩ <;> rfl

theorem faults (h : s.Gains owner t) : t.faults = s.faults := by
  rcases h with rfl | ⟨-, -, rfl⟩ <;> rfl

theorem mem_owners (h : s.Gains owner t) {p : TypeName} (hp : p ∈ s.owners) : p ∈ t.owners := by
  rcases h with rfl | ⟨-, -, rfl⟩
  · exact hp
  · exact List.mem_append_left _ hp

theorem of_mem_owners (h : s.Gains owner t) {p : TypeName} (hp : p ∈ t.owners) :
    p ∈ s.owners ∨ p = owner := by
  rcases h with rfl | ⟨-, -, rfl⟩
  · exact Or.inl hp
  · exact (List.mem_append.1 hp).imp_right List.mem_singleton.1

theorem of_declared (h : s.Gains owner t) (hs : s.anonymous = false) : t = s := by
  rcases h with rfl | ⟨hanonymous, -, -⟩
  · rfl
  · rw [hs] at hanonymous
    cases hanonymous

end Slot.Gains

/-- What a compile on behalf of an owner does to an arena. -/
structure Arena.Grows (owner : TypeName) (a b : Arena) : Prop where
  /-- No slot disappears or changes, but for its owners. -/
  slots : ∀ (id : Nat) (s : Slot), a.slot? id = some s → ∃ t, b.slot? id = some t ∧ s.Gains owner t
  /-- A new slot is anonymous and has this owner. -/
  new : ∀ (id : Nat) (t : Slot), a.slots.length ≤ id → b.slot? id = some t →
    t.anonymous = true ∧ t.owners = [owner]
  /-- What is known of a digest stays. -/
  states : ∀ k state, a.state? k = some state → b.state? k = some state
  /-- A digest that is met gets a new slot. -/
  fresh : ∀ k state, a.state? k = none → b.state? k = some state →
    ∃ id : Nat, state = .finished id ∧ a.slots.length ≤ id
  /-- Digests are met one after the other. -/
  met : a.met <+: b.met

namespace Arena.Grows

variable {owner : TypeName} {a b c : Arena}

theorem refl (owner : TypeName) (a : Arena) : a.Grows owner a where
  slots id s h := ⟨s, h, .refl owner s⟩
  new id t hid h := absurd (lt_length_of_slot? h) (Nat.not_lt.2 hid)
  states k state h := h
  fresh k state hnone hstate := by
    rw [hnone] at hstate
    cases hstate
  met := List.prefix_rfl

theorem length_le (h : a.Grows owner b) : a.slots.length ≤ b.slots.length := by
  by_contra hlt
  obtain ⟨s, hs⟩ := exists_slot? (Nat.not_le.1 hlt)
  obtain ⟨t, ht, -⟩ := h.slots _ s hs
  exact Nat.lt_irrefl _ (lt_length_of_slot? ht)

theorem trans (h : a.Grows owner b) (h' : b.Grows owner c) : a.Grows owner c where
  slots id s hs := by
    obtain ⟨t, ht, hgains⟩ := h.slots id s hs
    obtain ⟨u, hu, hgains'⟩ := h'.slots id t ht
    exact ⟨u, hu, hgains.trans hgains'⟩
  new id u hid hu := by
    by_cases hlt : id < b.slots.length
    · obtain ⟨t, ht⟩ := exists_slot? hlt
      obtain ⟨hanonymous, howners⟩ := h.new id t hid ht
      obtain ⟨u', hu', hgains⟩ := h'.slots id t ht
      obtain rfl := Option.some.inj (hu.symm.trans hu')
      rcases hgains with rfl | ⟨-, hnew, -⟩
      · exact ⟨hanonymous, howners⟩
      · exact absurd (howners ▸ List.mem_singleton_self _) hnew
    · exact h'.new id u (Nat.not_lt.1 hlt) hu
  states k state hk := h'.states k state (h.states k state hk)
  fresh k state hnone hstate := by
    cases hk : b.state? k with
    | none =>
      obtain ⟨id, hid, hle⟩ := h'.fresh k state hk hstate
      exact ⟨id, hid, Nat.le_trans h.length_le hle⟩
    | some state' =>
      obtain rfl := Option.some.inj ((h'.states k state' hk).symm.trans hstate)
      exact h.fresh k state' hnone hk
  met := h.met.trans h'.met

/-- A slot that was there, seen from behind. -/
theorem exists_slot (h : a.Grows owner b) {id : Nat} {t : Slot} (hid : id < a.slots.length)
    (ht : b.slot? id = some t) : ∃ s, a.slot? id = some s ∧ s.Gains owner t := by
  obtain ⟨s, hs⟩ := exists_slot? hid
  obtain ⟨t', ht', hgains⟩ := h.slots id s hs
  obtain rfl := Option.some.inj (ht.symm.trans ht')
  exact ⟨s, hs, hgains⟩

/-- Nothing new is left in progress. -/
theorem inProgress (h : a.Grows owner b) {k : String} (hk : b.state? k = some .inProgress) :
    a.state? k = some .inProgress := by
  cases hstate : a.state? k with
  | none =>
    obtain ⟨id, hid, -⟩ := h.fresh k _ hstate hk
    cases hid
  | some state =>
    rw [h.states k state hstate] at hk
    exact hk

end Arena.Grows

/-- An anonymous slot becomes an owner's. -/
theorem Arena.grows_own {a : Arena} {owner : TypeName} {id : Nat} {slot : Slot}
    (hslot : a.slot? id = some slot) (hanonymous : slot.anonymous = true)
    (hnew : owner ∉ slot.owners) :
    a.Grows owner (a.modify id fun s => { s with owners := s.owners ++ [owner] }) where
  slots i s hs := by
    rw [slot?_modify]
    by_cases h : id = i
    · subst h
      obtain rfl := Option.some.inj (hslot.symm.trans hs)
      rw [if_pos rfl, hs]
      exact ⟨_, rfl, Or.inr ⟨hanonymous, hnew, rfl⟩⟩
    · rw [if_neg h]
      exact ⟨s, hs, .refl owner s⟩
  new i t hi ht := by
    have hlt := lt_length_of_slot? ht
    rw [length_modify] at hlt
    exact absurd hlt (Nat.not_lt.2 hi)
  states k state h := h
  fresh k state hnone hstate := by
    rw [state?_modify, hnone] at hstate
    cases hstate
  met := List.prefix_rfl

/-- Reserving a slot, growing from there and filling the slot is growth. -/
theorem Arena.Grows.fill {owner : TypeName} {a b : Arena} {k : String}
    (hstate : a.state? k = none) (h : (a.reserve owner k).Grows owner b) (name : TypeName)
    (body : Option Body) (faults : List Fault) :
    a.Grows owner (b.fill a.slots.length k name body faults) where
  slots id s hs := by
    have hlt := lt_length_of_slot? hs
    obtain ⟨t, ht, hgains⟩ := h.slots id s ((slot?_reserve_of_lt hlt).trans hs)
    refine ⟨t, ?_, hgains⟩
    rw [slot?_fill, if_neg (Nat.ne_of_gt hlt), ht]
  new id t hid ht := by
    rw [slot?_fill] at ht
    by_cases heq : a.slots.length = id
    · subst heq
      rw [if_pos rfl] at ht
      obtain ⟨s, hs, hgains⟩ := h.slots _ _ (slot?_reserve a owner k)
      rw [hs] at ht
      obtain rfl := Option.some.inj ht
      rcases hgains with rfl | ⟨-, hnew, -⟩
      · exact ⟨rfl, rfl⟩
      · exact absurd (List.mem_singleton_self _) hnew
    · rw [if_neg heq] at ht
      refine h.new id t ?_ ht
      rw [length_reserve]
      omega
  states k' state hk' := by
    have hne : k' ≠ k := by
      rintro rfl
      rw [hstate] at hk'
      cases hk'
    rw [state?_fill, if_neg hne]
    refine h.states k' state ?_
    rw [state?_reserve, if_neg hne, hk']
  fresh k' state hnone hk' := by
    rw [state?_fill] at hk'
    split at hk'
    · exact ⟨_, (Option.some.inj hk').symm, Nat.le_refl _⟩
    · next hne =>
      obtain ⟨id, hid, hle⟩ := h.fresh k' state
        (by rw [state?_reserve, if_neg hne, hnone]) hk'
      rw [length_reserve] at hle
      exact ⟨id, hid, by omega⟩
  met := by
    have hmet := h.met
    rw [met_reserve] at hmet
    rw [met_fill]
    exact (List.prefix_append a.met [k]).trans hmet

/-! ## Sharing -/

/-- Several types shared one after the other. -/
def shareAll (owner : TypeName) (fuel : Nat) (ids : List TypeId) : Pass Unit :=
  ids.forM (share owner fuel)

theorem shareAll_cons (owner : TypeName) (fuel : Nat) (id : Nat) (ids : List TypeId)
    (a : Arena) :
    shareAll owner fuel (id :: ids) a =
      (⟨(), (share owner fuel id a).1.faults ++
          (shareAll owner fuel ids (share owner fuel id a).2).1.faults⟩,
        (shareAll owner fuel ids (share owner fuel id a).2).2) := rfl

/-- The anonymous slot at a position, when it is not the owner's yet. -/
def Arena.Unowned (a : Arena) (owner : TypeName) (id : Nat) (slot : Slot) : Prop :=
  a.slot? id = some slot ∧ slot.anonymous = true ∧ owner ∉ slot.owners

/-- Sharing goes past exactly the slots that are not `Arena.Unowned`. -/
theorem Arena.unowned_iff {a : Arena} {owner : TypeName} {id : Nat} {slot : Slot}
    (hslot : a.slot? id = some slot) :
    a.Unowned owner id slot ↔ ¬ (slot.anonymous = false ∨ owner ∈ slot.owners) := by
  rw [not_or, Bool.not_eq_false]
  exact and_iff_right hslot

theorem Arena.not_unowned_of_mem {a : Arena} {owner : TypeName} {id : Nat} {slot : Slot}
    (hslot : a.slot? id = some slot) (howner : owner ∈ slot.owners) :
    ∀ s, ¬ a.Unowned owner id s := by
  rintro s ⟨hs, -, hnew⟩
  obtain rfl := Option.some.inj (hslot.symm.trans hs)
  exact hnew howner

theorem share_of_unowned {owner : TypeName} {a : Arena} {id : Nat} {slot : Slot}
    (h : a.Unowned owner id slot) (fuel : Nat) :
    share owner (fuel + 1) id a =
      (⟨(), slot.faults ++
          (shareAll owner fuel ((slot.body.map Body.references).getD [])
            (a.modify id fun s => { s with owners := s.owners ++ [owner] })).1.faults⟩,
        (shareAll owner fuel ((slot.body.map Body.references).getD [])
          (a.modify id fun s => { s with owners := s.owners ++ [owner] })).2) := by
  simp only [share, h.1, if_neg ((Arena.unowned_iff h.1).1 h)]
  rfl

theorem share_of_not_unowned {owner : TypeName} {a : Arena} {id : Nat}
    (h : ∀ slot, ¬ a.Unowned owner id slot) (fuel : Nat) :
    share owner fuel id a = (.ok (), a) := by
  cases fuel with
  | zero => rfl
  | succ fuel =>
    simp only [share]
    split
    · rfl
    · next slot hslot =>
      rw [if_pos (not_not.1 (mt (Arena.unowned_iff hslot).2 (h slot)))]

/-- **Induction along sharing.**  `P` is about sharing one type and `Q` about sharing
several. -/
theorem share_induction (owner : TypeName) {P : Nat → TypeId → Arena → List Fault → Arena → Prop}
    {Q : Nat → List TypeId → Arena → List Fault → Arena → Prop}
    (zero : ∀ id a, P 0 id a [] a)
    (skip : ∀ fuel id a, (∀ slot, ¬ a.Unowned owner id slot) → P fuel id a [] a)
    (own : ∀ fuel id a slot faults b, a.Unowned owner id slot →
      Q fuel ((slot.body.map Body.references).getD [])
          (a.modify id fun s => { s with owners := s.owners ++ [owner] }) faults b →
        P (fuel + 1) id a (slot.faults ++ faults) b)
    (nil : ∀ fuel a, Q fuel [] a [] a)
    (cons : ∀ fuel id ids a faults b faults' c, P fuel id a faults b → Q fuel ids b faults' c →
      Q fuel (id :: ids) a (faults ++ faults') c) :
    ∀ fuel id a, P fuel id a (share owner fuel id a).1.faults (share owner fuel id a).2 := by
  intro fuel
  induction fuel with
  | zero => exact zero
  | succ fuel ih =>
    have hall : ∀ ids a,
        Q fuel ids a (shareAll owner fuel ids a).1.faults (shareAll owner fuel ids a).2 := by
      intro ids
      induction ids with
      | nil => exact nil fuel
      | cons id ids ihs =>
        intro a
        rw [shareAll_cons]
        exact cons fuel id ids a _ _ _ _ (ih id a) (ihs _)
    intro id a
    by_cases h : ∃ slot, a.Unowned owner id slot
    · obtain ⟨slot, hslot⟩ := h
      rw [share_of_unowned hslot]
      exact own fuel id a slot _ _ hslot (hall _ _)
    · rw [share_of_not_unowned (not_exists.1 h)]
      exact skip (fuel + 1) id a (not_exists.1 h)

/-- Sharing adds owners to slots and does nothing else. -/
theorem share_frame (owner : TypeName) (fuel : Nat) (id : Nat) (a : Arena) :
    a.Grows owner (share owner fuel id a).2 ∧ (share owner fuel id a).2.inlines = a.inlines ∧
      (share owner fuel id a).2.slots.length = a.slots.length := by
  refine share_induction owner
    (P := fun _ _ a _ b =>
      a.Grows owner b ∧ b.inlines = a.inlines ∧ b.slots.length = a.slots.length)
    (Q := fun _ _ a _ b =>
      a.Grows owner b ∧ b.inlines = a.inlines ∧ b.slots.length = a.slots.length)
    ?zero ?skip ?own ?nil ?cons fuel id a
  case zero => exact fun id a => ⟨.refl owner a, rfl, rfl⟩
  case skip => exact fun fuel id a _ => ⟨.refl owner a, rfl, rfl⟩
  case own =>
    intro fuel id a slot faults b hslot hrest
    exact ⟨(Arena.grows_own hslot.1 hslot.2.1 hslot.2.2).trans hrest.1, hrest.2.1,
      hrest.2.2.trans (Arena.length_modify ..)⟩
  case nil => exact fun fuel a => ⟨.refl owner a, rfl, rfl⟩
  case cons =>
    intro fuel id ids a faults b faults' c hfirst hrest
    exact ⟨hfirst.1.trans hrest.1, hrest.2.1.trans hfirst.2.1, hrest.2.2.trans hfirst.2.2⟩

theorem grows_share (owner : TypeName) (fuel : Nat) (id : Nat) (a : Arena) :
    a.Grows owner (share owner fuel id a).2 :=
  (share_frame owner fuel id a).1

@[simp] theorem state?_share (owner : TypeName) (fuel : Nat) (id : Nat) (a : Arena)
    (k : String) : (share owner fuel id a).2.state? k = a.state? k := by
  rw [Arena.state?, (share_frame owner fuel id a).2.1]
  rfl

@[simp] theorem met_share (owner : TypeName) (fuel : Nat) (id : Nat) (a : Arena) :
    (share owner fuel id a).2.met = a.met := by
  rw [Arena.met, (share_frame owner fuel id a).2.1]
  rfl

@[simp] theorem length_share (owner : TypeName) (fuel : Nat) (id : Nat) (a : Arena) :
    (share owner fuel id a).2.slots.length = a.slots.length :=
  (share_frame owner fuel id a).2.2

end WireSchema
