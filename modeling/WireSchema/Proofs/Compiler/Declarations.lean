import WireSchema.Compiler
import WireSchema.Proofs.Resolution.Order

/-!
# The declaration pass

The declarations are compiled one after the other, each into its own slot.  A slot that has
been filled is not touched again, and what its content refers to stays where it was; so
what holds of a declaration when it has been compiled holds in the end
(`Compiler.declarations_links`).

If no declaration has a fault, the arena has met everything that is contained in the
declarations, in their order (`Compiler.declarations_meets`).
-/

namespace WireSchema

/-! ## The slots of declared types -/

namespace Arena

variable {digest : String → String} {declared : List TypeName} {within : List Definition}
  {a b : Arena}

theorem Valid.modify_body (h : a.Valid digest declared within) {id : Nat}
    (hid : id < declared.length) (body : Option Body) :
    (a.modify id fun s => { s with body }).Valid digest declared within where
  toWellFormed := h.toWellFormed.modify_body id body
  holds k i hk := by
    obtain ⟨d, hd, slot, hkey, hslot, hholds⟩ := h.holds k i hk
    have hne : id ≠ i := Nat.ne_of_lt (Nat.lt_of_lt_of_le hid (h.declared_le hk))
    have hkeeps : a.Keeps (a.modify id fun s => { s with body }) := fun _ _ hk' => hk'
    refine ⟨d, hd, slot, hkey, ?_, hholds.mono hkeeps (.refl "" slot)⟩
    rw [slot?_modify, if_neg hne, hslot]

theorem Complete.modify_body (h : a.Valid digest declared within) (hcomplete : a.Complete)
    {id : Nat} (hid : id < declared.length) (body : Option Body) :
    (a.modify id fun s => { s with body }).Complete := by
  intro k i slot hk hslot
  have hne : id ≠ i := Nat.ne_of_lt (Nat.lt_of_lt_of_le hid (h.declared_le hk))
  rw [slot?_modify, if_neg hne] at hslot
  exact hcomplete k i slot hk hslot

/-- The slots of declared types are not changed by growth. -/
theorem Valid.slot?_of_grows (h : a.Valid digest declared within) {owner : TypeName}
    (hgrows : a.Grows owner b) {i : Nat} (hi : i < declared.length) : b.slot? i = a.slot? i := by
  obtain ⟨slot, hslot, -, -, hdeclared⟩ := h.declaredSlots i _ (List.getElem?_eq_getElem hi)
  obtain ⟨slot', hslot', hgains⟩ := hgrows.slots i slot hslot
  rw [hslot', hslot, hgains.of_declared hdeclared]

theorem valid_ofDeclared (digest : String → String) (declared : List TypeName)
    (within : List Definition) : (ofDeclared declared).Valid digest declared within where
  toWellFormed := .ofDeclared declared
  holds k id hk := by cases hk

theorem complete_ofDeclared (declared : List TypeName) : (ofDeclared declared).Complete := by
  intro k id slot hk
  cases hk

end Arena

/-! ## One declaration after the other -/

namespace Compiler

variable (c : Compiler)

theorem declarations_cons (declared : List TypeName) (id : TypeId) (name : TypeName)
    (d : Definition) (rest : List (TypeName × Definition)) (a : Arena) :
    c.declarations declared id ((name, d) :: rest) a =
      ((name, ((c.scope declared name).compile 0 d a).1.faults) ::
          (c.declarations declared (id + 1) rest
            (((c.scope declared name).compile 0 d a).2.modify id fun s =>
              { s with body := ((c.scope declared name).compile 0 d a).1.value })).1,
        (c.declarations declared (id + 1) rest
          (((c.scope declared name).compile 0 d a).2.modify id fun s =>
            { s with body := ((c.scope declared name).compile 0 d a).1.value })).2) := rfl

variable {c} in
/-- What holds of all slots before some declarations holds of all slots behind them, if it holds of
new ones and neither a further owner nor a content makes a difference to it. -/
theorem declarations_forall_slot {P : Slot → Prop} {declared : List TypeName}
    (new : ∀ (owner : TypeName) (t : Slot), owner ∈ declared → t.owners = [owner] → P t)
    (gains : ∀ (owner : TypeName) (s t : Slot), owner ∈ declared → s.Gains owner t → P s → P t)
    (content : ∀ (s : Slot) (body : Option Body), P s → P { s with body })
    {ds : List (TypeName × Definition)} (hds : ds.map Prod.fst ⊆ declared) (id : TypeId)
    {a : Arena} (h : ∀ (i : Nat) (slot : Slot), a.slot? i = some slot → P slot) (i : Nat)
    (slot : Slot) (hslot : (c.declarations declared id ds a).2.slot? i = some slot) : P slot := by
  induction ds generalizing id a with
  | nil => exact h i slot hslot
  | cons e rest ih =>
    obtain ⟨name, d⟩ := e
    rw [List.map_cons, List.cons_subset] at hds
    rw [declarations_cons] at hslot
    have hgrows := (c.scope declared name).grows_compile 0 d a
    have hcompiled : ∀ (j : Nat) (t : Slot),
        ((c.scope declared name).compile 0 d a).2.slot? j = some t → P t := by
      intro j t ht
      by_cases hlt : j < a.slots.length
      · obtain ⟨s, hs, hgains⟩ := hgrows.exists_slot hlt ht
        exact gains name s t hds.1 hgains (h j s hs)
      · exact new name t hds.1 (hgrows.new j t (Nat.not_lt.1 hlt) ht).2
    refine ih hds.2 (id + 1) (fun j t ht => ?_) hslot
    rw [Arena.slot?_modify] at ht
    split at ht
    · obtain ⟨s, hs, rfl⟩ := Option.map_eq_some_iff.1 ht
      exact content s _ (hcompiled j s hs)
    · exact hcompiled j t ht

/-- A list of names that splits before a declaration splits behind it as well. -/
theorem split_behind {declared done : List TypeName} {e : TypeName × Definition}
    {rest : List (TypeName × Definition)} (h : declared = done ++ (e :: rest).map Prod.fst) :
    done.length < declared.length ∧ declared = (done ++ [e.1]) ++ rest.map Prod.fst ∧
      (done ++ [e.1]).length = done.length + 1 := by
  have hsplit : declared = (done ++ [e.1]) ++ rest.map Prod.fst := by
    rw [h, List.map_cons, List.append_assoc, List.singleton_append]
  refine ⟨?_, hsplit, List.length_append⟩
  rw [h, List.length_append, List.map_cons, List.length_cons]
  omega

/-- A declaration stands behind those before it. -/
theorem idxOf_of_split {declared done : List TypeName} {e : TypeName × Definition}
    {rest : List (TypeName × Definition)} (hnodup : declared.Nodup)
    (h : declared = done ++ (e :: rest).map Prod.fst) : declared.idxOf e.1 = done.length := by
  have hnew : e.1 ∉ done := by
    rw [h, List.nodup_append] at hnodup
    exact fun hmem => hnodup.2.2 e.1 hmem e.1 (List.mem_cons_self ..) rfl
  rw [h, List.idxOf_append_of_notMem hnew, List.map_cons, List.idxOf_cons_self, Nat.add_zero]

/-- What the declaration pass says of one declaration: it has faults and no content, or no
faults and its linked content. -/
def Declares (declared : List TypeName) (result : List (TypeName × List Fault) × Arena)
    (e : TypeName × Definition) : Prop :=
  ∃ faults slot, (e.1, faults) ∈ result.1 ∧ result.2.slot? (declared.idxOf e.1) = some slot ∧
    (faults ≠ [] ∧ slot.body = none ∨
      faults = [] ∧ ∃ b, slot.body = some b ∧ result.2.Links c.digest declared e.2 b)

variable {c} {declared : List TypeName} {within : List Definition}

/-- **The declaration pass** keeps what slots hold, leaves the declarations before alone,
and fills the slot of every declaration. -/
theorem declarations_links (hnodup : declared.Nodup) (ds : List (TypeName × Definition))
    (done : List TypeName) (a : Arena) (hdeclared : declared = done ++ ds.map Prod.fst)
    (hwithin : ∀ e ∈ ds, e.2.inlines ⊆ within) (h : a.Valid c.digest declared within) :
    (c.declarations declared done.length ds a).2.Valid c.digest declared within ∧
      a.Keeps (c.declarations declared done.length ds a).2 ∧
        (∀ i < done.length, (c.declarations declared done.length ds a).2.slot? i = a.slot? i) ∧
          ∀ e ∈ ds, c.Declares declared (c.declarations declared done.length ds a) e := by
  induction ds generalizing done a with
  | nil => exact ⟨h, fun _ _ hk => hk, fun _ _ => rfl, fun _ he => (by cases he)⟩
  | cons e rest ih =>
    obtain ⟨name, d⟩ := e
    let scope := c.scope declared name
    obtain ⟨hlt, hdone, hlength⟩ := split_behind hdeclared
    have hgrows := scope.grows_compile 0 d a
    have hvalid := scope.valid_compile 0 (hwithin _ (List.mem_cons_self ..)) h
    have hlinks := scope.compile_links 0 d a
    obtain ⟨hvalid', hkeeps, hbefore, hdeclares⟩ := ih (done ++ [name]) _ hdone
      (fun e he => hwithin e (List.mem_cons_of_mem _ he))
      (hvalid.modify_body hlt (scope.compile 0 d a).1.value)
    rw [hlength] at hvalid' hkeeps hbefore hdeclares
    have hkeeps' : (scope.compile 0 d a).2.Keeps
        (c.declarations declared (done.length + 1) rest ((scope.compile 0 d a).2.modify
          done.length fun s => { s with body := (scope.compile 0 d a).1.value })).2 :=
      fun k id hk => hkeeps k id hk
    rw [declarations_cons]
    refine ⟨hvalid', fun k id hk => hkeeps' k id (hgrows.keeps k id hk), fun i hi => ?_, ?_⟩
    · rw [hbefore i (Nat.lt_succ_of_lt hi), Arena.slot?_modify, if_neg (Nat.ne_of_gt hi),
        h.slot?_of_grows hgrows (Nat.lt_trans hi hlt)]
    · intro e he
      rcases List.mem_cons.1 he with rfl | he
      · obtain ⟨slot, hslot, -⟩ := hvalid.declaredSlots _ _ (List.getElem?_eq_getElem hlt)
        refine ⟨_, { slot with body := (scope.compile 0 d a).1.value },
          List.mem_cons_self .., ?_, ?_⟩
        · rw [idxOf_of_split hnodup hdeclared, hbefore _ (Nat.lt_succ_self _),
            Arena.slot?_modify, if_pos rfl, hslot]
          rfl
        · rcases hlinks with ⟨hfaults, hnone⟩ | ⟨hfaults, b, hb, hcontent⟩
          · exact Or.inl ⟨hfaults, hnone⟩
          · exact Or.inr ⟨hfaults, b, hb, hcontent.mono hkeeps'⟩
      · obtain ⟨faults, slot, hmem, hrest⟩ := hdeclares e he
        exact ⟨faults, slot, List.mem_cons_of_mem _ hmem, hrest⟩

/-- The declaration pass leaves nothing in progress. -/
theorem declarations_settled (ds : List (TypeName × Definition)) (id : TypeId) (a : Arena)
    (h : ∀ k, a.state? k ≠ some .inProgress) :
    ∀ k, (c.declarations declared id ds a).2.state? k ≠ some .inProgress := by
  induction ds generalizing id a with
  | nil => exact h
  | cons e rest ih =>
    obtain ⟨name, d⟩ := e
    rw [declarations_cons]
    refine ih (id + 1) _ fun k hk => ?_
    exact h k (((c.scope declared name).grows_compile 0 d a).inProgress hk)

/-- Without faults no definition in place is left without content. -/
theorem declarations_complete {ds : List (TypeName × Definition)} {done : List TypeName} {a : Arena}
    (hdeclared : declared = done ++ ds.map Prod.fst) (hwithin : ∀ e ∈ ds, e.2.inlines ⊆ within)
    (h : a.Valid c.digest declared within) (hcomplete : a.Complete)
    (hfaults : ∀ r ∈ (c.declarations declared done.length ds a).1, r.2 = []) :
    (c.declarations declared done.length ds a).2.Complete := by
  induction ds generalizing done a with
  | nil => exact hcomplete
  | cons e rest ih =>
    obtain ⟨name, d⟩ := e
    let scope := c.scope declared name
    obtain ⟨hlt, hdone, hlength⟩ := split_behind hdeclared
    rw [declarations_cons] at hfaults ⊢
    have hvalid := scope.valid_compile 0 (hwithin _ (List.mem_cons_self ..)) h
    have hcomplete' := scope.completes_compile 0 d h.toWellFormed hcomplete
      (hfaults _ (List.mem_cons_self ..))
    rw [← hlength] at hfaults ⊢
    exact ih hdone (fun e he => hwithin e (List.mem_cons_of_mem _ he))
      (hvalid.modify_body hlt (scope.compile 0 d a).1.value)
      (hcomplete'.modify_body hvalid hlt _) fun r hr => hfaults r (List.mem_cons_of_mem _ hr)

/-- What the declaration pass meets, if nothing is wrong. -/
theorem declarations_meets (hseparates : Separates c.digest within)
    (ds : List (TypeName × Definition)) (done : List TypeName) (a : Arena)
    (hdeclared : declared = done ++ ds.map Prod.fst) (hwithin : ∀ e ∈ ds, e.2.inlines ⊆ within)
    (h : a.Valid c.digest declared within) (hcomplete : a.Complete)
    (hfaults : ∀ r ∈ (c.declarations declared done.length ds a).1, r.2 = []) :
    (c.declarations declared done.length ds a).2.Complete ∧
      (c.declarations declared done.length ds a).2.met = a.met ++ firstsAfter a.met
        ((ds.flatMap fun e => e.2.inlines).map fun d => c.digest d.canonical.text) := by
  induction ds generalizing done a with
  | nil => exact ⟨hcomplete, (List.append_nil a.met).symm⟩
  | cons e rest ih =>
    obtain ⟨name, d⟩ := e
    let scope := c.scope declared name
    obtain ⟨hlt, hdone, hlength⟩ := split_behind hdeclared
    rw [declarations_cons] at hfaults ⊢
    have hinlines := hwithin _ (List.mem_cons_self ..)
    have hvalid := scope.valid_compile 0 hinlines h
    obtain ⟨hcomplete', hmet⟩ := scope.meets_compile hseparates 0 hinlines h hcomplete
      (hfaults _ (List.mem_cons_self ..))
    rw [← hlength] at hfaults ⊢
    obtain ⟨hcomplete'', hmet'⟩ := ih (done ++ [name]) _ hdone
      (fun e he => hwithin e (List.mem_cons_of_mem _ he))
      (hvalid.modify_body hlt (scope.compile 0 d a).1.value)
      (hcomplete'.modify_body hvalid hlt _) fun r hr => hfaults r (List.mem_cons_of_mem _ hr)
    refine ⟨hcomplete'', hmet'.trans ?_⟩
    rw [Arena.met_modify, hmet, List.flatMap_cons, List.map_append, firstsAfter_append,
      List.append_assoc]
    rfl

end Compiler
end WireSchema
