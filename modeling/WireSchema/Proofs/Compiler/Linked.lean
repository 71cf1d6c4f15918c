import WireSchema.Proofs.Compiler.Guarded
import WireSchema.Proofs.Resolution.Names
import WireSchema.TypeSystem.Navigation

/-!
# Compiled types are linked, and names are keys

Every position that a compiled type holds is that of a type, no two types have one name, and a
type is found under its name as well as at its position (`TypeSystem.Linked`).  This holds of
everything that compiles, whatever its types are called and however digests behave
(`Compiler.compile_linked`).

So a walk never leaves the type system.  To say this without taking it for granted,
`TypeSystem.walkChecked` looks a type up before it leaves it, and would end with what is said
of a position from another system; it does what `TypeSystem.walk` does.
-/

namespace WireSchema

/-! ## Hops and positions -/

namespace Body

theorem references_subset_positions (b : Body) : b.references ⊆ b.positions := by
  cases b with
  | union members layout => exact List.subset_append_left _ _
  | _ => exact List.Subset.refl _

/-- A hop leads to a position in the content. -/
theorem mem_positions_of_hop {b : Body} {hop : Hop} {id : TypeId} (h : b.hop? hop = some id) :
    id ∈ b.positions := by
  refine b.references_subset_positions ?_
  cases hop with
  | reference i => exact List.mem_of_getElem? h
  | key =>
    cases b <;> cases h
    exact List.mem_cons_self ..
  | value =>
    cases b <;> cases h
    · exact List.mem_cons_of_mem _ (List.mem_singleton_self _)
    · exact List.mem_singleton_self _
  | target =>
    cases b <;> simp only [hop?, target?, reduceCtorEq] at h
    exact Option.mem_toList.2 h
  | field name =>
    obtain ⟨f, hf, rfl⟩ := Option.map_eq_some_iff.1 h
    have hmem := List.mem_of_find?_eq_some hf
    cases b <;> first | exact List.mem_map_of_mem hmem | cases hmem
  | nthField i =>
    obtain ⟨f, hf, rfl⟩ := Option.map_eq_some_iff.1 h
    have hmem := List.mem_of_getElem? hf
    cases b <;> first | exact List.mem_map_of_mem hmem | cases hmem
  | member i =>
    have hmem := List.mem_of_getElem? h
    cases b <;> first | exact hmem | cases hmem

end Body

/-! ## Walks that look before they leap -/

namespace TypeSystem

variable {ts : TypeSystem}

/-- The positions a walk visits and whether it arrives, if there is a type at each of them. -/
def walkChecked (ts : TypeSystem) (id : TypeId) : List Hop → Except String (List TypeId × Bool)
  | [] => do
    let _ ← ts.typeAt id
    return ([id], true)
  | hop :: hops => do
    let t ← ts.typeAt id
    match t.body.hop? hop with
    | none => return ([id], false)
    | some next => do
      let (rest, arrived) ← ts.walkChecked next hops
      return (id :: rest, arrived)

theorem typeAt_of_type? {id : TypeId} {t : CompiledType} (h : ts.type? id = some t) :
    ts.typeAt id = .ok t := by
  rw [typeAt, h]

theorem exists_type? {id : TypeId} (h : id < ts.size) : ∃ t, ts.type? id = some t :=
  ⟨_, List.getElem?_eq_getElem h⟩

theorem nameOf_eq {id : TypeId} {t : CompiledType} (h : ts.type? id = some t) :
    ts.nameOf id = t.name := by
  rw [nameOf, h]
  rfl

theorem walkChecked_cons {id : TypeId} {t : CompiledType} (ht : ts.type? id = some t) (hop : Hop)
    (hops : List Hop) :
    ts.walkChecked id (hop :: hops) =
      match t.body.hop? hop with
      | none => .ok ([id], false)
      | some next => (ts.walkChecked next hops).map fun r => (id :: r.1, r.2) := by
  rw [walkChecked, typeAt_of_type? ht]
  simp only [bind, Except.bind]
  cases t.body.hop? hop with
  | none => rfl
  | some next => cases ts.walkChecked next hops <;> rfl

/-- Every position that a type holds is that of a type. -/
def Closed (ts : TypeSystem) : Prop :=
  ∀ t ∈ ts.types, ∀ id ∈ t.body.positions, id < ts.size

/-- A hop stays in a closed type system. -/
theorem Closed.hop_lt (h : ts.Closed) {id next : TypeId} {t : CompiledType}
    (ht : ts.type? id = some t) {hop : Hop} (hhop : t.body.hop? hop = some next) :
    next < ts.size :=
  h t (List.mem_of_getElem? ht) next (Body.mem_positions_of_hop hhop)

/-- **A walk stays in a closed type system**, and there is a type wherever it comes. -/
theorem Closed.walk (h : ts.Closed) {id : TypeId} (hid : id < ts.size) (hops : List Hop) :
    ts.walkChecked id hops = .ok (ts.walk id hops) ∧ ∀ i ∈ (ts.walk id hops).1, i < ts.size := by
  induction hops generalizing id with
  | nil =>
    obtain ⟨t, ht⟩ := exists_type? hid
    rw [walkChecked, typeAt_of_type? ht, TypeSystem.walk]
    exact ⟨rfl, fun i hi => List.mem_singleton.1 hi ▸ hid⟩
  | cons hop hops ih =>
    obtain ⟨t, ht⟩ := exists_type? hid
    rw [walkChecked_cons ht, TypeSystem.walk, hop?, ht, Option.bind_some]
    cases hhop : t.body.hop? hop with
    | none => exact ⟨rfl, fun i hi => List.mem_singleton.1 hi ▸ hid⟩
    | some next =>
      obtain ⟨hchecked, hvisited⟩ := ih (h.hop_lt ht hhop)
      have hrest : (ts.walkChecked next hops).map (fun r => (id :: r.1, r.2)) =
          .ok (id :: (ts.walk next hops).1, (ts.walk next hops).2) := by rw [hchecked]; rfl
      refine ⟨hrest, fun i hi => ?_⟩
      rcases List.mem_cons.1 hi with rfl | hi
      · exact hid
      · exact hvisited i hi

/-! ## Names -/

theorem lookup_eq_some_of_nodup {α β : Type} [BEq α] [LawfulBEq α] {es : List (α × β)} {x : α}
    {y : β} (hnodup : (es.map Prod.fst).Nodup) (h : (x, y) ∈ es) : es.lookup x = some y := by
  induction es with
  | nil => cases h
  | cons e es ih =>
    obtain ⟨x', y'⟩ := e
    rw [List.map_cons, List.nodup_cons] at hnodup
    rw [List.lookup_cons]
    rcases List.mem_cons.1 h with heq | hmem
    · cases heq
      rw [beq_self_eq_true]
    · have hne : (x == x') = false := by
        rw [beq_eq_false_iff_ne]
        rintro rfl
        exact hnodup.1 (List.mem_map.2 ⟨(x, y), hmem, rfl⟩)
      rw [hne]
      exact ih hnodup.2 hmem

/-- Where names are distinct, a type is found under its name. -/
theorem find?_of_nodup (hnodup : ts.names.Nodup) {id : TypeId} {t : CompiledType}
    (h : ts.type? id = some t) : ts.find? t.name = some id := by
  have hlength : ts.names.length = ts.ids.length := by
    rw [names, ids, size, List.length_map, List.length_range]
  have hkeys : (ts.names.zip ts.ids).map Prod.fst = ts.names :=
    List.map_fst_zip (Nat.le_of_eq hlength)
  refine lookup_eq_some_of_nodup ?_ (List.mem_reverse.2 ?_)
  · rw [List.map_reverse, hkeys]
    exact List.nodup_reverse.2 hnodup
  · refine List.mem_of_getElem? (i := id) ?_
    have hlt : id < ts.types.length := (List.getElem?_eq_some_iff.1 h).1
    have hname : ts.names[id]? = some t.name := by
      rw [names, List.getElem?_map, ← type?, h]
      rfl
    have hid : ts.ids[id]? = some id := List.getElem?_range hlt
    rw [List.getElem?_zip_eq_some]
    exact ⟨hname, hid⟩

/-- A type system whose types hold together. -/
structure Linked (ts : TypeSystem) : Prop where
  /-- Every position in a content, tables included, is that of a type. -/
  closed : ∀ t ∈ ts.types, ∀ id ∈ t.body.positions, id < ts.size
  /-- No two types have one name. -/
  names : ts.names.Nodup
  /-- A type is found under its name and at its position. -/
  found : ∀ id t, ts.type? id = some t → ts.find? t.name = some id ∧ ts.typeAt id = .ok t
  /-- A walk that begins at a type finds a type at every position that it comes to. -/
  walks : ∀ id < ts.size, ∀ hops, ts.walkChecked id hops = .ok (ts.walk id hops) ∧
    ∀ i ∈ (ts.walk id hops).1, i < ts.size

/-- All follows from the first two. -/
theorem Closed.linked (h : ts.Closed) (hnodup : ts.names.Nodup) : ts.Linked where
  closed := h
  names := hnodup
  found _ _ ht := ⟨find?_of_nodup hnodup ht, typeAt_of_type? ht⟩
  walks _ hid hops := h.walk hid hops

end TypeSystem

/-! ## Compiled schemas -/

namespace Compiler

variable {c : Compiler} {s : Schema} {ts : TypeSystem}

theorem declarations_named {declared : List TypeName} {ds : List (TypeName × Definition)}
    (id : TypeId) {a : Arena} (ha : a.WellFormed declared) (h : a.Named) :
    (c.declarations declared id ds a).2.Named := by
  induction ds generalizing id a with
  | nil => exact h
  | cons e rest ih =>
    obtain ⟨name, d⟩ := e
    let scope := c.scope declared name
    rw [declarations_cons]
    exact ih (id + 1) ((scope.wellFormed_compile 0 d ha).modify_body id _)
      ((scope.named_compile 0 d ha h).modify_body id _)

/-- After the declaration pass names tell all types apart. -/
theorem nodup_names_declarationPass : ((c.declarationPass s).2.slots.map Slot.name).Nodup := by
  have hnamed : (c.declarationPass s).2.Named :=
    declarations_named 0 (.ofDeclared _) (.ofDeclared s.nodup_accepted)
  have hname : ∀ (i : Nat) (slot : Slot), (c.declarationPass s).2.slot? i = some slot →
      ¬ slot.Nameless := by
    intro i slot hslot hnameless
    rcases slot_cases hslot with ⟨e, he, hi⟩ | ⟨k, hk⟩
    · have hvalid := (c.declarationPass_links s).1
      have hle := (hvalid.anonymous_iff hslot).1 hnameless.1
      have hlt : (declared s).idxOf e.1 < (declared s).length :=
        List.idxOf_lt_length_of_mem (List.mem_map_of_mem he)
      omega
    · exact hnamed.finished k i slot hk hslot hnameless.2
  rw [List.nodup_iff_getElem?_ne_getElem?]
  intro i j hij hj heq
  rw [List.length_map] at hj
  rw [List.getElem?_map, List.getElem?_map, List.getElem?_eq_getElem hj,
    List.getElem?_eq_getElem (Nat.lt_trans hij hj), Option.map_some, Option.map_some,
    Option.some.injEq] at heq
  rcases hnamed.distinct i j _ _ (List.getElem?_eq_getElem (Nat.lt_trans hij hj))
    (List.getElem?_eq_getElem hj) heq with rfl | hnameless | hnameless
  · exact Nat.lt_irrefl _ hij
  · exact hname i _ (List.getElem?_eq_getElem (Nat.lt_trans hij hj)) hnameless
  · exact hname j _ (List.getElem?_eq_getElem hj) hnameless

theorem map_name_of_compile (h : c.compile s = .ok ts) :
    ts.types.length = (c.declarationPass s).2.slots.length ∧
      ts.names = (c.declarationPass s).2.slots.map Slot.name := by
  have htypes := (pass_of_compile h).2.2
  refine ⟨?_, ?_⟩
  · have hlength := congrArg List.length htypes
    rw [List.length_map, List.length_map] at hlength
    exact hlength.symm
  · refine List.ext_getElem? fun i => ?_
    rw [TypeSystem.names, List.getElem?_map, List.getElem?_map, ← type_of_slot h i, Arena.slot?]
    cases hslot : (c.declarationPass s).2.slots[i]? with
    | none => rfl
    | some slot =>
      have hlists := congrArg (fun l => l[i]?) htypes
      simp only [List.getElem?_map, hslot, Option.map_some] at hlists
      obtain ⟨t, -, ht⟩ := Option.map_eq_some_iff.1 hlists.symm
      obtain ⟨b, -, rfl⟩ := Option.map_eq_some_iff.1 ht.symm
      rw [Option.bind_some, ← ht]
      rfl

/-- Every position in a compiled type is that of a type. -/
theorem closed_of_compile (h : c.compile s = .ok ts) : ts.Closed := by
  intro t ht id hid
  obtain ⟨i, hi⟩ := List.getElem?_of_mem ht
  rw [← type_of_slot h i] at hi
  obtain ⟨slot, hslot, htype⟩ := Option.bind_eq_some_iff.1 hi
  obtain ⟨b, hb, rfl⟩ := Option.map_eq_some_iff.1 htype
  obtain ⟨d, hlinks⟩ := exists_links (List.mem_of_getElem? hslot) hb
  rw [TypeSystem.size, (map_name_of_compile h).1]
  exact hlinks.positions_lt (c.declarationPass_links s).1.toWellFormed id hid

/-- **Compiled types are linked, and names are keys.** -/
theorem compile_linked (h : c.compile s = .ok ts) : ts.Linked := by
  refine (closed_of_compile h).linked ?_
  rw [(map_name_of_compile h).2]
  exact nodup_names_declarationPass

/-- Types that are called as definitions in place would be, or not at all. -/
def impostors : Schema :=
  ⟨⟨[("", .string), ("List__", .list (.named "") false),
    ("T", .struct
      [.mk "a" (.inline (.list (.named "") false)) false false,
        .mk "b" (.inline (.list (.inline (.list (.named "") false)) false)) false false]
      .standard)]⟩⟩

theorem compile_linked_impostors :
    ∃ ts, compile ⟨.standard, id⟩ impostors = .ok ts ∧ ts.size = 5 ∧ ts.Linked := by
  obtain ⟨ts, h, hsize⟩ : ∃ ts, compile ⟨.standard, id⟩ impostors = .ok ts ∧ ts.size = 5 :=
    ⟨_, rfl, rfl⟩
  exact ⟨ts, h, hsize, compile_linked h⟩

end Compiler
end WireSchema
