import WireSchema.Proofs.Compiler.Groups
import WireSchema.Proofs.Compiler.Linked

/-!
# Members of inline unions

A value of an inline union is a map in which the discriminant stands among the entries of the
member.  So a member is fit for such a union if it is a struct that is a map on the wire, and no
field of it stands there under the name of the discriminant (`TypeSystem.FitsInline`).

The check goes through the discriminant table, not through the list of members.  Whatever the
table names is a member and fit, in everything that compiles (`Compiler.compile_inline`).  A
member that no entry names is not looked at, and may be of any form
(`Compiler.compile_inline_unnamed`).
-/

namespace WireSchema

theorem Body.exists_of_isMapStruct {b : Body} (h : b.isMapStruct = true) :
    ∃ fields details, b = .struct fields (.map details) := by
  cases b with
  | struct fields layout =>
    cases layout with
    | map details => exact ⟨fields, details, rfl⟩
    | _ => cases h
  | _ => cases h

/-- Whether the type at a position is a struct that is a map on the wire, without a field of this
name there. -/
def TypeSystem.FitsInline (ts : TypeSystem) (discriminantKey : String) (id : TypeId) : Prop :=
  ∃ t fields details, ts.type? id = some t ∧ t.body = .struct fields (.map details) ∧
    discriminantKey ∉ t.body.wireNames

namespace Compiler

variable {c : Compiler} {s : Schema} {ts : TypeSystem}

/-- What is compiled is the content of a slot with which nothing is wrong. -/
theorem exists_slot_of_compile (h : c.compile s = .ok ts) {id : Nat} {t : CompiledType}
    (ht : ts.type? id = some t) :
    ∃ slot, (c.declarationPass s).2.slot? id = some slot ∧ slot.body = some t.body ∧
      CrossType.bodyFaults c.settings (c.declarationPass s).2 slot.name t.body = [] := by
  rw [TypeSystem.type?, ← type_of_slot h] at ht
  obtain ⟨slot, hslot, htype⟩ := Option.bind_eq_some_iff.1 ht
  obtain ⟨body, hbody, rfl⟩ := Option.map_eq_some_iff.1 htype
  refine ⟨slot, hslot, hbody, ?_⟩
  have herrors := ((c.compile_eq_ok_iff s).1 h).1
  rw [errors, List.append_eq_nil_iff] at herrors
  obtain ⟨owner, howner⟩ := exists_owner hslot
  by_contra hfaults
  obtain ⟨e, he, -⟩ := CrossType.exists_mem_errors_iff.2
    ⟨id, slot, body, hslot, hbody, howner, hfaults⟩
  rw [herrors.2] at he
  cases he

/-- All positions in a compiled type are among those that it refers to. -/
theorem positions_subset_references (h : c.compile s = .ok ts) {id : Nat} {t : CompiledType}
    (ht : ts.type? id = some t) : t.body.positions ⊆ t.body.references := by
  obtain ⟨slot, hslot, hbody, -⟩ := exists_slot_of_compile h ht
  obtain ⟨d, hlinks⟩ := exists_links (List.mem_of_getElem? hslot) hbody
  rw [Definition.references_linked hlinks.linked]
  exact Definition.positions_linked_subset hlinks.sound (fun _ => rfl) hlinks.linked

/-- **What the table of an inline union names is a member and fit**, in every schema that
compiles. -/
theorem compile_inline (h : c.compile s = .ok ts) {t : CompiledType} (ht : t ∈ ts.types)
    {members : List TypeId} {discriminantKey : String} {table : Table String TypeId}
    (hunion : t.body = .union members (.inline discriminantKey table)) :
    table.values ⊆ members ∧ ∀ id ∈ table.values, ts.FitsInline discriminantKey id := by
  obtain ⟨i, hi⟩ := List.getElem?_of_mem ht
  have hmembers : table.values ⊆ members := by
    have hpositions := positions_subset_references h hi
    rw [hunion] at hpositions
    exact (List.append_subset.1 hpositions).2
  refine ⟨hmembers, fun id hid => ?_⟩
  obtain ⟨_, -, -, hfaults⟩ := exists_slot_of_compile h hi
  have hclosed : id ∈ t.body.positions := by
    rw [hunion]
    exact List.mem_append_left _ (hmembers hid)
  obtain ⟨u, hu⟩ := TypeSystem.exists_type? (closed_of_compile h t ht id hclosed)
  obtain ⟨slot, hslot, hbody, -⟩ := exists_slot_of_compile h hu
  obtain ⟨e, he, rfl⟩ := List.mem_map.1 hid
  rw [hunion, CrossType.bodyFaults, List.flatMap_eq_nil_iff] at hfaults
  obtain ⟨hmap, hnew⟩ := (CrossType.inlineFaults_eq_nil_iff _ _ _ _).1 (hfaults e he) u.body
    (by rw [Arena.body?, hslot, Option.bind_some, hbody])
  obtain ⟨fields, details, hstruct⟩ := Body.exists_of_isMapStruct hmap
  exact ⟨u, fields, details, hu, hstruct, hnew⟩

/-- An inline union of two structs, one under two discriminants and with a field that is called
like the discriminant, but not on the wire. -/
def shapes : Schema :=
  ⟨⟨[("N", .int),
    ("Circle", .struct [.mk "kind" (.named "N") false false]
      (.map (some ⟨[("kind", ⟨some "radius", none⟩)]⟩))),
    ("Square", .struct [.mk "side" (.named "N") false false] (.map none)),
    ("Shape", .union [.named "Square", .named "Circle"]
      (.inline "kind" ⟨[("circle", "Circle"), ("square", "Square"), ("disc", "Circle")]⟩))]⟩⟩

theorem compile_inline_shapes :
    ∃ ts t table, compile ⟨.standard, id⟩ shapes = .ok ts ∧ t ∈ ts.types ∧
      t.body = .union [2, 1] (.inline "kind" table) ∧ table.values = [1, 2, 1] ∧
        ∀ id ∈ table.values, ts.FitsInline "kind" id := by
  obtain ⟨ts, t, table, h, ht, hunion, hvalues⟩ : ∃ ts t table,
      compile ⟨.standard, id⟩ shapes = .ok ts ∧ ts.type? 3 = some t ∧
        t.body = .union [2, 1] (.inline "kind" table) ∧ table.values = [1, 2, 1] :=
    ⟨_, _, _, rfl, rfl, rfl, rfl⟩
  have hmem : t ∈ ts.types := List.mem_of_getElem? ht
  exact ⟨ts, t, table, h, hmem, hunion, hvalues, (compile_inline h hmem hunion).2⟩

/-- An inline union of a struct and an integer; the table names the struct only. -/
def unnamed : Schema :=
  ⟨⟨[("I", .int), ("S", .struct [.mk "x" (.named "I") false false] (.map none)),
    ("U", .union [.named "S", .named "I"] (.inline "tag" ⟨[("s", "S")]⟩))]⟩⟩

/-- A member that the table does not name need not be fit. -/
theorem compile_inline_unnamed :
    ¬ ∀ (c : Compiler) (s : Schema) (ts : TypeSystem), c.compile s = .ok ts →
      ∀ t ∈ ts.types, ∀ members discriminantKey table,
        t.body = .union members (.inline discriminantKey table) →
          ∀ id ∈ members, ts.FitsInline discriminantKey id := by
  intro hall
  obtain ⟨ts, t, table, h, ht, hunion, hinteger⟩ : ∃ ts t table,
      compile ⟨.standard, id⟩ unnamed = .ok ts ∧ ts.type? 2 = some t ∧
        t.body = .union [1, 0] (.inline "tag" table) ∧
          (ts.type? 0).map CompiledType.body = some .int :=
    ⟨_, _, _, rfl, rfl, rfl, rfl⟩
  obtain ⟨u, fields, details, hu, hbody, -⟩ :=
    hall _ _ ts h t (List.mem_of_getElem? ht) _ _ _ hunion 0 (by decide)
  rw [hu, Option.map_some, hbody] at hinteger
  cases hinteger

end Compiler
end WireSchema
