import WireSchema.Proofs.Declaration.Linked

/-!
# Contents with other positions

A position says where a type is, not what it is.  `Body.relabel` replaces every position that a
content holds, that of a reference as well as those in a discriminant table, and changes nothing
else.

To place the references of a definition elsewhere is to relabel its content, as long as
different positions stay different (`Definition.linked_relabel`).

A representation lists members, and where it is accepted no others
(`UnionRepresentation.listed_subset`).  So the content of a union depends on the positions of
its members only.
-/

namespace WireSchema

/-! ## Tables -/

namespace Table

variable {κ κ' ν μ : Type} [DecidableEq κ] [DecidableEq κ']

theorem mapValues_insertAll (f : ν → μ) (t : Table κ ν) (es : List (κ × ν)) :
    (t.insertAll es).mapValues f = (t.mapValues f).insertAll (es.map fun e => (e.1, f e.2)) := by
  induction es generalizing t with
  | nil => rfl
  | cons e es ih => rw [insertAll_cons, ih, mapValues_insert, List.map_cons, insertAll_cons]

theorem mapValues_ofList (f : ν → μ) (es : List (κ × ν)) :
    (ofList es).mapValues f = ofList (es.map fun e => (e.1, f e.2)) :=
  mapValues_insertAll f ∅ es

/-- The table with every key changed. -/
def mapKeys (f : κ → κ') (t : Table κ ν) : Table κ' ν :=
  ofList (t.toList.map fun e => (f e.1, e.2))

section

variable {f : κ → κ'} (hf : f.Injective)

include hf

omit [DecidableEq κ] in
theorem toList_mapKeys (t : Table κ ν) :
    (t.mapKeys f).toList = t.toList.map fun e => (f e.1, e.2) := by
  refine toList_ofList ?_
  have hkeys : (t.toList.map fun e => (f e.1, e.2)).map Prod.fst = t.keys.map f := by
    rw [keys, List.map_map, List.map_map]
    rfl
  rw [hkeys]
  exact t.nodup.map hf

theorem map_insertList (key : κ) (value : ν) (es : List (κ × ν)) :
    (insertList key value es).map (fun e => (f e.1, e.2)) =
      insertList (f key) value (es.map fun e => (f e.1, e.2)) := by
  induction es with
  | nil => rfl
  | cons e es ih =>
    rw [insertList, List.map_cons, insertList]
    by_cases h : e.1 = key
    · rw [if_pos h, if_pos (congrArg f h), List.map_cons]
    · rw [if_neg h, if_neg fun heq => h (hf heq), List.map_cons, ih]

theorem mapKeys_insert (t : Table κ ν) (key : κ) (value : ν) :
    (t.insert key value).mapKeys f = (t.mapKeys f).insert (f key) value := by
  have hlist : ((t.mapKeys f).insert (f key) value).toList =
      insertList (f key) value (t.toList.map fun e => (f e.1, e.2)) :=
    congrArg (insertList (f key) value) (toList_mapKeys hf t)
  refine ext_toList ?_
  rw [toList_mapKeys hf, hlist]
  exact map_insertList hf key value t.toList

theorem mapKeys_insertAll (t : Table κ ν) (es : List (κ × ν)) :
    (t.insertAll es).mapKeys f = (t.mapKeys f).insertAll (es.map fun e => (f e.1, e.2)) := by
  induction es generalizing t with
  | nil => rfl
  | cons e es ih => rw [insertAll_cons, ih, mapKeys_insert hf, List.map_cons, insertAll_cons]

theorem mapKeys_ofList (es : List (κ × ν)) :
    (ofList es).mapKeys f = ofList (es.map fun e => (f e.1, e.2)) :=
  mapKeys_insertAll hf ∅ es

end

end Table

/-! ## Contents -/

/-- A union layout with every position changed. -/
def UnionLayout.relabel (f : TypeId → TypeId) : UnionLayout → UnionLayout
  | .keyed table => .keyed (table.mapValues f)
  | .kinded table => .kinded (table.mapValues f)
  | .envelope discriminantKey contentKey table =>
      .envelope discriminantKey contentKey (table.mapValues f)
  | .inline discriminantKey table => .inline discriminantKey (table.mapValues f)
  | .stringPrefix table => .stringPrefix (table.mapValues f)
  | .bytePrefix table => .bytePrefix (table.mapKeys f)

/-- A content with every position changed. -/
def Body.relabel (f : TypeId → TypeId) : Body → Body
  | .link target => .link (target.map f)
  | .map key value valueNullable layout => .map (f key) (f value) valueNullable layout
  | .list value valueNullable => .list (f value) valueNullable
  | .struct fields layout =>
      .struct (fields.map fun field => { field with type := f field.type }) layout
  | .union members layout => .union (members.map f) (layout.relabel f)
  | body => body

theorem Body.asWritten_relabel (f : TypeId → TypeId) (b : Body) :
    (b.relabel f).asWritten = b.asWritten.relabel f := by
  cases b <;> rfl

section

variable {f : TypeId → TypeId} (hf : f.Injective)

include hf

theorem UnionRepresentation.linked_relabel (position : TypeName → TypeId)
    (representation : UnionRepresentation) :
    (representation.linked position).relabel f =
      representation.linked fun name => f (position name) := by
  cases representation with
  | bytePrefix table =>
    rw [linked, UnionLayout.relabel, Table.mapKeys_ofList hf, List.map_map]
    rfl
  | _ =>
    rw [linked, UnionLayout.relabel, Table.mapValues_ofList, List.map_map]
    rfl

/-- **A definition whose references are placed elsewhere has its content relabelled.** -/
theorem Definition.linked_relabel (ρ : Reference → TypeId) (d : Definition) :
    (d.linked ρ).map (Body.relabel f) = d.linked fun r => f (ρ r) := by
  cases d with
  | link target => cases target <;> rfl
  | struct fields representation =>
    rw [linked, linked, Option.map_some, Body.relabel, List.map_map]
    rfl
  | union members representation =>
    rw [linked, linked, Option.map_some, Body.relabel, List.map_map,
      UnionRepresentation.linked_relabel hf]
    rfl
  | _ => rfl

end

/-! ## Members in representations -/

namespace UnionRepresentation

theorem mem_keys_of_byteTable {names : MemberNames} {position : TypeName → TypeId}
    (h : names.Locates position) {es : List (TypeName × Int)} {table : Table TypeId UInt8}
    {used : List UInt8} (hfaults : (byteTable names table used es).faults = []) :
    ∀ e ∈ es, e.1 ∈ names.members.keys := by
  induction es generalizing table used with
  | nil => exact fun _ he => by cases he
  | cons e es ih =>
    obtain ⟨member, value⟩ := e
    rw [byteTable] at hfaults
    cases hbyte : byte? value with
    | none =>
      rw [hbyte] at hfaults
      cases hfaults
    | some byte =>
      rw [hbyte] at hfaults
      have hfound : (names.find member).faults = [] ∧ ∃ table', (byteTable names table'
          (byte :: used) es).faults = [] := by
        cases hfound : (names.find member).value <;>
          simp only [hfound, Checked.after, List.append_eq_nil_iff] at hfaults
        · exact ⟨hfaults.1.2, _, hfaults.2⟩
        · exact ⟨hfaults.1.1.2, _, hfaults.2⟩
      obtain ⟨hmember, table', hrest⟩ := hfound
      intro e he
      rcases List.mem_cons.1 he with rfl | he
      · exact h.mem_keys hmember
      · exact ih hrest e he

/-- A representation that is accepted lists members only. -/
theorem listed_subset {names : MemberNames} {position : TypeName → TypeId}
    (h : names.Locates position) {representation : UnionRepresentation}
    (hfaults : (representation.layout names).faults = []) :
    ∀ name ∈ representation.listed, name ∈ names.members.keys := by
  intro name hname
  cases representation <;> obtain ⟨e, he, rfl⟩ := List.mem_map.1 hname
  case keyed => exact (discriminants_eq h hfaults).2.2 e he
  case kinded => exact (kinds_eq h hfaults).2.2 e he
  case envelope => exact (discriminants_eq h (List.append_eq_nil_iff.1 hfaults).2).2.2 e he
  case inline => exact (discriminants_eq h (List.append_eq_nil_iff.1 hfaults).2).2.2 e he
  case stringPrefix => exact (discriminants_eq h (List.append_eq_nil_iff.1 hfaults).1).2.2 e he
  case bytePrefix => exact mem_keys_of_byteTable h hfaults e he

end UnionRepresentation
end WireSchema
