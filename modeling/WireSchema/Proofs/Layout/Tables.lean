import Mathlib.Data.List.Nodup
import WireSchema.Layout.Union

/-!
# Discriminant tables without faults

A discriminant table is compiled in one pass that drops what is mistaken.  If nothing is,
nothing is dropped: the compiled table is the declared one with every member replaced by
its position.  `UnionRepresentation.linked` is that table, and
`UnionRepresentation.value_layout` says that it is what the pass returns.

The keys of such a table are distinct, so that its entries are those of the declaration in
their order (`Table.toList_ofList`).
-/

namespace WireSchema

/-! ## Tables -/

namespace Table

variable {κ ν μ : Type}

theorem ext_toList {s t : Table κ ν} (h : s.toList = t.toList) : s = t := by
  cases s
  cases t
  cases h
  rfl

variable [DecidableEq κ]

theorem mem_toList_of_get? {t : Table κ ν} {key : κ} {value : ν} (h : t.get? key = some value) :
    (key, value) ∈ t.toList := by
  rw [get?, Option.map_eq_some_iff] at h
  obtain ⟨e, he, rfl⟩ := h
  have hkey : e.1 = key := by simpa using List.find?_some he
  rw [← hkey]
  exact List.mem_of_find?_eq_some he

theorem get?_eq_some_iff {t : Table κ ν} {key : κ} {value : ν} :
    t.get? key = some value ↔ (key, value) ∈ t.toList := by
  refine ⟨mem_toList_of_get?, fun h => ?_⟩
  cases hget : t.get? key with
  | none =>
    rw [get?, Option.map_eq_none_iff, List.find?_eq_none] at hget
    exact absurd (decide_eq_true rfl) (hget _ h)
  | some value' =>
    have hentry := List.inj_on_of_nodup_map t.nodup (mem_toList_of_get? hget) h rfl
    rw [(Prod.mk.inj hentry).2]

theorem contains_iff {t : Table κ ν} {key : κ} : t.contains key = true ↔ key ∈ t.keys := by
  simp [contains, get?, keys, List.find?_isSome]

theorem insertList_of_notMem {key : κ} (value : ν) {es : List (κ × ν)}
    (h : key ∉ es.map Prod.fst) : insertList key value es = es ++ [(key, value)] := by
  induction es with
  | nil => rfl
  | cons e es ih =>
    rw [List.map_cons, List.mem_cons, not_or] at h
    rw [insertList, if_neg (Ne.symm h.1), ih h.2, List.cons_append]

/-- What is inserted under a new key stands at the end. -/
theorem toList_insert {t : Table κ ν} {key : κ} (value : ν) (h : key ∉ t.keys) :
    (t.insert key value).toList = t.toList ++ [(key, value)] :=
  insertList_of_notMem value h

theorem mem_keys_insert {t : Table κ ν} {key k : κ} {value : ν} :
    k ∈ (t.insert key value).keys ↔ k = key ∨ k ∈ t.keys :=
  mem_keys_insertList

theorem get?_insert (t : Table κ ν) (key : κ) (value : ν) (k : κ) :
    (t.insert key value).get? k = if k = key then some value else t.get? k := by
  have hfind : ∀ es : List (κ × ν),
      ((insertList key value es).find? fun e => e.1 = k).map Prod.snd =
        if k = key then some value else (es.find? fun e => e.1 = k).map Prod.snd := by
    intro es
    induction es with
    | nil =>
      by_cases h : k = key
      · simp [insertList, h]
      · simp [insertList, h, Ne.symm h]
    | cons e es ih =>
      rw [insertList]
      by_cases he : e.1 = key
      · by_cases h : k = key
        · simp [he, h]
        · simp [he, h, Ne.symm h]
      · rw [if_neg he, List.find?_cons, List.find?_cons]
        by_cases hk : e.1 = k
        · have hne : k ≠ key := fun h => he (hk.trans h)
          simp [hk, hne]
        · simp only [hk, decide_false]
          exact ih
  exact hfind t.toList

theorem mem_insertList {key : κ} {value : ν} {f : κ × ν} {es : List (κ × ν)}
    (h : f ∈ insertList key value es) : f = (key, value) ∨ f ∈ es := by
  induction es with
  | nil => exact Or.inl (List.mem_singleton.1 h)
  | cons e es ih =>
    rw [insertList] at h
    split at h
    · rcases List.mem_cons.1 h with rfl | h
      · exact Or.inl rfl
      · exact Or.inr (List.mem_cons_of_mem _ h)
    · rcases List.mem_cons.1 h with rfl | h
      · exact Or.inr (List.mem_cons_self ..)
      · exact (ih h).imp_right (List.mem_cons_of_mem _)

/-- The table with further entries inserted, the first one first. -/
def insertAll (t : Table κ ν) (es : List (κ × ν)) : Table κ ν :=
  es.foldl (fun t e => t.insert e.1 e.2) t

theorem insertAll_cons (t : Table κ ν) (e : κ × ν) (es : List (κ × ν)) :
    t.insertAll (e :: es) = (t.insert e.1 e.2).insertAll es := rfl

theorem toList_insertAll {es : List (κ × ν)} {t : Table κ ν}
    (h : (t.keys ++ es.map Prod.fst).Nodup) : (t.insertAll es).toList = t.toList ++ es := by
  induction es generalizing t with
  | nil => exact (List.append_nil _).symm
  | cons e es ih =>
    have hnew : e.1 ∉ t.toList.map Prod.fst := by
      have hdisjoint := (List.nodup_append.1 h).2.2
      intro hmem
      exact hdisjoint _ hmem _ (List.mem_map_of_mem (List.mem_cons_self ..)) rfl
    have hrest : ((t.insert e.1 e.2).keys ++ es.map Prod.fst).Nodup := by
      rw [keys, toList_insert _ hnew, List.map_append, List.append_assoc]
      exact h
    rw [insertAll_cons, ih hrest, toList_insert _ hnew, List.append_assoc, List.singleton_append]

/-- A list with distinct keys is the list of its table. -/
theorem toList_ofList {es : List (κ × ν)} (h : (es.map Prod.fst).Nodup) :
    (ofList es).toList = es :=
  toList_insertAll h

end Table

/-! ## Entries that are looked up -/

namespace Entries

variable {κ ν : Type} [DecidableEq κ] {es : Entries κ ν}

theorem mem_toList_of_get? {key : κ} {value : ν} (h : es.get? key = some value) :
    (key, value) ∈ es.toList := by
  obtain ⟨e, hfind, rfl⟩ := Option.map_eq_some_iff.1 h
  have hkey : e.1 = key := by simpa using List.find?_some hfind
  rw [← hkey]
  exact List.mem_of_find?_eq_some hfind

theorem get?_eq_none_iff {key : κ} : es.get? key = none ↔ key ∉ es.keys := by
  rw [← contains_iff_mem_keys, contains, Option.isSome_iff_ne_none, not_not]

/-- Where no key is repeated, every entry is found under its key. -/
theorem get?_eq_some_iff_of_nodup (hnodup : es.keys.Nodup) (key : κ) (value : ν) :
    es.get? key = some value ↔ (key, value) ∈ es.toList :=
  Table.get?_eq_some_iff (t := ⟨es.toList, hnodup⟩)

/-- Where no key is repeated, looking up every key gives every value. -/
theorem filterMap_get?_keys (hnodup : es.keys.Nodup) :
    es.keys.filterMap es.get? = es.values := by
  have hfound : ∀ e ∈ es.toList, es.get? e.1 = some e.2 := fun e he =>
    (get?_eq_some_iff_of_nodup hnodup e.1 e.2).2 he
  rw [keys, values, List.filterMap_map, List.filterMap_congr (g := fun e => some e.2) hfound]
  exact congrFun List.filterMap_eq_map' es.toList

end Entries

/-! ## Members -/

/-- What is found are the positions of a naming, and no member is missing. -/
structure MemberNames.Locates (names : MemberNames) (position : TypeName → TypeId) : Prop where
  members : ∀ e ∈ names.members.toList, e.2 = position e.1
  unresolved : names.unresolved = []

namespace MemberNames.Locates

variable {names : MemberNames} {position : TypeName → TypeId}

/-- A member that raises no fault is among those found. -/
theorem mem_keys (h : names.Locates position) {name : TypeName}
    (hfaults : (names.find name).faults = []) : name ∈ names.members.keys := by
  rw [MemberNames.find] at hfaults
  split at hfaults
  · next id hid => exact List.mem_map_of_mem (Table.mem_toList_of_get? hid)
  · rw [h.unresolved, if_neg (List.not_mem_nil)] at hfaults
    split at hfaults <;> cases hfaults

/-- A member that raises no fault is found at its position. -/
theorem find (h : names.Locates position) {name : TypeName}
    (hfaults : (names.find name).faults = []) :
    (names.find name).value = some (position name) := by
  rw [MemberNames.find] at hfaults ⊢
  split at hfaults
  · next id hid => exact congrArg some (h.members _ (Table.mem_toList_of_get? hid))
  · rw [h.unresolved, if_neg (List.not_mem_nil)] at hfaults
    split at hfaults <;> cases hfaults

end MemberNames.Locates

/-! ## Tables from keys to members -/

section

variable {names : MemberNames} {position : TypeName → TypeId}

theorem memberTable_eq {κ : Type} [DecidableEq κ] (h : names.Locates position)
    (repeated : κ → ConfigFault) {es : List (κ × TypeName)} {table : Table κ TypeId}
    (hfaults : (memberTable names repeated table es).faults = []) :
    (memberTable names repeated table es).value =
        table.insertAll (es.map fun e => (e.1, position e.2)) ∧
      (table.keys ++ es.map Prod.fst).Nodup ∧ ∀ e ∈ es, e.2 ∈ names.members.keys := by
  induction es generalizing table with
  | nil => exact ⟨rfl, by simpa [Table.keys] using table.nodup, fun _ he => (by cases he)⟩
  | cons e es ih =>
    obtain ⟨key, member⟩ := e
    rw [memberTable] at hfaults ⊢
    split at hfaults
    · cases hfaults
    · next hcontains =>
      rw [if_neg hcontains]
      simp only [Checked.after, List.append_eq_nil_iff] at hfaults ⊢
      have hnew : key ∉ table.keys := fun hmem => hcontains (Table.contains_iff.2 hmem)
      have hmember := h.mem_keys hfaults.1
      rw [h.find hfaults.1] at hfaults ⊢
      obtain ⟨hvalue, hnodup, hmembers⟩ := ih hfaults.2
      refine ⟨hvalue, ?_, fun e he => ?_⟩
      · rw [Table.keys, Table.toList_insert _ hnew, List.map_append, List.append_assoc] at hnodup
        exact hnodup
      · rcases List.mem_cons.1 he with rfl | he
        · exact hmember
        · exact hmembers e he

theorem discriminants_eq (h : names.Locates position) {sort : TableKey}
    {es : Entries String TypeName} (hfaults : (discriminants names sort es).faults = []) :
    (discriminants names sort es).value =
        Table.ofList (es.toList.map fun e => (e.1, position e.2)) ∧
      es.keys.Nodup ∧ ∀ e ∈ es.toList, e.2 ∈ names.members.keys :=
  memberTable_eq h _ hfaults

theorem kinds_eq (h : names.Locates position) {es : Entries Kind TypeName}
    (hfaults : (kinds names es).faults = []) :
    (kinds names es).value = Table.ofList (es.toList.map fun e => (e.1, position e.2)) ∧
      es.keys.Nodup ∧ ∀ e ∈ es.toList, e.2 ∈ names.members.keys :=
  memberTable_eq h _ hfaults

theorem byteTable_eq (h : names.Locates position) {es : List (TypeName × Int)}
    {table : Table TypeId UInt8} {used : List UInt8}
    (hfaults : (byteTable names table used es).faults = []) :
    (byteTable names table used es).value =
      table.insertAll (es.map fun e => (position e.1, UInt8.ofNat e.2.toNat)) := by
  induction es generalizing table used with
  | nil => rfl
  | cons e es ih =>
    obtain ⟨member, value⟩ := e
    rw [byteTable] at hfaults ⊢
    cases hbyte : byte? value with
    | none =>
      rw [hbyte] at hfaults
      cases hfaults
    | some byte =>
      have hvalue : byte = UInt8.ofNat value.toNat := by
        rw [byte?] at hbyte
        split at hbyte <;> cases hbyte
        rfl
      rw [hbyte] at hfaults
      simp only at hfaults ⊢
      cases hfound : (names.find member).value with
      | none =>
        rw [hfound] at hfaults
        simp only [Checked.after, List.append_eq_nil_iff] at hfaults
        rw [h.find hfaults.1.2] at hfound
        cases hfound
      | some id =>
        rw [hfound] at hfaults
        simp only [Checked.after, List.append_eq_nil_iff] at hfaults ⊢
        rw [h.find hfaults.1.1.2] at hfound
        obtain rfl := Option.some.inj hfound
        rw [ih hfaults.2, hvalue]
        rfl

end

/-! ## Representations -/

namespace UnionRepresentation

/-- The representation of a union whose members are at these positions. -/
def linked (position : TypeName → TypeId) : UnionRepresentation → UnionLayout
  | .keyed table => .keyed (Table.ofList (table.toList.map fun e => (e.1, position e.2)))
  | .kinded table => .kinded (Table.ofList (table.toList.map fun e => (e.1, position e.2)))
  | .envelope discriminantKey contentKey table =>
      .envelope discriminantKey contentKey
        (Table.ofList (table.toList.map fun e => (e.1, position e.2)))
  | .inline discriminantKey table =>
      .inline discriminantKey (Table.ofList (table.toList.map fun e => (e.1, position e.2)))
  | .stringPrefix table =>
      .stringPrefix (Table.ofList (table.toList.map fun e => (e.1, position e.2)))
  | .bytePrefix table =>
      .bytePrefix (Table.ofList (table.toList.map fun e => (position e.1, UInt8.ofNat e.2.toNat)))

/-- The members that a representation lists. -/
def listed : UnionRepresentation → List TypeName
  | .keyed table => table.values
  | .kinded table => table.values
  | .envelope _ _ table => table.values
  | .inline _ table => table.values
  | .stringPrefix table => table.values
  | .bytePrefix table => table.keys

theorem linked_congr {position position' : TypeName → TypeId}
    {representation : UnionRepresentation}
    (h : ∀ name ∈ representation.listed, position name = position' name) :
    representation.linked position = representation.linked position' := by
  have hvalues : ∀ {κ : Type} {es : Entries κ TypeName},
      (∀ name ∈ es.values, position name = position' name) →
        (es.toList.map fun e => (e.1, position e.2)) =
          es.toList.map fun e => (e.1, position' e.2) := by
    intro κ es hes
    refine List.map_congr_left fun e he => ?_
    rw [hes e.2 (List.mem_map_of_mem he)]
  cases representation with
  | bytePrefix table =>
    have hkeys : (table.toList.map fun e => (position e.1, UInt8.ofNat e.2.toNat)) =
        table.toList.map fun e => (position' e.1, UInt8.ofNat e.2.toNat) := by
      refine List.map_congr_left fun e he => ?_
      rw [h e.1 (List.mem_map_of_mem he)]
    rw [linked, linked, hkeys]
  | _ => rw [linked, linked, hvalues h]

/-- Whether the keys of a discriminant table are distinct. -/
def DistinctKeys : UnionRepresentation → Prop
  | .keyed table => table.keys.Nodup
  | .kinded table => table.keys.Nodup
  | .envelope _ _ table => table.keys.Nodup
  | .inline _ table => table.keys.Nodup
  | .stringPrefix table => table.keys.Nodup
  | .bytePrefix _ => True

/-- **A representation that the translator accepts is compiled as declared**: entry by
entry, with positions in the place of members. -/
theorem value_layout {names : MemberNames} {position : TypeName → TypeId}
    (h : names.Locates position) {representation : UnionRepresentation}
    (hfaults : (representation.layout names).faults = []) :
    (representation.layout names).value = representation.linked position ∧
      representation.DistinctKeys := by
  cases representation with
  | keyed table =>
    obtain ⟨hvalue, hkeys, -⟩ := discriminants_eq h hfaults
    exact ⟨congrArg UnionLayout.keyed hvalue, hkeys⟩
  | kinded table =>
    obtain ⟨hvalue, hkeys, -⟩ := kinds_eq h hfaults
    exact ⟨congrArg UnionLayout.kinded hvalue, hkeys⟩
  | envelope discriminantKey contentKey table =>
    obtain ⟨hvalue, hkeys, -⟩ := discriminants_eq h (List.append_eq_nil_iff.1 hfaults).2
    exact ⟨congrArg (UnionLayout.envelope discriminantKey contentKey) hvalue, hkeys⟩
  | inline discriminantKey table =>
    obtain ⟨hvalue, hkeys, -⟩ := discriminants_eq h (List.append_eq_nil_iff.1 hfaults).2
    exact ⟨congrArg (UnionLayout.inline discriminantKey) hvalue, hkeys⟩
  | stringPrefix table =>
    obtain ⟨hvalue, hkeys, -⟩ := discriminants_eq h (List.append_eq_nil_iff.1 hfaults).1
    exact ⟨congrArg UnionLayout.stringPrefix hvalue, hkeys⟩
  | bytePrefix table =>
    exact ⟨congrArg UnionLayout.bytePrefix (byteTable_eq h hfaults), trivial⟩

end UnionRepresentation
end WireSchema
