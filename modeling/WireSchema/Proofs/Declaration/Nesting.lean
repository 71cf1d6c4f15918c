import WireSchema.Proofs.Declaration.Document

/-!
# How deep declarations are written

Everything below a definition that is no reference is written in a few containers, however much
of it there is: tables and lists of names do not nest.  What a definition is written in beyond
that comes from its references.
-/

namespace WireSchema

/-! ## Tables, lists and members -/

theorem Entries.nesting_toJson_le {κ ν : Type} {key : κ → String} {value : ν → Json}
    {es : Entries κ ν} {n : Nat} (h : ∀ x ∈ es.values, (value x).nesting ≤ n) :
    (es.toJson key value).nesting ≤ n + 1 := by
  rw [toJson, Json.nesting]
  refine Nat.succ_le_succ (Json.entryNesting_le.2 (List.forall_mem_map.2 fun e he => ?_))
  exact h e.2 (List.mem_map_of_mem he)

theorem nesting_namesJson_le (es : Entries String String) : (namesJson es).nesting ≤ 1 :=
  Entries.nesting_toJson_le fun _ _ => Nat.le_refl 0

theorem nesting_numbersJson_le (es : Entries String Int) : (numbersJson es).nesting ≤ 1 :=
  Entries.nesting_toJson_le fun _ _ => Nat.le_refl 0

theorem nesting_textsJson_le (texts : List String) : (textsJson texts).nesting ≤ 1 := by
  rw [textsJson, Json.nesting]
  exact Nat.succ_le_succ (Json.itemNesting_le.2 (List.forall_mem_map.2 fun _ _ => Nat.le_refl 0))

theorem nesting_caseObject (name : String) (payload : Json) :
    (caseObject name payload).nesting = payload.nesting + 1 := by
  rw [caseObject, Json.nesting, Json.entryNesting, Json.entryNesting, Nat.max_zero]

theorem nesting_present_le {members : List (String × Option Json)} {n : Nat}
    (h : ∀ m ∈ members, ∀ j ∈ m.2, j.nesting ≤ n) : (present members).nesting ≤ n + 1 := by
  rw [present, Json.nesting]
  refine Nat.succ_le_succ (Json.entryNesting_le.2 fun e he => ?_)
  obtain ⟨m, hm, hjm⟩ := List.mem_filterMap.1 he
  obtain ⟨j, hj, rfl⟩ := Option.map_eq_some_iff.1 hjm
  exact h m hm j hj

theorem nesting_fieldOrder_le (order : Option (List FieldName)) :
    ∀ j ∈ order.map textsJson, j.nesting ≤ 1 := by
  intro _ hj
  obtain ⟨names, -, rfl⟩ := Option.mem_map.1 hj
  exact nesting_textsJson_le names

/-! ## Representations -/

theorem ImplicitValue.nesting_toJson (v : ImplicitValue) : v.toJson.nesting = 0 := by
  cases v <;> rfl

theorem FieldDetails.nesting_toJson (d : FieldDetails) : d.toJson.nesting = 1 := by
  obtain ⟨rename, implicit⟩ := d
  cases rename <;> cases implicit <;>
    simp [toJson, present, Json.nesting, Json.entryNesting, ImplicitValue.nesting_toJson]

theorem MapRepresentation.nesting_toJson (r : MapRepresentation) : r.toJson.nesting = 2 := by
  cases r <;> rfl

theorem StructRepresentation.nesting_toJson_le (r : StructRepresentation) :
    r.toJson.nesting ≤ 4 := by
  cases r with
  | map details =>
    rw [toJson, nesting_caseObject]
    refine Nat.succ_le_succ (nesting_present_le (List.forall_mem_singleton.2 ?_))
    rintro _ hj
    obtain ⟨es, -, rfl⟩ := Option.mem_map.1 hj
    exact Entries.nesting_toJson_le fun d _ => d.nesting_toJson.le
  | tuple order =>
    rw [toJson, nesting_caseObject]
    refine Nat.succ_le_succ (nesting_present_le (List.forall_mem_singleton.2 fun j hj => ?_))
    exact (nesting_fieldOrder_le order j hj).trans (Nat.le_succ 1)
  | stringPairs d => exact Nat.le_add_right 2 2
  | stringJoin join order =>
    rw [toJson, nesting_caseObject]
    refine Nat.succ_le_succ (nesting_present_le (List.forall_mem_cons.2
      ⟨?_, List.forall_mem_singleton.2 fun j hj => ?_⟩))
    · rintro _ ⟨⟩
      exact Nat.zero_le 2
    · exact (nesting_fieldOrder_le order j hj).trans (Nat.le_succ 1)
  | listPairs => exact Nat.le_add_right 2 2

theorem UnionRepresentation.nesting_toJson_le (r : UnionRepresentation) : r.toJson.nesting ≤ 3 := by
  cases r with
  | keyed table =>
    rw [toJson, nesting_caseObject]
    exact Nat.succ_le_succ ((nesting_namesJson_le table).trans (Nat.le_succ 1))
  | kinded table =>
    rw [toJson, nesting_caseObject]
    exact Nat.succ_le_succ (Entries.nesting_toJson_le fun _ _ => Nat.zero_le 1)
  | envelope _ _ table | inline _ table | stringPrefix table =>
    have htable := nesting_namesJson_le table
    simp only [toJson, nesting_caseObject, Json.nesting, Json.entryNesting]
    omega
  | bytePrefix table =>
    have htable := nesting_numbersJson_le table
    simp only [toJson, nesting_caseObject, Json.nesting, Json.entryNesting]
    omega

theorem EnumRepresentation.nesting_toJson_le (r : EnumRepresentation) : r.toJson.nesting ≤ 2 := by
  cases r with
  | string table =>
    rw [toJson, nesting_caseObject]
    exact Nat.succ_le_succ (nesting_namesJson_le table)
  | int table =>
    rw [toJson, nesting_caseObject]
    exact Nat.succ_le_succ (nesting_numbersJson_le table)

/-! ## Fields -/

theorem Field.nesting_toJson (f : Field) : f.toJson.nesting = f.type.toJson.nesting + 1 := by
  obtain ⟨name, type, optional, nullable⟩ := f
  simp [toJson, Field.type, Json.nesting, Json.entryNesting]

end WireSchema
