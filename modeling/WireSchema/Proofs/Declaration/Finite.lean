import WireSchema.Proofs.Declaration.Linked

/-!
# Finite implicit values

An implicit value that is not finite cannot be told from another by what is written of it.
No document holds one, and among definitions without them the contents that are written
alike are equal (`Definition.FiniteImplicits.eq_of_asWritten`).
-/

namespace WireSchema

/-- Whether an implicit value in the details of a field is finite, if it is a double. -/
def FieldDetails.IsFinite (d : FieldDetails) : Prop :=
  ∀ x, d.implicit = some (.float x) → x.isFinite = true

/-- Whether the implicit values in a definition, outside of what it contains, are
finite. -/
def Definition.FiniteImplicits : Definition → Prop
  | .struct _ (.map (some details)) => ∀ e ∈ details.toList, e.2.IsFinite
  | _ => True

theorem ImplicitValue.eq_of_asWritten {v w : ImplicitValue}
    (hw : ∀ x, w = .float x → x.isFinite = true) (h : v.asWritten = w.asWritten) : v = w := by
  have hnan : Binary64.nan.isFinite = false := by decide
  cases v <;> cases w <;> grind [ImplicitValue.asWritten, Binary64.asWritten]

theorem FieldDetails.eq_of_asWritten {d e : FieldDetails} (he : e.IsFinite)
    (h : d.asWritten = e.asWritten) : d = e := by
  obtain ⟨rename, implicit⟩ := d
  obtain ⟨rename', implicit'⟩ := e
  simp only [asWritten, FieldDetails.mk.injEq] at h
  obtain ⟨hrename, himplicit⟩ := h
  rw [hrename]
  congr 1
  cases implicit' with
  | none => exact Option.map_eq_none_iff.1 himplicit
  | some w =>
    obtain ⟨v, hv, hvw⟩ := Option.map_eq_some_iff.1 himplicit
    rw [hv, ImplicitValue.eq_of_asWritten (fun x hx => he x (congrArg some hx)) hvw]

theorem detailsEntries_eq_of_asWritten {es fs : List (FieldName × FieldDetails)}
    (hfs : ∀ f ∈ fs, f.2.IsFinite)
    (h : es.map (fun e => (e.1, e.2.asWritten)) = fs.map fun e => (e.1, e.2.asWritten)) :
    es = fs := by
  induction es generalizing fs with
  | nil => exact (List.map_eq_nil_iff.1 h.symm).symm
  | cons e es ih =>
    cases fs with
    | nil => cases h
    | cons f fs =>
      rw [List.map_cons, List.map_cons, List.cons.injEq, Prod.mk.injEq] at h
      obtain ⟨⟨hname, hdetails⟩, hrest⟩ := h
      have hhead : e = f := Prod.ext hname
        (FieldDetails.eq_of_asWritten (hfs f (List.mem_cons_self ..)) hdetails)
      rw [hhead, ih (fun g hg => hfs g (List.mem_cons_of_mem _ hg)) hrest]

/-- Compiled details are declared ones. -/
theorem mem_detailTable {declared : List FieldName} {e : FieldName × FieldDetails}
    {es : List (FieldName × FieldDetails)} {before : List FieldName}
    {table : Table FieldName FieldDetails}
    (h : e ∈ (detailTable declared before table es).toList) : e ∈ table.toList ∨ e ∈ es := by
  induction es generalizing before table with
  | nil => exact Or.inl h
  | cons f es ih =>
    obtain ⟨name, d⟩ := f
    rw [detailTable] at h
    split at h
    · exact (ih h).imp_right (List.mem_cons_of_mem _)
    · rcases ih h with h | h
      · split at h
        · exact Or.inl h
        · rcases Table.mem_insertList h with rfl | h
          · exact Or.inr (List.mem_cons_self ..)
          · exact Or.inl h
      · exact Or.inr (List.mem_cons_of_mem _ h)

/-- A content that is written as that of a definition with finite implicit values is that
content. -/
theorem Definition.FiniteImplicits.eq_of_asWritten {d : Definition} (hd : d.FiniteImplicits)
    {ρ : Reference → TypeId} {b b' : Body} (hb : d.linked ρ = some b)
    (h : b'.asWritten = b.asWritten) : b' = b := by
  cases b with
  | struct fields layout =>
    cases b' <;> simp only [Body.asWritten, Body.struct.injEq, reduceCtorEq] at h
    case struct fields' layout' =>
      obtain ⟨rfl, hlayout⟩ := h
      congr 1
      cases layout with
      | map table =>
        cases layout' <;> simp only [StructLayout.asWritten, StructLayout.map.injEq,
          reduceCtorEq] at hlayout
        case map table' =>
          congr 1
          refine Table.ext_toList (detailsEntries_eq_of_asWritten (fun f hf => ?_)
            (congrArg Table.toList hlayout))
          cases d <;> simp only [linked, Option.some.injEq, reduceCtorEq, Body.struct.injEq] at hb
          case struct dfields representation =>
            obtain ⟨-, hrepresentation⟩ := hb
            cases representation <;> simp only [StructRepresentation.layout, reduceCtorEq,
              StructLayout.map.injEq] at hrepresentation
            case map details =>
              subst hrepresentation
              cases details with
              | none => cases hf
              | some es =>
                rcases mem_detailTable hf with hf | hf
                · cases hf
                · exact hd f hf
      | _ =>
        cases layout' <;> simp_all [StructLayout.asWritten]
  | _ => cases b' <;> simp_all [Body.asWritten]

end WireSchema
