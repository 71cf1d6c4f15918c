import WireSchema.Proofs.Resolution.Content

/-!
# Positions in contents

A content names other types by their positions: those of its references, and in the
discriminant table of a union those of its members once more.  A table is filled from the
members that were found, so it has no other positions
(`UnionRepresentation.positions_layout_subset`).

Hence every position in the content of a definition is that of one of its references
(`Definition.positions_linked_subset`), and in an arena there is a slot at it
(`Arena.Links.positions_lt`).
-/

namespace WireSchema

/-- The positions in a discriminant table. -/
def UnionLayout.positions : UnionLayout → List TypeId
  | .keyed table => table.values
  | .kinded table => table.values
  | .envelope _ _ table => table.values
  | .inline _ table => table.values
  | .stringPrefix table => table.values
  | .bytePrefix table => table.keys

/-- All positions in a content. -/
def Body.positions : Body → List TypeId
  | .union members layout => members ++ layout.positions
  | b => b.references

/-! ## Discriminant tables -/

namespace Table

variable {κ ν : Type} [DecidableEq κ]

theorem values_insert_subset (t : Table κ ν) (key : κ) (value : ν) :
    (t.insert key value).values ⊆ value :: t.values := by
  intro v hv
  obtain ⟨e, he, rfl⟩ := List.mem_map.1 hv
  rcases mem_insertList he with rfl | he
  · exact List.mem_cons_self ..
  · exact List.mem_cons_of_mem _ (List.mem_map_of_mem he)

theorem keys_insert_subset (t : Table κ ν) (key : κ) (value : ν) :
    (t.insert key value).keys ⊆ key :: t.keys := by
  intro k hk
  obtain ⟨e, he, rfl⟩ := List.mem_map.1 hk
  rcases mem_insertList he with rfl | he
  · exact List.mem_cons_self ..
  · exact List.mem_cons_of_mem _ (List.mem_map_of_mem he)

end Table

section

variable {names : MemberNames}

theorem MemberNames.mem_values_of_find {name : TypeName} {id : TypeId}
    (h : (names.find name).value = some id) : id ∈ names.members.values := by
  rw [find] at h
  split at h
  · next i hi =>
    cases h
    exact List.mem_map_of_mem (f := Prod.snd) (Table.mem_toList_of_get? hi)
  · split at h
    · cases h
    · split at h <;> cases h

theorem values_memberTable_subset {κ : Type} [DecidableEq κ] (repeated : κ → ConfigFault)
    (table : Table κ TypeId) (es : List (κ × TypeName)) :
    (memberTable names repeated table es).value.values ⊆
      table.values ++ names.members.values := by
  induction es generalizing table with
  | nil => exact List.subset_append_left _ _
  | cons e es ih =>
    obtain ⟨key, member⟩ := e
    rw [memberTable]
    split
    · exact ih table
    · cases hfound : (names.find member).value with
      | none =>
        simp only [hfound]
        exact ih table
      | some id =>
        simp only [hfound]
        intro i hi
        rcases List.mem_append.1 (ih (table.insert key id) hi) with hi | hi
        · rcases List.mem_cons.1 (table.values_insert_subset key id hi) with rfl | hi
          · exact List.mem_append_right _ (MemberNames.mem_values_of_find hfound)
          · exact List.mem_append_left _ hi
        · exact List.mem_append_right _ hi

theorem keys_byteTable_subset (table : Table TypeId UInt8) (used : List UInt8)
    (es : List (TypeName × Int)) :
    (byteTable names table used es).value.keys ⊆ table.keys ++ names.members.values := by
  induction es generalizing table used with
  | nil => exact List.subset_append_left _ _
  | cons e es ih =>
    obtain ⟨member, value⟩ := e
    rw [byteTable]
    cases byte? value with
    | none => exact ih table used
    | some byte =>
      cases hfound : (names.find member).value with
      | none =>
        simp only [hfound]
        exact ih table (byte :: used)
      | some id =>
        simp only [hfound]
        intro i hi
        rcases List.mem_append.1 (ih (table.insert id byte) (byte :: used) hi) with hi | hi
        · rcases List.mem_cons.1 (table.keys_insert_subset id byte hi) with rfl | hi
          · exact List.mem_append_right _ (MemberNames.mem_values_of_find hfound)
          · exact List.mem_append_left _ hi
        · exact List.mem_append_right _ hi

/-- **A discriminant table has the positions of members only**, also where there is something
wrong with it. -/
theorem UnionRepresentation.positions_layout_subset (names : MemberNames)
    (representation : UnionRepresentation) :
    (representation.layout names).value.positions ⊆ names.members.values := by
  cases representation with
  | bytePrefix table => exact keys_byteTable_subset ∅ [] table.toList
  | keyed table => exact values_memberTable_subset _ ∅ table.toList
  | kinded table => exact values_memberTable_subset _ ∅ table.toList
  | envelope _ _ table => exact values_memberTable_subset _ ∅ table.toList
  | inline _ table => exact values_memberTable_subset _ ∅ table.toList
  | stringPrefix table => exact values_memberTable_subset _ ∅ table.toList

end

/-! ## Contents of definitions -/

theorem Definition.positions_linked_subset {declared : List TypeName} {d : Definition}
    (hsound : ¬ d.LocalFault declared) {ρ : Reference → TypeId}
    (hρ : ∀ name, ρ (.named name) = declared.idxOf name) {b : Body} (h : d.linked ρ = some b) :
    b.positions ⊆ d.references.map ρ := by
  cases d with
  | union members representation =>
    cases h
    refine List.append_subset.2 ⟨List.Subset.refl _, fun id hid => ?_⟩
    have hlayout : (representation.layout (.ofMembers declared members)).faults = [] := by
      by_contra hfaults
      exact hsound (.representation hfaults)
    obtain ⟨hvalue, -⟩ := UnionRepresentation.value_layout
      (MemberNames.locates_ofMembers declared members) hlayout
    have hposition : (fun name => ρ (.named name)) = declared.idxOf := funext hρ
    rw [hposition, ← hvalue] at hid
    obtain ⟨e, he, rfl⟩ := List.mem_map.1
      (UnionRepresentation.positions_layout_subset _ representation hid)
    rcases Table.mem_toList_insertAll he with he | he
    · cases he
    · obtain ⟨name, hname, rfl⟩ := List.mem_map.1 he
      obtain ⟨r, hr, hr'⟩ := List.mem_filterMap.1 hname
      cases r with
      | inline e => cases hr'
      | named name' =>
        cases hr'
        exact List.mem_map.2 ⟨_, hr, hρ name⟩
  | _ =>
    intro id hid
    rw [← Definition.references_linked h]
    cases h <;> exact hid

namespace Arena

variable {digest : String → String} {declared : List TypeName} {a : Arena}

/-- **There is a slot at every position in a content.** -/
theorem Links.positions_lt {d : Definition} {b : Body} (h : a.Links digest declared d b)
    (ha : a.WellFormed declared) : ∀ id ∈ b.positions, id < a.slots.length := by
  intro id hid
  obtain ⟨r, hr, rfl⟩ := List.mem_map.1
    (Definition.positions_linked_subset h.sound (fun _ => rfl) h.linked hid)
  cases r with
  | named name =>
    have hmem : name ∈ declared := by
      by_contra hmissing
      exact h.sound (.undeclared name hr hmissing)
    have hlt : declared.idxOf name < declared.length := List.idxOf_lt_length_of_mem hmem
    rw [locate, Reference.locate, ha.length]
    exact Nat.lt_of_lt_of_le hlt (Nat.le_add_right _ _)
  | inline e =>
    obtain ⟨id, hid⟩ := h.located e hr
    rw [locate, Reference.locate, positionOf_of_finished hid]
    exact ha.lt_length hid

end Arena
end WireSchema
