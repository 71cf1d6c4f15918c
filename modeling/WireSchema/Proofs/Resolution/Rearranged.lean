import Mathlib.Data.List.Perm.Basic
import WireSchema.Proofs.Resolution.LocalFault

/-!
# Declared names in another order

What is wrong with a definition itself is a matter of which names are declared, not of their
order (`Definition.localFault_perm`).  Most of the rules mention names only.  The translators
of unions are told positions instead, and in another order positions are others; but they only
ask which entry is taken and whether two positions are the same, and run alike in every order
(`MemberNames.Alike`).
-/

namespace WireSchema

/-! ## Positions in rearranged lists -/

/-- Elements of a list have different positions, and all others have one. -/
theorem idxOf_eq_idxOf_iff {α : Type} [DecidableEq α] {l : List α} {x y : α} :
    l.idxOf x = l.idxOf y ↔ x = y ∨ x ∉ l ∧ y ∉ l := by
  by_cases hx : x ∈ l
  · rw [List.idxOf_inj hx]
    exact ⟨Or.inl, fun h => h.resolve_right fun hnone => hnone.1 hx⟩
  · rw [List.idxOf_eq_length hx, eq_comm, List.idxOf_eq_length_iff]
    exact ⟨fun hy => Or.inr ⟨hx, hy⟩, fun h => h.elim (fun heq => heq ▸ hx) And.right⟩

theorem idxOf_eq_idxOf_iff_of_perm {α : Type} [DecidableEq α] {l l' : List α} (h : l.Perm l')
    {x y : α} : l.idxOf x = l.idxOf y ↔ l'.idxOf x = l'.idxOf y := by
  rw [idxOf_eq_idxOf_iff, idxOf_eq_idxOf_iff, h.mem_iff, h.mem_iff]

/-! ## Tables -/

namespace Table

variable {κ ν : Type} [DecidableEq κ]

theorem contains_insert (t : Table κ ν) (key : κ) (value : ν) (k : κ) :
    (t.insert key value).contains k = (decide (k = key) || t.contains k) := by
  rw [contains, get?_insert]
  by_cases h : k = key
  · simp [h]
  · simp [h, contains]

end Table

/-! ## Unions -/

theorem MemberNames.Locates.find_faults_eq_nil_iff {names : MemberNames}
    {position : TypeName → TypeId} (h : names.Locates position) {name : TypeName} :
    (names.find name).faults = [] ↔ name ∈ names.members.keys := by
  refine ⟨h.mem_keys, fun hmem => ?_⟩
  obtain ⟨id, hid⟩ := Option.isSome_iff_exists.1 (Table.contains_iff.2 hmem)
  rw [MemberNames.find, hid]
  rfl

/-- What is wrong with the member of an entry is wrong with the table. -/
theorem byteTable_faults_ne_nil {names : MemberNames} {member : TypeName}
    (h : (names.find member).faults ≠ []) (table : Table TypeId UInt8) (used : List UInt8)
    (value : Int) (es : List (TypeName × Int)) :
    (byteTable names table used ((member, value) :: es)).faults ≠ [] := by
  rw [byteTable]
  cases byte? value with
  | none => exact List.cons_ne_nil _ _
  | some byte => cases hfound : (names.find member).value <;> simp [hfound, Checked.after, h]

/-- Two unions have members of the same names, and where two names have one position for one
of them they do for the other. -/
structure MemberNames.Alike (names names' : MemberNames) (position position' : TypeName → TypeId) :
    Prop where
  left : names.Locates position
  right : names'.Locates position'
  members : ∀ name, name ∈ names.members.keys ↔ name ∈ names'.members.keys
  positions : ∀ x y, position x = position y ↔ position' x = position' y

namespace MemberNames.Alike

variable {names names' : MemberNames} {position position' : TypeName → TypeId}
  (h : names.Alike names' position position')

include h

/-- An entry is taken by both or by neither. -/
theorem find (name : TypeName) :
    ((names.find name).faults ≠ [] ∧ (names'.find name).faults ≠ []) ∨
      (names.find name = ⟨some (position name), []⟩ ∧
        names'.find name = ⟨some (position' name), []⟩) := by
  by_cases hmem : name ∈ names.members.keys
  · have hleft := h.left.find_faults_eq_nil_iff.2 hmem
    have hright := h.right.find_faults_eq_nil_iff.2 ((h.members name).1 hmem)
    refine Or.inr ⟨?_, ?_⟩
    · rw [← h.left.find hleft, ← hleft]
    · rw [← h.right.find hright, ← hright]
  · refine Or.inl ⟨fun hleft => ?_, fun hright => ?_⟩
    · exact hmem (h.left.find_faults_eq_nil_iff.1 hleft)
    · exact hmem ((h.members name).2 (h.right.find_faults_eq_nil_iff.1 hright))

theorem memberTable {κ : Type} [DecidableEq κ] (repeated : κ → ConfigFault)
    (es : List (κ × TypeName)) {table table' : Table κ TypeId}
    (htables : ∀ k, table.contains k = table'.contains k) :
    (WireSchema.memberTable names repeated table es).faults = [] ↔
      (WireSchema.memberTable names' repeated table' es).faults = [] := by
  induction es generalizing table table' with
  | nil => exact Iff.rfl
  | cons e es ih =>
    obtain ⟨key, member⟩ := e
    rw [WireSchema.memberTable, WireSchema.memberTable, htables key]
    by_cases hkey : table'.contains key = true
    · rw [if_pos hkey, if_pos hkey]
      simp [Checked.after]
    · rw [if_neg hkey, if_neg hkey]
      rcases h.find member with ⟨hleft, hright⟩ | ⟨hleft, hright⟩
      · simp [Checked.after, hleft, hright]
      · simp only [Checked.after, hleft, hright, List.nil_append]
        exact ih fun k => by rw [Table.contains_insert, Table.contains_insert, htables k]

theorem byteTable (es : List (TypeName × Int)) {table table' : Table TypeId UInt8}
    (used : List UInt8)
    (htables : ∀ name, table.contains (position name) = table'.contains (position' name)) :
    (WireSchema.byteTable names table used es).faults = [] ↔
      (WireSchema.byteTable names' table' used es).faults = [] := by
  induction es generalizing table table' used with
  | nil => exact Iff.rfl
  | cons e es ih =>
    obtain ⟨member, value⟩ := e
    rcases h.find member with ⟨hleft, hright⟩ | ⟨hleft, hright⟩
    · exact iff_of_false (byteTable_faults_ne_nil hleft table used value es)
        (byteTable_faults_ne_nil hright table' used value es)
    · rw [WireSchema.byteTable, WireSchema.byteTable]
      cases byte? value with
      | none => simp [Checked.after]
      | some byte =>
        have hrest : (WireSchema.byteTable names (table.insert (position member) byte)
              (byte :: used) es).faults = [] ↔
            (WireSchema.byteTable names' (table'.insert (position' member) byte)
              (byte :: used) es).faults = [] :=
          ih (byte :: used) fun name => by
            simp only [Table.contains_insert, htables name, h.positions name member]
        simp only [Checked.after, hleft, hright, List.append_eq_nil_iff, htables member, hrest]

/-- **A representation is accepted for both unions or for neither.** -/
theorem layout (representation : UnionRepresentation) :
    (representation.layout names).faults = [] ↔ (representation.layout names').faults = [] := by
  have hdiscriminants : ∀ (sort : TableKey) (es : Entries String TypeName),
      (discriminants names sort es).faults = [] ↔ (discriminants names' sort es).faults = [] :=
    fun sort es => h.memberTable (.repeatedKey sort) es.toList fun _ => rfl
  cases representation with
  | keyed es => exact hdiscriminants _ es
  | kinded es => exact h.memberTable .repeatedKind es.toList fun _ => rfl
  | envelope discriminantKey contentKey es =>
    simp only [UnionRepresentation.layout, Checked.after, Checked.map, List.append_eq_nil_iff,
      hdiscriminants]
  | inline discriminantKey es =>
    simp only [UnionRepresentation.layout, Checked.after, Checked.map, List.append_eq_nil_iff,
      hdiscriminants]
  | stringPrefix es =>
    simp only [UnionRepresentation.layout, List.append_eq_nil_iff, hdiscriminants]
  | bytePrefix es => exact h.byteTable es.toList [] fun _ => rfl

end MemberNames.Alike

section

variable {declared declared' : List TypeName} (h : declared.Perm declared')

include h

theorem MemberNames.alike_ofMembers (members : List Reference) :
    (ofMembers declared members).Alike (ofMembers declared' members) declared.idxOf
      declared'.idxOf where
  left := locates_ofMembers declared members
  right := locates_ofMembers declared' members
  members name := by rw [mem_keys_ofMembers, mem_keys_ofMembers]
  positions _ _ := idxOf_eq_idxOf_iff_of_perm h

namespace Definition

theorem rejected_perm (d : Definition) : d.Rejected declared ↔ d.Rejected declared' := by
  cases d with
  | union members representation =>
    exact not_congr ((MemberNames.alike_ofMembers h members).layout representation)
  | _ => exact Iff.rfl

/-- **A local fault does not depend on the order of the declarations.** -/
theorem localFault_perm (d : Definition) : d.LocalFault declared ↔ d.LocalFault declared' := by
  have himp : ∀ {names names' : List TypeName}, names.Perm names' →
      d.LocalFault names → d.LocalFault names' := by
    intro names names' hperm hfault
    cases hfault with
    | undeclared name reference missing =>
      exact .undeclared name reference fun hmem => missing (hperm.mem_iff.2 hmem)
    | copy source form => exact .copy source form
    | inPlace e reference => exact .inPlace e reference
    | repeatedMember names => exact .repeatedMember names
    | emptyName names => exact .emptyName names
    | repeatedName names => exact .repeatedName names
    | representation rejected => exact .representation ((rejected_perm hperm d).1 rejected)
  exact ⟨himp h, himp h.symm⟩

theorem faulty_perm (d : Definition) : d.Faulty declared ↔ d.Faulty declared' :=
  exists_congr fun e => and_congr_right fun _ => localFault_perm h e

end Definition

end

end WireSchema
