import WireSchema.Proofs.Resolution.LocalFault

/-!
# Definitions on the wire

What kind of values a definition has on the wire, and under which names the fields of a
struct stand there, can be read off the declaration.  The content of a definition agrees
with it in this (`Definition.shows_of_linked`), and so does any content that is written
alike.
-/

namespace WireSchema

/-! ## Details of a field -/

/-- Later details of a field are ignored. -/
theorem get?_detailTable_of_mem {declared : List FieldName} {name : FieldName}
    {es : List (FieldName × FieldDetails)} {before : List FieldName}
    {table : Table FieldName FieldDetails} (hname : name ∈ before) :
    (detailTable declared before table es).get? name = table.get? name := by
  induction es generalizing before table with
  | nil => rfl
  | cons e es ih =>
    obtain ⟨field, d⟩ := e
    rw [detailTable]
    split
    · exact ih hname
    · next hnew =>
      have hne : name ≠ field := by
        rintro rfl
        exact hnew (Or.inr hname)
      rw [ih (List.mem_cons_of_mem _ hname)]
      split
      · rfl
      · rw [Table.get?_insert, if_neg hne]

/-- The details of a declared field are the first ones that are given for it, unless they
say nothing. -/
theorem get?_detailTable {declared : List FieldName} {name : FieldName} (hname : name ∈ declared)
    {es : List (FieldName × FieldDetails)} {before : List FieldName}
    {table : Table FieldName FieldDetails} (hnew : name ∉ before)
    (htable : table.get? name = none) :
    (detailTable declared before table es).get? name =
      ((es.find? fun e => e.1 = name).map Prod.snd).filter fun d => !d.isVoid := by
  induction es generalizing before table with
  | nil => exact htable
  | cons e es ih =>
    obtain ⟨field, d⟩ := e
    rw [detailTable, List.find?_cons]
    by_cases hfield : field = name
    · subst hfield
      have hcondition : ¬ (field ∉ declared ∨ field ∈ before) := by
        rintro (hmissing | hmem)
        · exact hmissing hname
        · exact hnew hmem
      rw [if_neg hcondition, get?_detailTable_of_mem (List.mem_cons_self ..)]
      cases hvoid : d.isVoid
      · simp [Table.get?_insert, hvoid, Option.filter]
      · simp [htable, hvoid, Option.filter]
    · simp only [hfield, decide_false]
      split
      · exact ih hnew htable
      · refine ih ?_ ?_
        · rintro (_ | ⟨_, hmem⟩)
          · exact hfield rfl
          · exact hnew hmem
        · split
          · exact htable
          · rw [Table.get?_insert, if_neg (Ne.symm hfield), htable]

theorem get?_compiledDetails {declared : List FieldName} {name : FieldName}
    (hname : name ∈ declared) (es : Entries FieldName FieldDetails) :
    (compiledDetails declared (some es)).get? name = (es.get? name).filter fun d => !d.isVoid :=
  get?_detailTable hname List.not_mem_nil rfl

/-! ## Kinds and names -/

/-- The kind of the values of a definition on the wire.  A kinded union has values of
several kinds, and a copy has none of its own. -/
def Definition.wireKind : Definition → Option Kind
  | .bool => some .bool
  | .string => some .string
  | .bytes => some .bytes
  | .int => some .int
  | .float => some .float
  | .link _ => some .link
  | .list .. => some .list
  | .map _ _ _ .map => some .map
  | .map _ _ _ .listPairs => some .list
  | .map _ _ _ (.stringPairs _) => some .string
  | .struct _ (.map _) => some .map
  | .struct _ (.tuple _) => some .list
  | .struct _ .listPairs => some .list
  | .struct _ (.stringPairs _) => some .string
  | .struct _ (.stringJoin _ _) => some .string
  | .union _ (.keyed _) => some .map
  | .union _ (.envelope ..) => some .map
  | .union _ (.inline ..) => some .map
  | .union _ (.kinded _) => none
  | .union _ (.stringPrefix _) => some .string
  | .union _ (.bytePrefix _) => some .bytes
  | .enum _ (.string _) => some .string
  | .enum _ (.int _) => some .int
  | .copy _ => none

/-- Whether a definition is a struct that is a map on the wire. -/
def Definition.isMapStruct : Definition → Bool
  | .struct _ (.map _) => true
  | _ => false

/-- The name of a field on the wire: a new one if its details give one. -/
def FieldName.onWire (field : FieldName) : Option (Entries FieldName FieldDetails) → String
  | some details => ((details.get? field).bind FieldDetails.rename).getD field
  | none => field

/-- The names of the fields of a struct that is a map on the wire. -/
def Definition.wireNames : Definition → List String
  | .struct fields (.map details) => fields.map fun f => FieldName.onWire f.name details
  | _ => []

/-- Whether a content is a struct that is a map on the wire. -/
def Body.isMapStruct : Body → Bool
  | .struct _ (.map _) => true
  | _ => false

/-- A content agrees with a definition in what is seen on the wire. -/
structure Definition.Shows (d : Definition) (b : Body) : Prop where
  kind : b.wireKind = d.wireKind
  isMapStruct : b.isMapStruct = d.isMapStruct
  names : d.isMapStruct = true → b.wireNames = d.wireNames

theorem wireName_compiledDetails {fields : List Field} {f : Field} (hf : f ∈ fields)
    (details : Option (Entries FieldName FieldDetails)) :
    (StructLayout.map (compiledDetails (fields.map Field.name) details)).wireName f.name =
      FieldName.onWire f.name details := by
  cases details with
  | none => rfl
  | some es =>
    rw [StructLayout.wireName, get?_compiledDetails (List.mem_map_of_mem hf), FieldName.onWire]
    cases es.get? f.name with
    | none => rfl
    | some d =>
      obtain ⟨rename, implicit⟩ := d
      cases rename <;> cases implicit <;> rfl

theorem Definition.shows_linked {d : Definition} {ρ : Reference → TypeId} {b : Body}
    (h : d.linked ρ = some b) : d.Shows b := by
  cases d with
  | struct fields representation =>
    obtain rfl := Option.some.inj h
    cases representation with
    | map details =>
      refine ⟨rfl, rfl, fun _ => ?_⟩
      rw [wireNames, Body.wireNames, List.map_map]
      exact List.map_congr_left fun f hf => wireName_compiledDetails hf details
    | _ => exact ⟨rfl, rfl, fun hmap => by cases hmap⟩
  | map key value valueNullable representation =>
    obtain rfl := Option.some.inj h
    cases representation <;> exact ⟨rfl, rfl, fun hmap => by cases hmap⟩
  | union members representation =>
    obtain rfl := Option.some.inj h
    cases representation <;> exact ⟨rfl, rfl, fun hmap => by cases hmap⟩
  | enum members representation =>
    obtain rfl := Option.some.inj h
    cases representation <;> exact ⟨rfl, rfl, fun hmap => by cases hmap⟩
  | copy source => cases h
  | _ =>
    obtain rfl := Option.some.inj h
    exact ⟨rfl, rfl, fun hmap => by cases hmap⟩

@[simp] theorem Body.isMapStruct_asWritten (b : Body) :
    b.asWritten.isMapStruct = b.isMapStruct := by
  cases b with
  | struct fields layout => cases layout <;> rfl
  | _ => rfl

@[simp] theorem Body.wireNames_asWritten (b : Body) : b.asWritten.wireNames = b.wireNames := by
  cases b with
  | struct fields layout => simp only [asWritten, wireNames, StructLayout.wireName_asWritten]
  | _ => rfl

/-- **A content that is written as that of a definition agrees with the definition.** -/
theorem Definition.shows_of_linked {d : Definition} {ρ : Reference → TypeId} {b : Body}
    (h : (d.linked ρ).map Body.asWritten = some b.asWritten) : d.Shows b := by
  obtain ⟨b', hlinked, hwritten⟩ := Option.map_eq_some_iff.1 h
  obtain ⟨hkind, hmap, hnames⟩ := shows_linked hlinked
  rw [← Body.wireKind_asWritten, hwritten, Body.wireKind_asWritten] at hkind
  rw [← Body.isMapStruct_asWritten, hwritten, Body.isMapStruct_asWritten] at hmap
  rw [← Body.wireNames_asWritten, hwritten, Body.wireNames_asWritten] at hnames
  exact ⟨hkind, hmap, hnames⟩

end WireSchema
