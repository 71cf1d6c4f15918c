import WireSchema.CrossType
import WireSchema.Proofs.Declaration.Wire

/-!
# Definitions that do not go together

`Definition.CrossFault` states the rules between a definition and those it refers to, on the
declarations alone.  When a rule is broken is a matter of what the other definition shows on
the wire, and of whether it counts: nothing is said about a definition that is faulty
itself.

The checks look at contents instead of declarations.  Where an arena reflects what a
definition refers to (`Arena.Reflects`), they find something wrong with its content exactly
if it breaks a rule (`CrossType.bodyFaults_eq_nil_iff`).
-/

namespace WireSchema

/-! ## The rules -/

/-- The definition that a reference refers to. -/
def Schema.target? (s : Schema) : Reference → Option Definition
  | .named name => s.types.get? name
  | .inline d => some d

/-- A definition breaks a rule together with one that it refers to, out of those that
count. -/
inductive Definition.CrossFault (settings : Settings) (s : Schema) (counts : Definition → Prop) :
    Definition → Prop
  /-- The keys of a map are no texts on the wire, although they have to be. -/
  | mapKey {key value : Reference} {valueNullable : Bool} {representation : MapRepresentation}
      {k : Definition} (strict : settings.strictMapKeys = true) (target : s.target? key = some k)
      (counted : counts k) (unfit : k.wireKind ≠ some .string) :
      CrossFault settings s counts (.map key value valueNullable representation)
  /-- A kinded union has a member with values of another kind. -/
  | kinded {members : List Reference} {table : Entries Kind TypeName} {kind : Kind}
      {member : TypeName} {k : Definition} (entry : (kind, member) ∈ table.toList)
      (target : s.target? (.named member) = some k) (counted : counts k)
      (unfit : k.wireKind ≠ some kind) :
      CrossFault settings s counts (.union members (.kinded table))
  /-- An inline union has a member without entries, or with one for the discriminant. -/
  | inline {members : List Reference} {discriminantKey : String}
      {table : Entries String TypeName} {discriminant : String} {member : TypeName}
      {k : Definition} (entry : (discriminant, member) ∈ table.toList)
      (target : s.target? (.named member) = some k) (counted : counts k)
      (unfit : k.isMapStruct = false ∨ discriminantKey ∈ k.wireNames) :
      CrossFault settings s counts (.union members (.inline discriminantKey table))
  /-- An implicit value does not fit the type of its field. -/
  | implicit {fields : List Field} {details : Entries FieldName FieldDetails} {f : Field}
      {d : FieldDetails} {value : ImplicitValue} {k : Definition} (field : f ∈ fields)
      (given : details.get? f.name = some d) (implicit : d.implicit = some value)
      (target : s.target? f.type = some k) (counted : counts k)
      (unfit : CrossType.implicitFits value k.wireKind = false) :
      CrossFault settings s counts (.struct fields (.map (some details)))

namespace Definition

variable {settings : Settings} {s : Schema} {counts : Definition → Prop}

theorem not_crossFault_map_iff {key value : Reference} {valueNullable : Bool}
    {representation : MapRepresentation} :
    ¬ (map key value valueNullable representation).CrossFault settings s counts ↔
      (settings.strictMapKeys = true → ∀ k, s.target? key = some k → counts k →
        k.wireKind = some .string) := by
  constructor
  · intro h hstrict k htarget hk
    by_contra hunfit
    exact h (.mapKey hstrict htarget hk hunfit)
  · rintro h ⟨hstrict, htarget, hk, hunfit⟩
    exact hunfit (h hstrict _ htarget hk)

theorem not_crossFault_kinded_iff {members : List Reference} {table : Entries Kind TypeName} :
    ¬ (union members (.kinded table)).CrossFault settings s counts ↔
      ∀ e ∈ table.toList, ∀ k, s.target? (.named e.2) = some k → counts k →
        k.wireKind = some e.1 := by
  constructor
  · intro h e he k htarget hk
    by_contra hunfit
    exact h (.kinded he htarget hk hunfit)
  · rintro h (- | ⟨hentry, htarget, hk, hunfit⟩)
    exact hunfit (h _ hentry _ htarget hk)

theorem not_crossFault_inline_iff {members : List Reference} {discriminantKey : String}
    {table : Entries String TypeName} :
    ¬ (union members (.inline discriminantKey table)).CrossFault settings s counts ↔
      ∀ e ∈ table.toList, ∀ k, s.target? (.named e.2) = some k → counts k →
        k.isMapStruct = true ∧ discriminantKey ∉ k.wireNames := by
  constructor
  · intro h e he k htarget hk
    refine ⟨?_, fun hmem => h (.inline he htarget hk (Or.inr hmem))⟩
    by_contra hunfit
    exact h (.inline he htarget hk (Or.inl (Bool.eq_false_of_not_eq_true hunfit)))
  · rintro h (- | - | ⟨hentry, htarget, hk, hunfit⟩)
    obtain ⟨hmap, hnew⟩ := h _ hentry _ htarget hk
    rcases hunfit with hunfit | hmem
    · rw [hmap] at hunfit
      cases hunfit
    · exact hnew hmem

theorem not_crossFault_struct_iff {fields : List Field}
    {details : Entries FieldName FieldDetails} :
    ¬ (struct fields (.map (some details))).CrossFault settings s counts ↔
      ∀ f ∈ fields, ∀ d value, details.get? f.name = some d → d.implicit = some value →
        ∀ k, s.target? f.type = some k → counts k →
          CrossType.implicitFits value k.wireKind = true := by
  constructor
  · intro h f hf d value hgiven himplicit k htarget hk
    by_contra hunfit
    exact h (.implicit hf hgiven himplicit htarget hk (Bool.eq_false_of_not_eq_true hunfit))
  · rintro h (- | - | - | ⟨hfield, hgiven, himplicit, htarget, hk, hunfit⟩)
    rw [h _ hfield _ _ hgiven himplicit _ htarget hk] at hunfit
    cases hunfit

end Definition

/-! ## What the checks say of contents -/

namespace CrossType

variable (a : Arena) (name : TypeName)

theorem mapKeyFaults_eq_nil_iff (key : TypeId) :
    mapKeyFaults a name key = [] ↔ ∀ b, a.body? key = some b → b.wireKind = some .string := by
  rw [mapKeyFaults]
  cases a.body? key with
  | none => simp
  | some b => simp

theorem kindedFaults_eq_nil_iff (kind : Kind) (member : TypeId) :
    kindedFaults a name kind member = [] ↔
      ∀ b, a.body? member = some b → b.wireKind = some kind := by
  rw [kindedFaults]
  cases a.body? member with
  | none => simp
  | some b => simp

theorem inlineFaults_eq_nil_iff (discriminantKey : String) (member : TypeId) :
    inlineFaults a name discriminantKey member = [] ↔
      ∀ b, a.body? member = some b → b.isMapStruct = true ∧ discriminantKey ∉ b.wireNames := by
  rw [inlineFaults]
  cases a.body? member with
  | none => simp
  | some b =>
    cases b with
    | struct fields layout => cases layout <;> simp [Body.isMapStruct]
    | _ => simp [Body.isMapStruct]

theorem implicitFaults_eq_nil_iff (fields : List StructField) (field : FieldName)
    (details : FieldDetails) :
    implicitFaults a name fields field details = [] ↔
      ∀ value f, details.implicit = some value → (fields.find? fun g => g.name = field) = some f →
        ∀ b, a.body? f.type = some b → implicitFits value b.wireKind = true := by
  rw [implicitFaults]
  cases details.implicit with
  | none => simp
  | some value =>
    cases fields.find? fun g => g.name = field with
    | none => simp
    | some f =>
      cases hbody : a.body? f.type with
      | none => simp [hbody]
      | some b => simp [hbody]

theorem implicitFaults_asWritten (fields : List StructField) (field : FieldName)
    (details : FieldDetails) :
    implicitFaults a name fields field details.asWritten =
      implicitFaults a name fields field details := by
  obtain ⟨rename, implicit⟩ := details
  rw [implicitFaults, implicitFaults]
  cases implicit with
  | none => rfl
  | some value =>
    cases fields.find? fun g => g.name = field with
    | none => rfl
    | some f =>
      simp only [FieldDetails.asWritten, Option.map_some]
      cases a.body? f.type with
      | none => rfl
      | some b => cases value <;> rfl

/-- The checks do not tell contents apart that are written alike. -/
theorem bodyFaults_asWritten (settings : Settings) (b : Body) :
    bodyFaults settings a name b.asWritten = bodyFaults settings a name b := by
  cases b with
  | struct fields layout =>
    cases layout with
    | map details =>
      simp only [Body.asWritten, StructLayout.asWritten, bodyFaults, Table.mapValues,
        List.flatMap_map]
      exact congrArg (fun f => details.toList.flatMap f)
        (funext fun e => implicitFaults_asWritten a name fields e.1 e.2)
    | _ => rfl
  | _ => rfl

end CrossType

/-! ## Arenas that reflect declarations -/

/-- An arena reflects what a reference refers to: there is no content at its position if
that is faulty, and otherwise one that agrees with it. -/
def Arena.Reflects (a : Arena) (s : Schema) (declared : List TypeName) (r : Reference)
    (id : TypeId) : Prop :=
  ∃ k, s.target? r = some k ∧ (k.Faulty declared → a.body? id = none) ∧
    (¬ k.Faulty declared → ∃ b, a.body? id = some b ∧ k.Shows b)

/-- What is asked of the content at a position is asked of the definition referred to, if
that is sound. -/
theorem Arena.Reflects.forall_iff {a : Arena} {s : Schema} {declared : List TypeName}
    {r : Reference} {id : TypeId} (h : a.Reflects s declared r id) {P : Body → Prop}
    {Q : Definition → Prop} (hPQ : ∀ k b, k.Shows b → (P b ↔ Q k)) :
    (∀ b, a.body? id = some b → P b) ↔
      ∀ k, s.target? r = some k → ¬ k.Faulty declared → Q k := by
  obtain ⟨k, htarget, hfaulty, hsound⟩ := h
  constructor
  · intro hP k' htarget' hk'
    obtain rfl := Option.some.inj (htarget.symm.trans htarget')
    obtain ⟨b, hb, hshows⟩ := hsound hk'
    exact (hPQ k b hshows).1 (hP b hb)
  · intro hQ b hb
    have hk : ¬ k.Faulty declared := by
      intro hk
      rw [hfaulty hk] at hb
      cases hb
    obtain ⟨b', hb', hshows⟩ := hsound hk
    obtain rfl := Option.some.inj (hb.symm.trans hb')
    exact (hPQ k b hshows).2 (hQ k htarget hk)

/-! ## Fields -/

theorem find?_linked {ρ : Reference → TypeId} {f : Field} {fields : List Field}
    (hnodup : (fields.map Field.name).Nodup) (hf : f ∈ fields) :
    ((fields.map (Field.linked ρ)).find? fun g => g.name = f.name) = some (f.linked ρ) := by
  induction fields with
  | nil => cases hf
  | cons g fields ih =>
    rw [List.map_cons, List.nodup_cons] at hnodup
    rw [List.map_cons, List.find?_cons]
    rcases List.mem_cons.1 hf with rfl | hf
    · simp [Field.linked]
    · have hne : ¬ (g.linked ρ).name = f.name := by
        intro heq
        have hmem : f.name ∈ fields.map Field.name := List.mem_map_of_mem hf
        rw [← heq] at hmem
        exact hnodup.1 hmem
      simp only [hne, decide_false]
      exact ih hnodup.2 hf

/-! ## Checks and rules -/

namespace CrossType

variable {settings : Settings} {a : Arena} {name : TypeName} {s : Schema}
  {declared : List TypeName} {ρ : Reference → TypeId}

/-- A table from keys to members is all right entry by entry. -/
theorem tableFaults_eq_nil_iff {κ : Type} [DecidableEq κ] {table : Entries κ TypeName}
    (hkeys : table.keys.Nodup) (s : Schema) (declared : List TypeName) (ρ : Reference → TypeId)
    (faults : κ → TypeId → List ConfigFault) (fits : κ → Definition → Prop)
    (hentry : ∀ e ∈ table.toList, faults e.1 (ρ (.named e.2)) = [] ↔
      ∀ k, s.target? (.named e.2) = some k → ¬ k.Faulty declared → fits e.1 k) :
    ((Table.ofList (table.toList.map fun e => (e.1, ρ (.named e.2)))).toList.flatMap
        fun e => faults e.1 e.2) = [] ↔
      ∀ e ∈ table.toList, ∀ k, s.target? (.named e.2) = some k → ¬ k.Faulty declared →
        fits e.1 k := by
  have hlist : (Table.ofList (table.toList.map fun e => (e.1, ρ (.named e.2)))).toList =
      table.toList.map fun e => (e.1, ρ (.named e.2)) := by
    refine Table.toList_ofList ?_
    rw [List.map_map]
    exact hkeys
  rw [hlist, List.flatMap_map, List.flatMap_eq_nil_iff]
  exact forall₂_congr fun e he => hentry e he

/-- The implicit values of a struct are all right field by field. -/
theorem detailFaults_eq_nil_iff {fields : List Field} (hnames : (fields.map Field.name).Nodup)
    {details : Entries FieldName FieldDetails}
    (hreflects : ∀ f ∈ fields, a.Reflects s declared f.type (ρ f.type)) :
    ((compiledDetails (fields.map Field.name) (some details)).toList.flatMap fun e =>
        implicitFaults a name (fields.map (Field.linked ρ)) e.1 e.2) = [] ↔
      ∀ f ∈ fields, ∀ d value, details.get? f.name = some d → d.implicit = some value →
        ∀ k, s.target? f.type = some k → ¬ k.Faulty declared →
          implicitFits value k.wireKind = true := by
  have hfits : ∀ f ∈ fields, ∀ value,
      (∀ b, a.body? (ρ f.type) = some b → implicitFits value b.wireKind = true) ↔
        ∀ k, s.target? f.type = some k → ¬ k.Faulty declared →
          implicitFits value k.wireKind = true := by
    intro f hf value
    exact (hreflects f hf).forall_iff fun k b hshows => by rw [hshows.kind]
  rw [List.flatMap_eq_nil_iff]
  constructor
  · intro h f hf d value hgiven himplicit
    have hcompiled : (compiledDetails (fields.map Field.name) (some details)).get? f.name =
        some d := by
      rw [get?_compiledDetails (List.mem_map_of_mem hf), hgiven]
      simp [FieldDetails.isVoid, himplicit]
    have hfault := h _ (Table.get?_eq_some_iff.1 hcompiled)
    rw [implicitFaults_eq_nil_iff] at hfault
    exact (hfits f hf value).1 (hfault value _ himplicit (find?_linked hnames hf))
  · intro h e he
    rw [implicitFaults_eq_nil_iff]
    intro value g himplicit hfind
    obtain ⟨f, hf, rfl⟩ := List.mem_map.1 (List.mem_of_find?_eq_some hfind)
    have hfound := List.find?_some hfind
    have hname : f.name = e.1 := of_decide_eq_true hfound
    have hcompiled := Table.get?_eq_some_iff.2 he
    rw [← hname, get?_compiledDetails (List.mem_map_of_mem hf), Option.filter_eq_some_iff]
      at hcompiled
    exact (hfits f hf value).2 (h f hf e.2 value hcompiled.1 himplicit)

/-- **The checks find what breaks a rule.**  Of the content of a definition without local
faults, they report something exactly if the definition breaks a rule together with a sound
one. -/
theorem bodyFaults_eq_nil_iff {d : Definition} {b : Body} (hsound : ¬ d.LocalFault declared)
    (hlinked : d.linked ρ = some b)
    (hreflects : ∀ r ∈ d.references, a.Reflects s declared r (ρ r)) :
    bodyFaults settings a name b = [] ↔
      ¬ d.CrossFault settings s fun k => ¬ k.Faulty declared := by
  cases d with
  | map key value valueNullable representation =>
    obtain rfl := Option.some.inj hlinked
    have hkey := (hreflects key (List.mem_cons_self ..)).forall_iff
      (P := fun b => b.wireKind = some .string) (Q := fun k => k.wireKind = some .string)
      fun k b hshows => by rw [hshows.kind]
    rw [bodyFaults]
    by_cases hstrict : settings.strictMapKeys = true
    · rw [if_pos hstrict, mapKeyFaults_eq_nil_iff, hkey, Definition.not_crossFault_map_iff]
      exact ⟨fun h _ => h, fun h => h hstrict⟩
    · rw [if_neg hstrict, Definition.not_crossFault_map_iff]
      exact ⟨fun _ hstrict' => absurd hstrict' hstrict, fun _ => rfl⟩
  | union members representation =>
    obtain rfl := Option.some.inj hlinked
    have hlocates := MemberNames.locates_ofMembers declared members
    have hlayout : (representation.layout (.ofMembers declared members)).faults = [] := by
      by_contra hrejected
      exact hsound (.representation hrejected)
    cases representation with
    | kinded table =>
      obtain ⟨-, hkeys, hmembers⟩ := kinds_eq hlocates hlayout
      rw [Definition.not_crossFault_kinded_iff]
      refine tableFaults_eq_nil_iff hkeys s declared ρ (kindedFaults a name)
        (fun kind k => k.wireKind = some kind) fun e he => ?_
      rw [kindedFaults_eq_nil_iff]
      exact (hreflects _ (MemberNames.mem_of_mem_keys (hmembers e he))).forall_iff
        fun k b hshows => by rw [hshows.kind]
    | inline discriminantKey table =>
      obtain ⟨-, hkeys, hmembers⟩ := discriminants_eq hlocates (List.append_eq_nil_iff.1 hlayout).2
      rw [Definition.not_crossFault_inline_iff]
      refine tableFaults_eq_nil_iff hkeys s declared ρ
        (fun _ member => inlineFaults a name discriminantKey member)
        (fun _ k => k.isMapStruct = true ∧ discriminantKey ∉ k.wireNames) fun e he => ?_
      rw [inlineFaults_eq_nil_iff]
      refine (hreflects _ (MemberNames.mem_of_mem_keys (hmembers e he))).forall_iff
        fun k b hshows => ?_
      rw [hshows.isMapStruct]
      exact and_congr_right fun hmap => by rw [hshows.names hmap]
    | _ => exact ⟨fun _ hfault => (by cases hfault), fun _ => rfl⟩
  | struct fields representation =>
    obtain rfl := Option.some.inj hlinked
    have hnames : (fields.map Field.name).Nodup := by
      by_contra hrepeated
      exact hsound (.repeatedName hrepeated)
    cases representation with
    | map details =>
      cases details with
      | none => exact ⟨fun _ hfault => (by cases hfault), fun _ => rfl⟩
      | some details =>
        rw [Definition.not_crossFault_struct_iff]
        exact detailFaults_eq_nil_iff (a := a) (s := s) hnames fun f hf =>
          hreflects _ (List.mem_map_of_mem hf)
    | _ => exact ⟨fun _ hfault => (by cases hfault), fun _ => rfl⟩
  | copy source => cases hlinked
  | _ =>
    obtain rfl := Option.some.inj hlinked
    exact ⟨fun _ hfault => (by cases hfault), fun _ => rfl⟩

/-- A content that is written as that of the definition does as well. -/
theorem bodyFaults_eq_nil_iff_of_written {d : Definition} {b : Body}
    (hsound : ¬ d.LocalFault declared)
    (hwritten : (d.linked ρ).map Body.asWritten = some b.asWritten)
    (hreflects : ∀ r ∈ d.references, a.Reflects s declared r (ρ r)) :
    bodyFaults settings a name b = [] ↔
      ¬ d.CrossFault settings s fun k => ¬ k.Faulty declared := by
  obtain ⟨b', hlinked, hsame⟩ := Option.map_eq_some_iff.1 hwritten
  rw [← bodyFaults_asWritten, ← hsame, bodyFaults_asWritten]
  exact bodyFaults_eq_nil_iff hsound hlinked hreflects

end CrossType
end WireSchema
