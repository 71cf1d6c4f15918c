import WireSchema.Proofs.Declaration.Linked
import WireSchema.Proofs.Resolution.Positions
import WireSchema.Proofs.TypeSystem.Clauses

/-!
# Contents that are shown alike

Two contents with one text in the schema language agree (`Body.IsLegible.agrees`): they are of one
sort, and everything in them is equal once the types that they refer to are compared by name.
`Body.Agrees` says what this means, and there are three things that it leaves open, because the
text does:

* the order in which a union lists its members, because members with a discriminant come first,
* the order of the details of fields, because they stand behind the fields,
* whether a link leads to any type or to a type of the name `Any`.

## What has to be known of the contents

A text is only taken apart where names do not look like the text around them.  So the names have
to be words, and different types have to have different names (`Body.IsLegible`).  Moreover a
text does not show details of a field that is not there, and does not tell a member of an enum
without a wire value from one that stands for itself; a compiled content has neither
(`Body.IsTidy`).

A block is read line by line, and each line from the left.  The text behind the block comes last,
because a field order can only be read if the fields are known.
-/

namespace WireSchema

open Text

variable {nameOf nameOf' : TypeId → TypeName}

/-! ## Contents that agree -/

/-- A field with the name of its type. -/
def StructField.shown (nameOf : TypeId → TypeName) (f : StructField) :
    FieldName × TypeName × Bool × Bool :=
  (f.name, nameOf f.type, f.optional, f.nullable)

/-- Whether two struct representations are equal, the details of a map in whatever order. -/
def StructLayout.Agrees : StructLayout → StructLayout → Prop
  | .map details, .map details' => details.toList.Perm details'.toList
  | l, l' => l = l'

theorem StructLayout.agrees_refl (l : StructLayout) : l.Agrees l := by
  cases l with
  | map details => exact List.Perm.refl _
  | _ => rfl

/-- Whether two union representations are equal, members compared by name. -/
def UnionLayout.Agrees (nameOf nameOf' : TypeId → TypeName) : UnionLayout → UnionLayout → Prop
  | .keyed s, .keyed t => s.mapValues nameOf = t.mapValues nameOf'
  | .kinded s, .kinded t => s.mapValues nameOf = t.mapValues nameOf'
  | .envelope k c s, .envelope k' c' t =>
      k = k' ∧ c = c' ∧ s.mapValues nameOf = t.mapValues nameOf'
  | .inline k s, .inline k' t => k = k' ∧ s.mapValues nameOf = t.mapValues nameOf'
  | .stringPrefix s, .stringPrefix t => s.mapValues nameOf = t.mapValues nameOf'
  | .bytePrefix s, .bytePrefix t =>
      s.toList.map (Prod.map nameOf id) = t.toList.map (Prod.map nameOf' id)
  | _, _ => False

/-- Whether two contents are equal, types referred to compared by name, and the members of a union
in whatever order.  `sameTarget` compares the targets of links. -/
def Body.Agrees (sameTarget : Option TypeName → Option TypeName → Prop)
    (nameOf nameOf' : TypeId → TypeName) : Body → Body → Prop
  | .link target, .link target' => sameTarget (target.map nameOf) (target'.map nameOf')
  | .map key value nullable layout, .map key' value' nullable' layout' =>
      nameOf key = nameOf' key' ∧ nameOf value = nameOf' value' ∧ nullable = nullable' ∧
        layout = layout'
  | .list value nullable, .list value' nullable' =>
      nameOf value = nameOf' value' ∧ nullable = nullable'
  | .struct fields layout, .struct fields' layout' =>
      fields.map (StructField.shown nameOf) = fields'.map (StructField.shown nameOf') ∧
        layout.Agrees layout'
  | .union members layout, .union members' layout' =>
      (members.map nameOf).Perm (members'.map nameOf') ∧ layout.Agrees nameOf nameOf' layout'
  | b, b' => b = b'

/-- The targets of links that are written alike: a link to any type is written like one to a type
of the name `Any`. -/
def SameTarget (target target' : Option TypeName) : Prop :=
  target.getD "Any" = target'.getD "Any"

/-! ## Contents whose text says what they are -/

/-- The values that are assumed for absent fields. -/
def StructLayout.implicits : StructLayout → List ImplicitValue
  | .map details => details.values.filterMap FieldDetails.implicit
  | _ => []

/-- Whether the names that a content gives are words, and no double is assumed for an absent
field. -/
def Body.IsPlain : Body → Prop
  | .struct fields layout => (∀ f ∈ fields, IsWord f.name) ∧ ∀ v ∈ layout.implicits, ¬ v.IsFloat
  | .enum members _ => ∀ m ∈ members, IsWord m
  | _ => True

instance : DecidablePred Body.IsPlain
  | .struct _ _ => inferInstanceAs (Decidable (_ ∧ _))
  | .enum members _ => inferInstanceAs (Decidable (∀ m ∈ members, IsWord m))
  | .bool | .string | .bytes | .int | .float | .link _ | .map .. | .list .. | .union .. =>
      .isTrue trivial

/-- Whether the representation of a content speaks of its own fields and members only, and of
every member of an enum. -/
def Body.IsTidy : Body → Prop
  | .struct fields (.map details) => details.keys ⊆ fields.map StructField.name
  | .union members layout => members.Nodup ∧ layout.positions ⊆ members
  | .enum members layout => layout.keys = members
  | _ => True

/-- What a content has to be like for its text to say what it is. -/
structure Body.IsLegible (nameOf : TypeId → TypeName) (b : Body) : Prop where
  /-- The types referred to have words for names. -/
  word : ∀ id ∈ b.positions, IsWord (nameOf id)
  /-- Different types have different names. -/
  distinct : ∀ i ∈ b.positions, ∀ j ∈ b.positions, nameOf i = nameOf j → i = j
  plain : b.IsPlain
  tidy : b.IsTidy

/-! ## Lines -/

theorem bracedLines_append_inj {ls ls' : List String} {r r' : String}
    (hls : ∀ l ∈ ls, '\n' ∉ l.toList) (hls' : ∀ l ∈ ls', '\n' ∉ l.toList)
    (h : bracedLines ls ++ r = bracedLines ls' ++ r') : ls = ls' ∧ r = r' := by
  have hbrace : ∀ u : String, ("\x7d" ++ u).toList.head? ≠ some '\t' := by simp
  rw [bracedLines, bracedLines, String.append_assoc, String.append_assoc, String.append_assoc,
    String.append_assoc, String.append_right_inj] at h
  obtain ⟨rfl, hrest⟩ := lines_append_inj (hbrace r) (hbrace r') hls hls' h
  exact ⟨rfl, (String.append_right_inj _).1 hrest⟩

/-! ## Structs -/

/-- The line of a field, with what stands behind it for its details. -/
def StructField.line (nameOf : TypeId → TypeName) (clause : String) (f : StructField) : String :=
  f.name ++ (spaced (flagWords f.optional f.nullable (nameOf f.type)) ++ clause)

theorem Body.inLanguage_struct (nameOf : TypeId → TypeName) (fields : List StructField)
    (layout : StructLayout) :
    (Body.struct fields layout).inLanguage nameOf =
      "struct " ++ (bracedLines (fields.map fun f => f.line nameOf (layout.fieldClause f.name)) ++
        (" representation " ++ layout.words (fields.map StructField.name))) := by
  have hline : ∀ f : StructField, f.name ++ " " ++ (if f.optional then "optional " else "") ++
      nullableWord f.nullable ++ nameOf f.type ++ layout.fieldClause f.name =
      f.line nameOf (layout.fieldClause f.name) := by
    intro f
    rw [StructField.line, spaced_flagWords_append]
    simp only [String.append_assoc]
  unfold inLanguage
  simp only [hline]
  simp only [String.append_assoc]

/-- The line of a field says what the field is and what stands behind it. -/
theorem StructField.line_inj {f g : StructField} {r r' : String} (hf : IsWord f.name)
    (hg : IsWord g.name) (htype : IsWord (nameOf f.type)) (htype' : IsWord (nameOf' g.type))
    (hr : EndsRow r) (hr' : EndsRow r') (h : f.line nameOf r = g.line nameOf' r') :
    f.shown nameOf = g.shown nameOf' ∧ r = r' := by
  obtain ⟨hname, hrest⟩ :=
    word_append_inj hf hg (endsWord_spaced_append _ hr) (endsWord_spaced_append _ hr') h
  obtain ⟨hwords, rfl⟩ :=
    spaced_append_inj (isWord_flagWords htype) (isWord_flagWords htype') hr hr' hrest
  obtain ⟨hoptional, hnullable, hname'⟩ := flagWords_inj hwords
  exact ⟨by rw [shown, shown, hname, hname', hoptional, hnullable], rfl⟩

theorem StructField.newline_notMem_line {f : StructField} {r : String} (hf : IsWord f.name)
    (htype : IsWord (nameOf f.type)) (hr : '\n' ∉ r.toList) : '\n' ∉ (f.line nameOf r).toList := by
  have hwords : '\n' ∉ (spaced (flagWords f.optional f.nullable (nameOf f.type))).toList := by
    rw [spaced, String.toList_join, List.mem_flatMap]
    rintro ⟨w, hw, hmem⟩
    obtain ⟨v, hv, rfl⟩ := List.mem_map.1 hw
    rw [String.toList_append, List.mem_append] at hmem
    rcases hmem with hmem | hmem
    · exact absurd hmem (by decide)
    · exact (isWord_flagWords htype v hv).newline_notMem hmem
  simp only [line, String.toList_append, List.mem_append, not_or]
  exact ⟨hf.newline_notMem, hwords, hr⟩

namespace StructLayout

variable {details details' : Table FieldName FieldDetails}

theorem mem_implicits {field : FieldName} {d : FieldDetails} (h : details.get? field = some d)
    {v : ImplicitValue} (hv : v ∈ d.implicit) : v ∈ (map details).implicits :=
  List.mem_filterMap.2 ⟨d, List.mem_map_of_mem (Table.mem_toList_of_get? h), hv⟩

theorem newline_notMem_fieldClause {l : StructLayout} (hl : ∀ v ∈ l.implicits, ¬ v.IsFloat)
    (field : FieldName) : '\n' ∉ (l.fieldClause field).toList := by
  cases l with
  | map details =>
    rw [fieldClause]
    split
    · next d hd =>
      exact FieldDetails.newline_notMem_clause fun v hv => hl v (mem_implicits hd hv)
    · decide
  | _ => exact (by decide : '\n' ∉ "".toList)

/-- What stands behind a field says what its details are, if none of them is a double. -/
theorem get?_eq_of_fieldClause (hd : ∀ v ∈ (map details).implicits, ¬ v.IsFloat)
    (hd' : ∀ v ∈ (map details').implicits, ¬ v.IsFloat) {field : FieldName}
    (h : (map details).fieldClause field = (map details').fieldClause field) :
    details.get? field = details'.get? field := by
  simp only [fieldClause] at h
  cases hget : details.get? field with
  | none =>
    cases hget' : details'.get? field with
    | none => rfl
    | some d => simp [hget, hget', FieldDetails.clause_eq, ← String.toList_inj] at h
  | some d =>
    cases hget' : details'.get? field with
    | none => simp [hget, hget', FieldDetails.clause_eq, ← String.toList_inj] at h
    | some d' =>
      rw [hget, hget'] at h
      rw [FieldDetails.clause_inj (fun v hv => hd v (mem_implicits hget hv))
        (fun v hv => hd' v (mem_implicits hget' hv)) h]

end StructLayout

/-- Tables with the same entries are rearrangements of each other. -/
theorem Table.perm_of_get? {κ ν : Type} [DecidableEq κ] {s t : Table κ ν} {keys : List κ}
    (hs : s.keys ⊆ keys) (ht : t.keys ⊆ keys) (h : ∀ key ∈ keys, s.get? key = t.get? key) :
    s.toList.Perm t.toList := by
  refine (List.perm_ext_iff_of_nodup s.nodup.of_map t.nodup.of_map).2 fun e => ?_
  rw [← get?_eq_some_iff, ← get?_eq_some_iff]
  refine ⟨fun he => ?_, fun he => ?_⟩
  · rwa [← h e.1 (hs (List.mem_map_of_mem (mem_toList_of_get? he)))]
  · rwa [h e.1 (ht (List.mem_map_of_mem (mem_toList_of_get? he)))]

/-- Two structs are shown alike only if they agree. -/
theorem Body.IsLegible.agrees_struct {fields fields' : List StructField}
    {layout layout' : StructLayout} {sameTarget : Option TypeName → Option TypeName → Prop}
    (h : (Body.struct fields layout).IsLegible nameOf)
    (h' : (Body.struct fields' layout').IsLegible nameOf')
    (heq : (Body.struct fields layout).inLanguage nameOf =
      (Body.struct fields' layout').inLanguage nameOf') :
    (Body.struct fields layout).Agrees sameTarget nameOf nameOf' (.struct fields' layout') := by
  have hword : ∀ f ∈ fields, IsWord (nameOf f.type) := fun f hf =>
    h.word f.type (List.mem_map_of_mem hf)
  have hword' : ∀ f ∈ fields', IsWord (nameOf' f.type) := fun f hf =>
    h'.word f.type (List.mem_map_of_mem hf)
  obtain ⟨hnames, hfloats⟩ := h.plain
  obtain ⟨hnames', hfloats'⟩ := h'.plain
  rw [inLanguage_struct, inLanguage_struct, String.append_right_inj] at heq
  obtain ⟨hlines, hwords⟩ := bracedLines_append_inj
    (List.forall_mem_map.2 fun f hf => StructField.newline_notMem_line (hnames f hf) (hword f hf)
      (StructLayout.newline_notMem_fieldClause hfloats _))
    (List.forall_mem_map.2 fun f hf => StructField.newline_notMem_line (hnames' f hf) (hword' f hf)
      (StructLayout.newline_notMem_fieldClause hfloats' _)) heq
  have hread : ∀ f ∈ fields, ∀ g ∈ fields',
      f.line nameOf (layout.fieldClause f.name) = g.line nameOf' (layout'.fieldClause g.name) →
        f.shown nameOf = g.shown nameOf' ∧
          layout.fieldClause f.name = layout'.fieldClause g.name := fun f hf g hg =>
    StructField.line_inj (hnames f hf) (hnames' g hg) (hword f hf) (hword' g hg)
      (layout.endsRow_fieldClause _) (layout'.endsRow_fieldClause _)
  have hshown : fields.map (StructField.shown nameOf) = fields'.map (StructField.shown nameOf') :=
    map_eq_map_of_imp (fun f hf g hg hline => (hread f hf g hg hline).1) hlines
  have hdeclared : fields.map StructField.name = fields'.map StructField.name := by
    have hfirst := congrArg (List.map Prod.fst) hshown
    rwa [List.map_map, List.map_map] at hfirst
  have hclauses : ∀ name ∈ fields.map StructField.name,
      layout.fieldClause name = layout'.fieldClause name := by
    have hmaps : (fields.map StructField.name).map layout.fieldClause =
        (fields'.map StructField.name).map layout'.fieldClause := by
      rw [List.map_map, List.map_map]
      exact map_eq_map_of_imp (fun f hf g hg hline => (hread f hf g hg hline).2) hlines
    rwa [← hdeclared, List.map_inj_left] at hmaps
  -- only now that the fields are known, a field order that is left out is the same on both sides
  rw [String.append_right_inj, hdeclared] at hwords
  refine ⟨hshown, ?_⟩
  rcases StructLayout.words_inj hwords with ⟨details, details', rfl, rfl⟩ | rfl
  · have hkeys : details'.keys ⊆ fields.map StructField.name := hdeclared ▸ h'.tidy
    exact Table.perm_of_get? h.tidy hkeys fun name hname =>
      StructLayout.get?_eq_of_fieldClause hfloats hfloats' (hclauses name hname)
  · exact layout.agrees_refl

/-! ## Unions -/

namespace UnionLayout

theorem isWord_name (l : UnionLayout) : IsWord l.name := by
  cases l <;> (rw [name]; decide)

theorem endsWord_block (l : UnionLayout) : EndsWord l.block := by
  unfold block
  split
  · simp only [String.append_assoc]
    exact endsWord_append (by decide) (by decide) _
  · rw [String.append_assoc]
    exact endsWord_append (by decide) (by decide) _
  · decide

theorem map_fst_labelled (l : UnionLayout) : l.labelled.map Prod.fst = l.positions := by
  cases l <;> (rw [labelled, List.map_map]; rfl)

theorem newline_notMem_label {l : UnionLayout} {m : TypeId × String} (hm : m ∈ l.labelled) :
    '\n' ∉ m.2.toList := by
  cases l with
  | kinded table =>
    have hkind : ∀ k : Kind, '\n' ∉ k.name.toList := by
      intro k
      cases k <;> decide
    obtain ⟨e, -, rfl⟩ := List.mem_map.1 hm
    exact hkind e.1
  | bytePrefix table =>
    obtain ⟨e, -, rfl⟩ := List.mem_map.1 hm
    exact fun h => absurd (Nat.isDigit_of_mem_toDigits (by decide) (by decide)
      (Nat.toList_repr ▸ h)) (by decide)
  | _ =>
    obtain ⟨e, -, rfl⟩ := List.mem_map.1 hm
    simp

end UnionLayout

/-- A table is known from the labels and names of its entries, if labels tell keys apart. -/
theorem Table.mapValues_eq_of_labels {κ : Type} {label : κ → String}
    (hlabel : ∀ {k k' : κ}, label k = label k' → k = k') {s t : Table κ TypeId}
    (h : (s.toList.map fun e => (e.2, label e.1)).map (Prod.map nameOf id) =
      (t.toList.map fun e => (e.2, label e.1)).map (Prod.map nameOf' id)) :
    s.mapValues nameOf = t.mapValues nameOf' := by
  rw [List.map_map, List.map_map] at h
  refine ext_toList (map_eq_map_of_imp (fun e _ f _ hef => ?_) h)
  obtain ⟨hname, hkey⟩ := Prod.mk.inj hef
  exact Prod.ext (hlabel hkey) hname

/-- The representation of a union is known from its name, its keys, and the labels of its
members. -/
theorem UnionLayout.agrees_of_labelled {l l' : UnionLayout} (hname : l.name = l'.name)
    (hblock : l.block = l'.block)
    (hlabelled : l.labelled.map (Prod.map nameOf id) = l'.labelled.map (Prod.map nameOf' id)) :
    l.Agrees nameOf nameOf' l' := by
  cases l <;> cases l' <;> simp only [name, String.reduceEq] at hname
  case keyed.keyed | stringPrefix.stringPrefix =>
    exact Table.mapValues_eq_of_labels quoted_injective hlabelled
  case kinded.kinded => exact Table.mapValues_eq_of_labels Kind.name_injective hlabelled
  case envelope.envelope =>
    unfold block at hblock
    simp only [String.append_assoc, String.append_right_inj] at hblock
    obtain ⟨hdiscriminant, hrest⟩ := quoted_append_inj hblock
    rw [String.append_right_inj] at hrest
    obtain ⟨hcontent, -⟩ := quoted_append_inj hrest
    exact ⟨hdiscriminant, hcontent, Table.mapValues_eq_of_labels quoted_injective hlabelled⟩
  case inline.inline =>
    unfold block at hblock
    simp only [String.append_assoc, String.append_right_inj] at hblock
    obtain ⟨hdiscriminant, -⟩ := quoted_append_inj hblock
    exact ⟨hdiscriminant, Table.mapValues_eq_of_labels quoted_injective hlabelled⟩
  case bytePrefix.bytePrefix table table' =>
    rw [labelled, labelled, List.map_map, List.map_map] at hlabelled
    refine map_eq_map_of_imp (fun e _ f _ hef => ?_) hlabelled
    obtain ⟨hname, hbyte⟩ := Prod.mk.inj hef
    have hnat : e.2.toNat = f.2.toNat := repr_injective hbyte
    exact Prod.ext hname (UInt8.toNat_inj.1 hnat)

/-- What the lines of a union say: the members with labels, then the others. -/
def UnionLayout.rows (nameOf : TypeId → TypeName) (members : List TypeId) (l : UnionLayout) :
    List (TypeName × Option String) :=
  l.labelled.map (fun m => (nameOf m.1, some m.2)) ++
    (members.filter fun id => !l.positions.contains id).map fun id => (nameOf id, none)

/-- The line of a member. -/
def memberLine (row : TypeName × Option String) : String :=
  "| " ++ (row.1 ++
    match row.2 with
    | some label => " " ++ label
    | none => "")

theorem Body.inLanguage_union (nameOf : TypeId → TypeName) (members : List TypeId)
    (layout : UnionLayout) :
    (Body.union members layout).inLanguage nameOf =
      "union " ++ (bracedLines ((layout.rows nameOf members).map memberLine) ++
        (" representation " ++ (layout.name ++ layout.block))) := by
  have hlines : (layout.rows nameOf members).map memberLine =
      layout.labelled.map (fun m => "| " ++ nameOf m.1 ++ " " ++ m.2) ++
        (members.filter fun id => !(layout.labelled.map Prod.fst).contains id).map
          fun id => "| " ++ nameOf id := by
    rw [UnionLayout.rows, List.map_append, List.map_map, List.map_map, UnionLayout.map_fst_labelled]
    simp [Function.comp_def, memberLine, String.append_assoc]
  unfold inLanguage
  rw [hlines]
  simp only [String.append_assoc]

theorem memberLine_inj {row row' : TypeName × Option String} (h : IsWord row.1)
    (h' : IsWord row'.1) (heq : memberLine row = memberLine row') : row = row' := by
  have hends : ∀ label : Option String, EndsWord
      (match label with
        | some label => " " ++ label
        | none => "") := by
    intro label
    cases label with
    | none => decide
    | some label => exact endsWord_append (by decide) (by decide) _
  obtain ⟨name, label⟩ := row
  obtain ⟨name', label'⟩ := row'
  rw [memberLine, memberLine, String.append_right_inj] at heq
  obtain ⟨hname, hlabel⟩ := word_append_inj h h' (hends label) (hends label') heq
  refine Prod.ext hname ?_
  match label, label' with
  | some label, some label' => rw [(String.append_right_inj _).1 hlabel]
  | none, none => rfl
  | some label, none | none, some label => simp [← String.toList_inj] at hlabel

namespace UnionLayout

variable {members : List TypeId} {l : UnionLayout}

theorem mem_rows {row : TypeName × Option String} (h : row ∈ l.rows nameOf members)
    (hl : l.positions ⊆ members) :
    (∃ id ∈ members, row.1 = nameOf id) ∧ ∀ label ∈ row.2, '\n' ∉ label.toList := by
  rcases List.mem_append.1 h with h | h
  · obtain ⟨m, hm, rfl⟩ := List.mem_map.1 h
    refine ⟨⟨m.1, hl ?_, rfl⟩, ?_⟩
    · rw [← map_fst_labelled]
      exact List.mem_map_of_mem hm
    · rintro _ ⟨⟩
      exact newline_notMem_label hm
  · obtain ⟨id, hid, rfl⟩ := List.mem_map.1 h
    refine ⟨⟨id, List.mem_of_mem_filter hid, rfl⟩, ?_⟩
    rintro _ ⟨⟩

theorem newline_notMem_memberLine {row : TypeName × Option String}
    (h : row ∈ l.rows nameOf members) (hl : l.positions ⊆ members)
    (hword : ∀ id ∈ members, IsWord (nameOf id)) : '\n' ∉ (memberLine row).toList := by
  obtain ⟨⟨id, hid, hname⟩, hlabel⟩ := mem_rows h hl
  have hrow : '\n' ∉ row.1.toList := by
    rw [hname]
    exact (hword id hid).newline_notMem
  rw [memberLine]
  cases hrest : row.2 with
  | none => simp [hrow]
  | some label => simp [hrow, hlabel label hrest]

/-- The rows with labels are those of the discriminant table. -/
theorem filterMap_rows (members : List TypeId) (l : UnionLayout) :
    (l.rows nameOf members).filterMap (fun row => row.2.map fun label => (row.1, label)) =
      l.labelled.map (Prod.map nameOf id) := by
  rw [rows, List.filterMap_append, List.filterMap_map, List.filterMap_map]
  simp

/-- Every member has a row, and there are no others. -/
theorem mem_map_fst_rows (hl : l.positions ⊆ members) {name : TypeName} :
    name ∈ (l.rows nameOf members).map Prod.fst ↔ name ∈ members.map nameOf := by
  refine ⟨fun h => ?_, fun h => ?_⟩
  · obtain ⟨row, hrow, rfl⟩ := List.mem_map.1 h
    obtain ⟨⟨id, hid, hname⟩, -⟩ := mem_rows hrow hl
    exact List.mem_map.2 ⟨id, hid, hname.symm⟩
  · obtain ⟨id, hid, rfl⟩ := List.mem_map.1 h
    rw [rows, List.map_append, List.mem_append]
    by_cases hlabelled : id ∈ l.positions
    · rw [← map_fst_labelled] at hlabelled
      obtain ⟨m, hm, rfl⟩ := List.mem_map.1 hlabelled
      exact Or.inl (List.mem_map_of_mem (f := Prod.fst) (List.mem_map_of_mem hm))
    · refine Or.inr (List.mem_map_of_mem (f := Prod.fst) (List.mem_map_of_mem ?_))
      exact List.mem_filter.2 ⟨hid, by simpa using hlabelled⟩

end UnionLayout

/-- Two unions are shown alike only if they agree. -/
theorem Body.IsLegible.agrees_union {members members' : List TypeId}
    {layout layout' : UnionLayout} {sameTarget : Option TypeName → Option TypeName → Prop}
    (h : (Body.union members layout).IsLegible nameOf)
    (h' : (Body.union members' layout').IsLegible nameOf')
    (heq : (Body.union members layout).inLanguage nameOf =
      (Body.union members' layout').inLanguage nameOf') :
    (Body.union members layout).Agrees sameTarget nameOf nameOf' (.union members' layout') := by
  obtain ⟨hnodup, hl⟩ := h.tidy
  obtain ⟨hnodup', hl'⟩ := h'.tidy
  have hword : ∀ id ∈ members, IsWord (nameOf id) := fun id hid =>
    h.word id (List.mem_append_left _ hid)
  have hword' : ∀ id ∈ members', IsWord (nameOf' id) := fun id hid =>
    h'.word id (List.mem_append_left _ hid)
  rw [inLanguage_union, inLanguage_union, String.append_right_inj] at heq
  obtain ⟨hlines, hrest⟩ := bracedLines_append_inj
    (List.forall_mem_map.2 fun row hrow => UnionLayout.newline_notMem_memberLine hrow hl hword)
    (List.forall_mem_map.2 fun row hrow => UnionLayout.newline_notMem_memberLine hrow hl' hword')
    heq
  -- the rows hold the discriminant table and the set of the members, but not their order
  have hrows : layout.rows nameOf members = layout'.rows nameOf' members' := by
    refine eq_of_map_eq_map (fun row hrow row' hrow' hline => ?_) hlines
    obtain ⟨⟨id, hid, hname⟩, -⟩ := UnionLayout.mem_rows hrow hl
    obtain ⟨⟨id', hid', hname'⟩, -⟩ := UnionLayout.mem_rows hrow' hl'
    exact memberLine_inj (hname ▸ hword id hid) (hname' ▸ hword' id' hid') hline
  obtain ⟨hname, hblock⟩ := word_append_inj layout.isWord_name layout'.isWord_name
    layout.endsWord_block layout'.endsWord_block ((String.append_right_inj _).1 hrest)
  refine ⟨?_, UnionLayout.agrees_of_labelled hname hblock ?_⟩
  · have hnames : (members.map nameOf).Nodup := List.Nodup.map_on
      (fun i hi j hj => h.distinct i (List.mem_append_left _ hi) j (List.mem_append_left _ hj))
      hnodup
    have hnames' : (members'.map nameOf').Nodup := List.Nodup.map_on
      (fun i hi j hj => h'.distinct i (List.mem_append_left _ hi) j (List.mem_append_left _ hj))
      hnodup'
    refine (List.perm_ext_iff_of_nodup hnames hnames').2 fun name => ?_
    rw [← UnionLayout.mem_map_fst_rows hl, hrows, UnionLayout.mem_map_fst_rows hl']
  · rw [← UnionLayout.filterMap_rows members, hrows, UnionLayout.filterMap_rows]

/-! ## Enums -/

theorem Body.inLanguage_enum (nameOf : TypeId → TypeName) (members : List String)
    (layout : EnumLayout) :
    (Body.enum members layout).inLanguage nameOf =
      "enum " ++ (bracedLines (members.map fun m => "| " ++ (m ++ layout.memberClause m)) ++
        (" representation " ++ layout.word)) := by
  unfold inLanguage
  simp only [String.append_assoc]

/-- Two enums are shown alike only if they are equal. -/
theorem Body.IsLegible.eq_of_enum {members members' : List String} {layout layout' : EnumLayout}
    (h : (Body.enum members layout).IsLegible nameOf)
    (h' : (Body.enum members' layout').IsLegible nameOf')
    (heq : (Body.enum members layout).inLanguage nameOf =
      (Body.enum members' layout').inLanguage nameOf') :
    Body.enum members layout = Body.enum members' layout' := by
  have hword : ∀ m ∈ members, IsWord m := h.plain
  have hword' : ∀ m ∈ members', IsWord m := h'.plain
  have hkeys : layout.keys = members := h.tidy
  have hkeys' : layout'.keys = members' := h'.tidy
  have hline : ∀ {l : EnumLayout} {m : String}, IsWord m → m ∈ l.keys →
      '\n' ∉ ("| " ++ (m ++ l.memberClause m)).toList := fun hm hmem => by
    simp [hm.newline_notMem, (EnumLayout.memberClause_on_line hmem).2]
  rw [inLanguage_enum, inLanguage_enum, String.append_right_inj] at heq
  obtain ⟨hlines, hrest⟩ := bracedLines_append_inj
    (List.forall_mem_map.2 fun m hm => hline (hword m hm) (hkeys ▸ hm))
    (List.forall_mem_map.2 fun m hm => hline (hword' m hm) (hkeys' ▸ hm)) heq
  have hread : ∀ m ∈ members, ∀ n ∈ members',
      "| " ++ (m ++ layout.memberClause m) = "| " ++ (n ++ layout'.memberClause n) →
        m = n ∧ layout.memberClause m = layout'.memberClause n := fun m hm n hn hmn =>
    word_append_inj (hword m hm) (hword' n hn)
      (EnumLayout.memberClause_on_line (hkeys ▸ hm)).1
      (EnumLayout.memberClause_on_line (hkeys' ▸ hn)).1 ((String.append_right_inj _).1 hmn)
  obtain rfl : members = members' :=
    eq_of_map_eq_map (fun m hm n hn hmn => (hread m hm n hn hmn).1) hlines
  have hclauses : ∀ m ∈ members, layout.memberClause m = layout'.memberClause m := by
    rw [← List.map_inj_left]
    exact map_eq_map_of_imp (fun m hm n hn hmn => (hread m hm n hn hmn).2) hlines
  rw [EnumLayout.eq_of_clauses ((String.append_right_inj _).1 hrest) (hkeys.trans hkeys'.symm)
    (hkeys ▸ hclauses)]

/-! ## Links, lists and maps -/

theorem Body.inLanguage_link (nameOf : TypeId → TypeName) (target : Option TypeId) :
    (Body.link target).inLanguage nameOf = "&" ++ (target.map nameOf).getD "Any" := by
  unfold inLanguage
  cases target <;> rfl

theorem Body.inLanguage_list (nameOf : TypeId → TypeName) (value : TypeId) (nullable : Bool) :
    (Body.list value nullable).inLanguage nameOf =
      "[" ++ (nullableWord nullable ++ (nameOf value ++ "]")) := by
  unfold inLanguage
  simp only [String.append_assoc]

theorem Body.inLanguage_map (nameOf : TypeId → TypeName) (key value : TypeId) (nullable : Bool)
    (layout : MapRepresentation) :
    (Body.map key value nullable layout).inLanguage nameOf =
      "\x7b" ++ (nameOf key ++ (":" ++ (nullableWord nullable ++ (nameOf value ++
        ("\x7d" ++ layout.words))))) := by
  unfold inLanguage MapRepresentation.words
  cases layout <;> simp only [String.append_assoc]

/-! ## All contents -/

/-- The sort of a content, by the first characters of its text. -/
def readKind : List Char → TypeKind
  | '&' :: _ => .link
  | '[' :: _ => .list
  | '\x7b' :: _ => .map
  | 'b' :: 'o' :: _ => .bool
  | 'b' :: _ => .bytes
  | 's' :: 't' :: 'r' :: 'i' :: _ => .string
  | 's' :: _ => .struct
  | 'i' :: _ => .int
  | 'f' :: _ => .float
  | 'u' :: _ => .union
  | _ => .enum

theorem Body.readKind_inLanguage (nameOf : TypeId → TypeName) (b : Body) :
    readKind (b.inLanguage nameOf).toList = b.kind := by
  cases b with
  | link target => rw [inLanguage_link, String.toList_append]; rfl
  | list value nullable => rw [inLanguage_list, String.toList_append]; rfl
  | map key value nullable layout => rw [inLanguage_map, String.toList_append]; rfl
  | struct fields layout => rw [inLanguage_struct, String.toList_append]; rfl
  | union members layout => rw [inLanguage_union, String.toList_append]; rfl
  | enum members layout => rw [inLanguage_enum, String.toList_append]; rfl
  | bool => exact (by decide : readKind "bool".toList = .bool)
  | string => exact (by decide : readKind "string".toList = .string)
  | bytes => exact (by decide : readKind "bytes".toList = .bytes)
  | int => exact (by decide : readKind "int".toList = .int)
  | float => exact (by decide : readKind "float".toList = .float)

/-- Contents that are shown alike are of one sort. -/
theorem Body.kind_eq_of_inLanguage {b b' : Body}
    (h : b.inLanguage nameOf = b'.inLanguage nameOf') : b.kind = b'.kind := by
  rw [← b.readKind_inLanguage nameOf, h, b'.readKind_inLanguage nameOf']

/-- **Contents that are shown alike agree.** -/
theorem Body.IsLegible.agrees {b b' : Body} (h : b.IsLegible nameOf) (h' : b'.IsLegible nameOf')
    (heq : b.inLanguage nameOf = b'.inLanguage nameOf') :
    b.Agrees SameTarget nameOf nameOf' b' := by
  have hkind := kind_eq_of_inLanguage heq
  cases b <;> cases b' <;> simp only [Body.kind, reduceCtorEq] at hkind
  case link.link target target' =>
    rw [inLanguage_link, inLanguage_link, String.append_right_inj] at heq
    exact heq
  case map.map key value n layout key' value' n' layout' =>
    have hcolon : ∀ u, EndsWord (":" ++ u) := endsWord_append (by decide) (by decide)
    have hbrace : ∀ u, EndsRow ("\x7d" ++ u) := endsRow_append (by decide) (by decide) (by decide)
    rw [inLanguage_map, inLanguage_map, String.append_right_inj] at heq
    obtain ⟨hkey, hrest⟩ := word_append_inj (h.word key (List.mem_cons_self ..))
      (h'.word key' (List.mem_cons_self ..)) (hcolon _) (hcolon _) heq
    obtain ⟨hnullable, hvalue, hlayout⟩ := value_append_inj
      (h.word value (List.mem_cons_of_mem _ (List.mem_singleton_self _)))
      (h'.word value' (List.mem_cons_of_mem _ (List.mem_singleton_self _))) (hbrace _) (hbrace _)
      ((String.append_right_inj _).1 hrest)
    exact ⟨hkey, hvalue, hnullable,
      MapRepresentation.words_inj ((String.append_right_inj _).1 hlayout)⟩
  case list.list value n value' n' =>
    have hbracket : EndsRow "]" := by
      simpa using endsRow_append (s := "]") (by decide) (by decide) (by decide) ""
    rw [inLanguage_list, inLanguage_list, String.append_right_inj] at heq
    obtain ⟨hnullable, hvalue, -⟩ := value_append_inj (h.word value (List.mem_singleton_self _))
      (h'.word value' (List.mem_singleton_self _)) hbracket hbracket heq
    exact ⟨hvalue, hnullable⟩
  case struct.struct => exact h.agrees_struct h' heq
  case union.union => exact h.agrees_union h' heq
  case enum.enum => exact h.eq_of_enum h' heq
  all_goals rfl

end WireSchema
