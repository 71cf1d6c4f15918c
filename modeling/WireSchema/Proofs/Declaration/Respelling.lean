import Mathlib.Logic.Relation
import WireSchema.Proofs.Declaration.Canonical
import WireSchema.Proofs.Declaration.Contained

/-!
# Spellings of a definition

Two definitions are spellings of each other if one comes from the other by adding and leaving out
redundant entries, one at a time and anywhere in it (`Definition.Respells`).  This says what is
redundant entry by entry (`Definition.Trims`), and nothing about the order in which entries are
left out or about what is left in the end.  The canonical form leaves out all of them at once,
by a test that counts in the table it is about to shorten.

## Why one at a time is enough

An entry is redundant only if no other entry has its key, so leaving it out does not change how
often any other key occurs.  What is redundant beside it stays so, and nothing else becomes
redundant: the test keeps the same entries of the shorter table as of the longer one
(`OmitsOne.filter_keepsEntry`).  The same fact gives both directions.  A step does not change the
canonical form, and since a table with anything redundant in it has a step, steps lead to the
table that the test keeps (`reflTransGen_omitsOne`).

The canonical form is therefore a normal form: two definitions are spellings of each other exactly
if it is the same for both (`Definition.respells_iff_canonical_eq`).
-/

namespace WireSchema

/-! ## Tables with one entry less -/

section OmitsOne

variable {κ ν : Type}

/-- The second table is the first without one entry, which satisfies `idle`, has a known key and
shares it with no other entry. -/
inductive OmitsOne (idle : κ × ν → Prop) (known : List κ) : List (κ × ν) → List (κ × ν) → Prop
  | intro {before after : List (κ × ν)} {e : κ × ν} (silent : idle e) (declared : e.1 ∈ known)
      (once : e.1 ∉ (before ++ after).map Prod.fst) :
      OmitsOne idle known (before ++ e :: after) (before ++ after)

variable [DecidableEq κ] {idle : κ × ν → Prop} {known : List κ} {tells : κ × ν → Bool}
  (htells : ∀ e, tells e = false ↔ idle e) {es es' : List (κ × ν)}

include htells

/-- Leaving out one redundant entry does not change what the test keeps. -/
theorem OmitsOne.filter_keepsEntry (h : OmitsOne idle known es es') :
    es'.filter (keepsEntry tells known ⟨es'⟩) = es.filter (keepsEntry tells known ⟨es⟩) := by
  obtain ⟨hidle, hknown, honce⟩ := h
  rename_i before after e
  have hcount : ∀ key, ((before ++ e :: after).map Prod.fst).count key =
      ((before ++ after).map Prod.fst).count key + if e.1 = key then 1 else 0 := by
    intro key
    simp only [List.map_append, List.map_cons, List.count_append, List.count_cons, beq_iff_eq]
    omega
  have hdropped : keepsEntry tells known ⟨before ++ e :: after⟩ e = false := by
    have hzero := List.count_eq_zero.2 honce
    simp only [keepsEntry, Entries.occurrences_eq_count, Entries.keys, hcount, hzero, if_true,
      (htells e).2 hidle, List.contains_iff_mem.2 hknown]
    rfl
  have hothers : ∀ f ∈ before ++ after, keepsEntry tells known ⟨before ++ after⟩ f =
      keepsEntry tells known ⟨before ++ e :: after⟩ f := by
    intro f hf
    have hne : e.1 ≠ f.1 := fun heq => honce (heq ▸ List.mem_map_of_mem hf)
    simp only [keepsEntry, Entries.occurrences_eq_count, Entries.keys, hcount, if_neg hne,
      Nat.add_zero]
  rw [List.filter_congr hothers, List.filter_append, List.filter_append,
    List.filter_cons_of_neg (by rw [hdropped]; exact Bool.false_ne_true)]

/-- A table with an entry that the test drops has one that can be left out. -/
theorem exists_omitsOne {e : κ × ν} (he : e ∈ es)
    (hdropped : keepsEntry tells known ⟨es⟩ e = false) :
    ∃ shorter, OmitsOne idle known es shorter ∧ shorter.length < es.length := by
  obtain ⟨⟨hsilent, hknown⟩, hcount⟩ := dropsOnce_keepsEntry tells known ⟨es⟩ e he hdropped
  obtain ⟨before, after, rfl⟩ := List.append_of_mem he
  refine ⟨before ++ after, .intro ((htells e).1 hsilent) hknown fun hmem => ?_, by simp⟩
  have hpos := List.count_pos_iff.2 hmem
  simp only [List.map_append, List.map_cons, List.count_append, List.count_cons_self] at hcount hpos
  omega

/-- Leaving out redundant entries one by one leads to the table that the test keeps. -/
theorem reflTransGen_omitsOne (known : List κ) (es : List (κ × ν)) :
    Relation.ReflTransGen (OmitsOne idle known) es (es.filter (keepsEntry tells known ⟨es⟩)) := by
  -- on the length of the table; the test keeps the same of the shorter one
  induction hlength : es.length using Nat.strongRecOn generalizing es with
  | ind n ih =>
    by_cases hall : ∀ e ∈ es, keepsEntry tells known ⟨es⟩ e = true
    · rw [List.filter_eq_self.2 hall]
    · obtain ⟨e, he, hdropped⟩ : ∃ e ∈ es, keepsEntry tells known ⟨es⟩ e = false := by
        simpa using hall
      obtain ⟨shorter, hstep, hshorter⟩ := exists_omitsOne htells he hdropped
      rw [← hstep.filter_keepsEntry htells]
      exact .head hstep (ih shorter.length (hlength ▸ hshorter) shorter rfl)

end OmitsOne

/-! ## Respelling -/

/-- The second definition is the first without one redundant spelling of its own. -/
inductive Definition.Trims : Definition → Definition → Prop
  /-- Details of a declared field that neither rename it nor assume a value for it. -/
  | details {fields : List Field} {details shorter : List (FieldName × FieldDetails)}
      (omits : OmitsOne (fun e => e.2 = ⟨none, none⟩) (fields.map Field.name) details shorter) :
      Trims (.struct fields (.map (some ⟨details⟩))) (.struct fields (.map (some ⟨shorter⟩)))
  /-- An empty table of details. -/
  | noDetails {fields : List Field} :
      Trims (.struct fields (.map (some ∅))) (.struct fields (.map none))
  /-- The declared order of the fields of a tuple. -/
  | tupleOrder {fields : List Field} (distinct : (fields.map Field.name).Nodup) :
      Trims (.struct fields (.tuple (some (fields.map Field.name)))) (.struct fields (.tuple none))
  /-- The declared order of fields that are joined. -/
  | joinOrder {fields : List Field} {join : String} (distinct : (fields.map Field.name).Nodup) :
      Trims (.struct fields (.stringJoin join (some (fields.map Field.name))))
        (.struct fields (.stringJoin join none))
  /-- A wire string of a member that is the member itself. -/
  | wireString {members : List String} {table shorter : List (String × String)}
      (omits : OmitsOne (fun e => e.2 = e.1) members table shorter) :
      Trims (.enum members (.string ⟨table⟩)) (.enum members (.string ⟨shorter⟩))

/-- The definitions are spellings of each other: the least equivalence that does not see a
redundant spelling, in a definition itself or in one in place at the target of a link, the key or
the value of a map, the value of a list or the type of a field. -/
inductive Definition.Respells : Definition → Definition → Prop
  | refl (d : Definition) : Respells d d
  | symm {d e : Definition} : Respells d e → Respells e d
  | trans {d e f : Definition} : Respells d e → Respells e f → Respells d f
  | trims {d e : Definition} : d.Trims e → Respells d e
  | target {d e : Definition} :
      Respells d e → Respells (.link (some (.inline d))) (.link (some (.inline e)))
  | key {d e : Definition} {value : Reference} {valueNullable : Bool}
      {representation : MapRepresentation} : Respells d e →
      Respells (.map (.inline d) value valueNullable representation)
        (.map (.inline e) value valueNullable representation)
  | value {d e : Definition} {key : Reference} {valueNullable : Bool}
      {representation : MapRepresentation} : Respells d e →
      Respells (.map key (.inline d) valueNullable representation)
        (.map key (.inline e) valueNullable representation)
  | item {d e : Definition} {valueNullable : Bool} : Respells d e →
      Respells (.list (.inline d) valueNullable) (.list (.inline e) valueNullable)
  | field {d e : Definition} {before after : List Field} {name : FieldName}
      {optional nullable : Bool} {representation : StructRepresentation} : Respells d e →
      Respells (.struct (before ++ .mk name (.inline d) optional nullable :: after) representation)
        (.struct (before ++ .mk name (.inline e) optional nullable :: after) representation)

/-! ## Respelling keeps the canonical form -/

theorem canonicalFields_append (before after : List Field) :
    canonicalFields (before ++ after) = canonicalFields before ++ canonicalFields after := by
  induction before with
  | nil => rw [canonicalFields, List.nil_append, List.nil_append]
  | cons f before ih =>
    obtain ⟨name, type, optional, nullable⟩ := f
    rw [List.cons_append, canonicalFields, canonicalFields, ih, List.cons_append]

/-- Details say nothing exactly if they are empty. -/
theorem FieldDetails.not_isVoid_eq_false_iff (e : FieldName × FieldDetails) :
    (!e.2.isVoid) = false ↔ e.2 = ⟨none, none⟩ := by
  obtain ⟨name, rename, implicit⟩ := e
  simp [isVoid]

theorem bne_eq_false_iff_eq_comm (e : String × String) : (e.1 != e.2) = false ↔ e.2 = e.1 := by
  rw [bne_eq_false_iff_eq, eq_comm]

theorem OmitsOne.canonicalDetails_eq {declared : List FieldName}
    {details shorter : List (FieldName × FieldDetails)}
    (h : OmitsOne (fun e => e.2 = ⟨none, none⟩) declared details shorter) :
    canonicalDetails declared ⟨details⟩ = canonicalDetails declared ⟨shorter⟩ := by
  have hkept : shorter.filter (keepsDetails declared ⟨shorter⟩) =
      details.filter (keepsDetails declared ⟨details⟩) :=
    h.filter_keepsEntry FieldDetails.not_isVoid_eq_false_iff
  rcases canonicalDetails_cases declared ⟨details⟩ with ⟨hd, hempty⟩ | ⟨hd, hne⟩ <;>
    rcases canonicalDetails_cases declared ⟨shorter⟩ with ⟨hs, hempty'⟩ | ⟨hs, hne'⟩
  · rw [hd, hs]
  · exact absurd (hkept.trans hempty) hne'
  · exact absurd (hkept.symm.trans hempty') hne
  · rw [hd, hs, hkept]

theorem canonicalOrder_self {declared : List FieldName} (h : declared.Nodup) :
    canonicalOrder declared (some declared) = none := by
  rw [canonicalOrder, if_pos ⟨allDistinct_iff.2 h, rfl⟩]

namespace Definition

theorem Trims.canonical_eq {d e : Definition} (h : d.Trims e) : d.canonical = e.canonical := by
  cases h with
  | details omits =>
    simp only [canonical, StructRepresentation.canonical, Option.bind_some,
      omits.canonicalDetails_eq]
  | noDetails => rfl
  | tupleOrder distinct =>
    simp only [canonical, StructRepresentation.canonical, canonicalOrder_self distinct]
    rfl
  | joinOrder distinct =>
    simp only [canonical, StructRepresentation.canonical, canonicalOrder_self distinct]
    rfl
  | wireString omits =>
    have hkept := omits.filter_keepsEntry bne_eq_false_iff_eq_comm
    simp only [canonical, EnumRepresentation.canonical_string]
    exact congrArg (fun kept => Definition.enum _ (.string ⟨kept⟩)) hkept.symm

theorem Respells.canonical_eq {d e : Definition} (h : d.Respells e) :
    d.canonical = e.canonical := by
  induction h with
  | refl d => rfl
  | symm _ ih => exact ih.symm
  | trans _ _ ih ih' => exact ih.trans ih'
  | trims h => exact h.canonical_eq
  | target _ ih => simp only [canonical, Reference.canonical, ih]
  | key _ ih => simp only [canonical, Reference.canonical, ih]
  | value _ ih => simp only [canonical, Reference.canonical, ih]
  | item _ ih => simp only [canonical, Reference.canonical, ih]
  | field _ ih =>
    simp only [canonical, canonicalFields_append, canonicalFields, Reference.canonical, ih,
      List.map_append, List.map_cons, Field.name]

/-! ## Every definition is a spelling of its canonical form -/

theorem Respells.of_reflTransGen {α : Type} {r : α → α → Prop} {f : α → Definition}
    (step : ∀ x y, r x y → (f x).Respells (f y)) {x y : α} (h : Relation.ReflTransGen r x y) :
    (f x).Respells (f y) := by
  induction h with
  | refl => exact .refl _
  | tail _ hlast ih => exact ih.trans (step _ _ hlast)

/-- A definition with a reference at some position, and the reference in canonical form there. -/
theorem Respells.of_position (position : Reference → Definition) {r : Reference}
    (congr : ∀ d e : Definition, d.Respells e →
      (position (.inline d)).Respells (position (.inline e)))
    (h : ∀ d, r = .inline d → d.Respells d.canonical) :
    (position r).Respells (position r.canonical) := by
  cases r with
  | named name =>
    rw [Reference.canonical]
    exact .refl _
  | inline d =>
    rw [Reference.canonical]
    exact congr d d.canonical (h d rfl)

/-- The fields behind `before` one by one in canonical form. -/
theorem respells_fields (representation : StructRepresentation) (before fields : List Field)
    (h : ∀ d, .inline d ∈ fields.map Field.type → d.Respells d.canonical) :
    (struct (before ++ fields) representation).Respells
      (struct (before ++ canonicalFields fields) representation) := by
  induction fields generalizing before with
  | nil =>
    rw [canonicalFields]
    exact .refl _
  | cons f rest ih =>
    obtain ⟨name, type, optional, nullable⟩ := f
    have hfirst : (struct (before ++ .mk name type optional nullable :: rest)
        representation).Respells
          (struct (before ++ .mk name type.canonical optional nullable :: rest) representation) :=
      .of_position (fun r => struct (before ++ .mk name r optional nullable :: rest) representation)
        (fun _ _ => .field) fun d hd => h d (hd ▸ List.mem_cons_self ..)
    have hrest := ih (before ++ [.mk name type.canonical optional nullable])
      fun d hd => h d (List.mem_cons_of_mem _ hd)
    rw [canonicalFields]
    rw [List.append_assoc, List.append_assoc] at hrest
    exact hfirst.trans hrest

theorem respells_order {fields : List Field} (form : Option (List FieldName) → Definition)
    (trims : (fields.map Field.name).Nodup →
      (form (some (fields.map Field.name))).Trims (form none)) (order : Option (List FieldName)) :
    (form order).Respells (form (canonicalOrder (fields.map Field.name) order)) := by
  cases order with
  | none => exact .refl _
  | some order =>
    rw [canonicalOrder]
    split
    · next h =>
      obtain ⟨hdistinct, rfl⟩ := h
      exact .trims (trims (allDistinct_iff.1 hdistinct))
    · exact .refl _

theorem respells_details (fields : List Field)
    (details : Option (Entries FieldName FieldDetails)) :
    (struct fields (.map details)).Respells
      (struct fields (.map (details.bind (canonicalDetails (fields.map Field.name))))) := by
  cases details with
  | none => exact .refl _
  | some es =>
    have hsteps := reflTransGen_omitsOne FieldDetails.not_isVoid_eq_false_iff
      (fields.map Field.name) es.toList
    have hkept : (struct fields (.map (some es))).Respells (struct fields (.map (some
        ⟨es.toList.filter (keepsDetails (fields.map Field.name) es)⟩))) :=
      .of_reflTransGen (f := fun es => struct fields (.map (some ⟨es⟩)))
        (fun _ _ hstep => .trims (.details hstep)) hsteps
    rw [Option.bind_some]
    rcases canonicalDetails_cases (fields.map Field.name) es with ⟨hnone, hempty⟩ | ⟨hsome, -⟩
    · rw [hnone]
      rw [hempty] at hkept
      exact hkept.trans (.trims .noDetails)
    · rw [hsome]
      exact hkept

theorem respells_structRepresentation (fields : List Field)
    (representation : StructRepresentation) :
    (struct fields representation).Respells
      (struct fields (representation.canonical (fields.map Field.name))) := by
  cases representation with
  | map details => exact respells_details fields details
  | tuple order =>
    exact respells_order (fun order => struct fields (.tuple order)) .tupleOrder order
  | stringJoin join order =>
    exact respells_order (fun order => struct fields (.stringJoin join order)) .joinOrder order
  | stringPairs delimiters => exact .refl _
  | listPairs => exact .refl _

theorem respells_enumRepresentation (members : List String)
    (representation : EnumRepresentation) :
    (enum members representation).Respells (enum members (representation.canonical members)) := by
  cases representation with
  | string table =>
    have hsteps := reflTransGen_omitsOne bne_eq_false_iff_eq_comm members table.toList
    exact .of_reflTransGen (f := fun es => enum members (.string ⟨es⟩))
      (fun _ _ hstep => .trims (.wireString hstep)) hsteps
  | int table => exact .refl _

theorem respells_canonical (d : Definition) : d.Respells d.canonical := by
  induction d using reference_induction with
  | step d ih =>
    cases d with
    | link target =>
      cases target with
      | none => exact .refl _
      | some target =>
        rw [canonical]
        exact .of_position (fun r => link (some r)) (fun _ _ => .target)
          fun d hd => ih d (hd ▸ List.mem_cons_self ..)
    | map key value valueNullable representation =>
      rw [canonical]
      have hkey := Respells.of_position (r := key)
        (fun r => map r value valueNullable representation) (fun _ _ => .key)
        fun d hd => ih d (hd ▸ List.mem_cons_self ..)
      have hvalue := Respells.of_position (r := value)
        (fun r => map key.canonical r valueNullable representation) (fun _ _ => .value)
        fun d hd => ih d (hd ▸ List.mem_cons_of_mem _ (List.mem_cons_self ..))
      exact hkey.trans hvalue
    | list value valueNullable =>
      rw [canonical]
      exact .of_position (fun r => list r valueNullable) (fun _ _ => .item)
        fun d hd => ih d (hd ▸ List.mem_cons_self ..)
    | struct fields representation =>
      rw [canonical]
      have hfields := respells_fields representation [] fields ih
      have hrepresentation :=
        respells_structRepresentation (canonicalFields fields) representation
      rw [map_name_canonicalFields] at hrepresentation
      exact hfields.trans hrepresentation
    | enum members representation =>
      rw [canonical]
      exact respells_enumRepresentation members representation
    | _ => exact .refl _

/-- **The canonical form is a normal form.**  Two definitions are spellings of each other exactly
if they have the same canonical form.  It is a spelling of the definition itself, and the
canonical form of itself. -/
theorem respells_iff_canonical_eq :
    (∀ d e : Definition, d.Respells e ↔ d.canonical = e.canonical) ∧
      (∀ d : Definition, d.Respells d.canonical) ∧
        ∀ d : Definition, d.canonical.canonical = d.canonical := by
  refine ⟨fun d e => ⟨Respells.canonical_eq, fun heq => ?_⟩, respells_canonical,
    canonical_canonical⟩
  have hd : d.Respells e.canonical := heq ▸ respells_canonical d
  exact hd.trans (respells_canonical e).symm

end Definition
end WireSchema
