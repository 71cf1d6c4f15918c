import WireSchema.Proofs.Declaration.Nesting
import WireSchema.Proofs.Json.Yields

/-!
# The text of what a document declares

A document may leave out flags and representations, write records as lists of their members,
and hold keys that name no member.  The text of the schema that it declares writes everything
that is known, and nothing else; so it may be nested deeper than the document.  A definition
that was read with `n` containers left to open is written in at most `n + 2`
(`Reference.Fits`).  To read it takes two containers at least, one for its case and one for its
members, and a representation that was left out is written in two more; nothing else that may
be left out is written in a container.

The numbers in a schema that was read fit in sixty-four bits, since reading checks them.  So
only doubles and the nesting stand between the text of an accepted document and its being read
back (`Schema.ofText_text_iff`).
-/

namespace WireSchema

open Json (Decoder)
open Json.Decoder (ReadsEntry given reads_record1 reads_record2 reads_record4 reads_untagged
  yields_true yields_signed yields_required yields_defaulted yields_absentable
  yields_record1 yields_record2 yields_record3 yields_record4 yields_choice yields_untagged)

/-! ## Implicit values -/

/-- The implicit value in the details of a field, if there is one. -/
def FieldDetails.implicits (d : FieldDetails) : List ImplicitValue :=
  d.implicit.toList

/-- The implicit values in a struct representation. -/
def StructRepresentation.implicits : StructRepresentation → List ImplicitValue
  | .map (some details) => details.values.flatMap FieldDetails.implicits
  | _ => []

/-- The implicit values in a definition, outside of what it contains. -/
def Definition.implicits : Definition → List ImplicitValue
  | .struct _ representation => representation.implicits
  | _ => []

/-- The implicit values in a schema. -/
def Schema.implicits (s : Schema) : List ImplicitValue :=
  (s.types.values ++ s.inlines).flatMap Definition.implicits

/-- Whether no double is among some implicit values. -/
def Doubleless (vs : List ImplicitValue) : Prop :=
  ∀ v ∈ vs, v.kind ≠ .float

/-! ## Reading representations -/

namespace Document

/-- What is read from an object under any keys is read with one container less. -/
theorem yields_entries {α : Type} {d : Decoder α} {P : Nat → α → Prop}
    {Q : Nat → Entries String α → Prop} (h : d.Yields P)
    (hall : ∀ n es, (∀ x ∈ es.values, P n x) → Q (n + 1) es) : (entries d).Yields Q :=
  (h.entries fun n es hes => hall n ⟨es⟩ (List.forall_mem_map.2 hes)).map

theorem yields_numbers :
    (entries .signed).Yields fun _ table => ∀ i ∈ table.values, Json.IsSigned i :=
  yields_entries yields_signed fun _ _ hall => hall

/-- An implicit value is exact, if it is no double. -/
theorem yields_implicitValue :
    implicitValue.Yields fun _ v => v.kind ≠ .float → v.IsExact := by
  refine yields_untagged _ fun n j v _ hv => ?_
  rw [implicitOfTree.eq_def] at hv
  split at hv
  · cases hv
    exact fun _ => trivial
  · split at hv
    · next hfits =>
      cases hv
      exact fun _ => hfits
    · cases hv
      exact fun hfloat => absurd rfl hfloat
  · cases hv
    exact fun hfloat => absurd rfl hfloat
  · cases hv
    exact fun _ => trivial
  · cases hv

theorem yields_fieldDetails :
    fieldDetails.Yields fun _ d => Doubleless d.implicits → d.IsExact := by
  refine yields_record2 (yields_absentable _ (yields_true _))
    (yields_absentable _ yields_implicitValue) ?_
  exact fun n rename implicit _ himplicit hdoubles v hv =>
    himplicit v hv (hdoubles v (Option.mem_toList.2 hv))

/-- A struct representation is nested no deeper than when it is left out, or than it was read,
and exact but for doubles. -/
theorem yields_structRepresentation :
    structRepresentation.Yields fun n r =>
      r.toJson.nesting ≤ n + 2 ∧ (Doubleless r.implicits → r.IsExact) := by
  have hdeep : ∀ (r : StructRepresentation) n, r.toJson.nesting ≤ n + 2 + 2 :=
    fun r n => r.nesting_toJson_le.trans (by omega)
  refine yields_choice _ ?_
  simp only [List.forall_mem_cons, List.not_mem_nil, false_imp_iff, implies_true, and_true]
  refine ⟨?map, ?tuple, ?stringPairs, ?stringJoin, ?listPairs⟩
  case map =>
    have hentries : (entries fieldDetails).Yields fun _ es =>
        ∀ d ∈ es.values, Doubleless d.implicits → d.IsExact :=
      yields_entries yields_fieldDetails fun _ _ hes => hes
    refine yields_record1 (yields_absentable _ hentries)
      fun n details hdetails => ⟨hdeep _ n, fun hdoubles => ?_⟩
    cases details with
    | none => trivial
    | some es =>
      exact fun d hd => hdetails es rfl d hd fun v hv =>
        hdoubles v (List.mem_flatMap.2 ⟨d, hd, hv⟩)
  case tuple =>
    exact yields_record1 (yields_absentable _ (yields_true _)) fun n order _ =>
      ⟨hdeep _ n, fun _ => trivial⟩
  case stringPairs =>
    exact ((yields_true _).imp fun n _ _ => ⟨Nat.le_add_left 2 (n + 1), fun _ => trivial⟩).map
  case stringJoin =>
    exact yields_record2 (yields_required _ (yields_true _)) (yields_absentable _ (yields_true _))
      fun n join order _ _ => ⟨hdeep _ n, fun _ => trivial⟩
  case listPairs => exact fun n => ⟨hdeep _ n, fun _ => trivial⟩

/-- The bytes in a union representation fit, and it is nested no deeper than it was read. -/
theorem yields_unionRepresentation :
    unionRepresentation.Yields fun n r => r.toJson.nesting ≤ n + 2 ∧ r.IsExact := by
  have hdeep : ∀ (r : UnionRepresentation) n, r.toJson.nesting ≤ n + 1 + 2 :=
    fun r n => r.nesting_toJson_le.trans (by omega)
  refine yields_choice _ ?_
  simp only [List.forall_mem_cons, List.not_mem_nil, false_imp_iff, implies_true, and_true]
  refine ⟨?keyed, ?kinded, ?envelope, ?inline, ?stringPrefix, ?bytePrefix⟩
  case keyed => exact ((yields_true _).imp fun n table _ => ⟨hdeep _ n, trivial⟩).map
  case kinded => exact ((yields_true _).imp fun n table _ => ⟨hdeep _ n, trivial⟩).map
  case envelope =>
    exact yields_record3 (yields_required _ (yields_true _)) (yields_required _ (yields_true _))
      (yields_required _ (yields_true _)) fun n _ _ _ _ _ _ => ⟨hdeep _ (n + 1), trivial⟩
  case inline =>
    exact yields_record2 (yields_required _ (yields_true _)) (yields_required _ (yields_true _))
      fun n _ _ _ _ => ⟨hdeep _ (n + 1), trivial⟩
  case stringPrefix =>
    exact yields_record1 (yields_required _ (yields_true _)) fun n _ _ => ⟨hdeep _ (n + 1), trivial⟩
  case bytePrefix =>
    exact yields_record1 (yields_required _ yields_numbers) fun n _ hfit => ⟨hdeep _ (n + 1), hfit⟩

theorem yields_enumRepresentation : enumRepresentation.Yields fun _ r => r.IsExact := by
  refine yields_choice _ ?_
  simp only [List.forall_mem_cons, List.not_mem_nil, false_imp_iff, implies_true, and_true]
  refine ⟨?string, ?int⟩
  case string => exact ((yields_true _).imp fun _ _ _ => trivial).map
  case int => exact (yields_numbers.imp fun _ _ hfit => hfit).map

end Document

/-! ## Reading definitions -/

/-- A reference that was read with `n` containers left to open: it is written with at most two
more, and what is defined in it is exact but for doubles. -/
structure Reference.Fits (n : Nat) (r : Reference) : Prop where
  nesting : r.toJson.nesting ≤ n + 2
  exact : ∀ d ∈ r.inlines, Doubleless d.implicits → d.IsExact

theorem Reference.fits_named (n : Nat) (name : TypeName) : (Reference.named name).Fits n :=
  ⟨Nat.zero_le _, nofun⟩

/-- A definition fits by its own nesting and by what its references contain. -/
theorem Reference.fits_inline {n : Nat} {d : Definition} (hnesting : d.toJson.nesting ≤ n + 2)
    (hexact : Doubleless d.implicits → d.IsExact) (href : ∀ r ∈ d.references, ∃ m, r.Fits m) :
    (Reference.inline d).Fits n := by
  refine ⟨hnesting, List.forall_mem_cons.2 ⟨hexact, fun e he => ?_⟩⟩
  rw [Definition.inlines_eq_flatMap] at he
  obtain ⟨r, hr, he⟩ := List.mem_flatMap.1 he
  obtain ⟨m, hm⟩ := href r hr
  exact hm.exact e he

namespace Document

/-- A definition that was read with `n` containers left to open, as it stands in place. -/
def Within (n : Nat) (d : Definition) : Prop :=
  (Reference.inline d).Fits n

theorem yields_referenceOf {inner : Decoder Definition} (h : inner.Yields Within) :
    (referenceOf inner).Yields Reference.Fits := by
  refine yields_untagged _ fun n j r hj hr => ?_
  split at hr
  · cases hr
    exact Reference.fits_named n _
  · obtain ⟨d, hd, rfl⟩ := Option.map_eq_some_iff.1 hr
    cases hread : inner.ofTree j with
    | error cause =>
      rw [hread] at hd
      cases hd
    | ok e =>
      rw [hread] at hd
      cases hd
      exact h.ofTree n j _ hj hread

section

variable {reference : Decoder Reference} (h : reference.Yields Reference.Fits)

include h

theorem yields_linkOf : (linkOf reference).Yields fun n => Within (n + 1) := by
  refine yields_record1 (yields_absentable _ h) fun n target htarget => ?_
  refine Reference.fits_inline ?nesting (fun _ => trivial) fun r hr =>
    ⟨n, htarget r (Option.mem_toList.1 hr)⟩
  cases target with
  | none => exact Nat.le_add_left 2 (n + 2)
  | some r =>
    have hr := (htarget r rfl).nesting
    simp only [Definition.toJson, nesting_caseObject, Json.nesting, Json.entryNesting]
    omega

theorem yields_mapOf : (mapOf reference).Yields fun n => Within (n + 1) := by
  refine yields_record4 (yields_required _ h) (yields_required _ h)
    (yields_defaulted _ (yields_true _) fun _ => trivial)
    (yields_defaulted _ (yields_true _) fun _ => trivial) ?_
  intro n key value valueNullable representation hkey hvalue _ _
  refine Reference.fits_inline ?nesting (fun _ => trivial)
    (List.forall_mem_cons.2 ⟨⟨n, hkey⟩, List.forall_mem_singleton.2 ⟨n, hvalue⟩⟩)
  have hkey := hkey.nesting
  have hvalue := hvalue.nesting
  simp only [Definition.toJson, nesting_caseObject, Json.nesting, Json.entryNesting,
    representation.nesting_toJson]
  omega

theorem yields_listOf : (listOf reference).Yields fun n => Within (n + 1) := by
  refine yields_record2 (yields_required _ h)
    (yields_defaulted _ (yields_true _) fun _ => trivial) ?_
  intro n value valueNullable hvalue _
  refine Reference.fits_inline ?nesting (fun _ => trivial)
    (List.forall_mem_singleton.2 ⟨n, hvalue⟩)
  have hvalue := hvalue.nesting
  simp only [Definition.toJson, nesting_caseObject, Json.nesting, Json.entryNesting]
  omega

theorem yields_fieldBodyOf :
    (fieldBodyOf reference).Yields fun n body =>
      body.type.toJson.nesting ≤ n + 1 ∧ ∃ m, body.type.Fits m :=
  yields_record3 (yields_required _ h) (yields_defaulted _ (yields_true _) fun _ => trivial)
    (yields_defaulted _ (yields_true _) fun _ => trivial)
    fun n _ _ _ htype _ _ => ⟨htype.nesting, n, htype⟩

theorem yields_structOf : (structOf reference).Yields fun n => Within (n + 1) := by
  have hfields : (Decoder.entries (fieldBodyOf reference)).Yields fun n fields =>
      ∀ f ∈ fields, f.2.type.toJson.nesting ≤ n ∧ ∃ m, f.2.type.Fits m :=
    (yields_fieldBodyOf h).entries fun n _ hall => hall
  refine yields_record2 (yields_required _ hfields) (yields_defaulted _ yields_structRepresentation
    fun n => ⟨Nat.le_add_left 2 n, fun _ => trivial⟩) ?_
  intro n fields representation hfields hrepresentation
  have htypes : ∀ f ∈ fields.map fun f => f.2.named f.1,
      f.type.toJson.nesting ≤ n ∧ ∃ m, f.type.Fits m := List.forall_mem_map.2 hfields
  generalize (fields.map fun f => f.2.named f.1) = declared at htypes ⊢
  refine Reference.fits_inline ?nesting hrepresentation.2
    (List.forall_mem_map.2 fun f hf => (htypes f hf).2)
  have hentries : Json.entryNesting (fieldEntriesJson declared) ≤ n + 1 := by
    rw [fieldEntriesJson_eq_map]
    refine Json.entryNesting_le.2 (List.forall_mem_map.2 fun f hf => ?_)
    rw [f.nesting_toJson]
    exact Nat.succ_le_succ (htypes f hf).1
  have hdeep := hrepresentation.1
  simp only [Definition.toJson, nesting_caseObject, Json.nesting, Json.entryNesting]
  omega

theorem yields_unionOf : (unionOf reference).Yields fun n => Within (n + 1) := by
  have hmembers : reference.list.Yields fun n members =>
      Json.itemNesting (referencesJson members) ≤ n + 1 ∧ ∀ r ∈ members, ∃ m, r.Fits m := by
    refine h.list fun n members hall => ⟨?_, fun r hr => ⟨n, hall r hr⟩⟩
    rw [referencesJson_eq_map]
    exact Json.itemNesting_le.2 (List.forall_mem_map.2 fun r hr => (hall r hr).nesting)
  refine yields_record2 (yields_required _ hmembers)
    (yields_required _ yields_unionRepresentation) ?_
  intro n members representation hmembers hrepresentation
  refine Reference.fits_inline ?nesting (fun _ => hrepresentation.2) hmembers.2
  have hitems := hmembers.1
  have hdeep := hrepresentation.1
  simp only [Definition.toJson, nesting_caseObject, Json.nesting, Json.entryNesting]
  omega

end

theorem yields_enumeration : enumeration.Yields fun n => Within (n + 1) := by
  refine yields_record2 (yields_required _ (yields_true _))
    (yields_defaulted _ yields_enumRepresentation fun _ => trivial) ?_
  intro n members representation _ hexact
  refine Reference.fits_inline ?nesting (fun _ => hexact) nofun
  have hmembers := nesting_textsJson_le members
  have hdeep := representation.nesting_toJson_le
  simp only [Definition.toJson, nesting_caseObject, Json.nesting, Json.entryNesting]
  omega

theorem yields_copy : copy.Yields fun n => Within (n + 1) :=
  yields_record1 (yields_required _ (yields_true _)) fun n _ _ =>
    Reference.fits_inline (Nat.le_add_left 2 (n + 2)) (fun _ => trivial) nofun

/-- **A definition is written with at most two containers more than it was read with**, if the
definitions in place in it are. -/
theorem yields_definitionOf {inner : Decoder Definition} (h : inner.Yields Within) :
    (definitionOf inner).Yields Within := by
  have hreference := yields_referenceOf h
  have hempty : ∀ d : Definition, d.toJson.nesting = 2 → d.references = [] → d.IsExact →
      ∀ n, Within (n + 2) d := by
    intro d hnesting hreferences hexact n
    refine Reference.fits_inline (by omega) (fun _ => hexact) ?_
    rw [hreferences]
    nofun
  refine yields_choice _ ?_
  simp only [List.forall_mem_cons, List.not_mem_nil, false_imp_iff, implies_true, and_true]
  exact ⟨hempty .bool rfl rfl trivial, hempty .string rfl rfl trivial,
    hempty .bytes rfl rfl trivial, hempty .int rfl rfl trivial, hempty .float rfl rfl trivial,
    yields_linkOf hreference, yields_mapOf hreference, yields_listOf hreference,
    yields_structOf hreference, yields_unionOf hreference, yields_enumeration, yields_copy⟩

theorem yields_definitionWithin (levels : Nat) : (definitionWithin levels).Yields Within := by
  induction levels with
  | zero => exact ⟨nofun, nofun⟩
  | succ levels ih => exact yields_definitionOf ih

end Document

/-! ## Schemas -/

namespace Schema

/-- **A schema is written with at most two containers more than it was read with**, and it is
exact but for doubles. -/
theorem yields_schema : Document.schema.Yields fun n s =>
    s.toJson.nesting ≤ n + 2 ∧ (Doubleless s.implicits → s.IsExact) := by
  have htypes : (Document.entries Document.definition).Yields fun n types =>
      ∀ d ∈ types.values, d.toJson.nesting ≤ n + 1 ∧ ∃ m, Document.Within m d :=
    Document.yields_entries (Document.yields_definitionWithin _) fun n _ hall d hd =>
      ⟨(hall d hd).nesting, n, hall d hd⟩
  refine yields_record1 (yields_required _ htypes) fun n types htypes => ⟨?nesting, ?exact⟩
  case nesting =>
    have hdeep : (types.toJson id Definition.toJson).nesting ≤ n + 1 + 1 :=
      Entries.nesting_toJson_le fun d hd => (htypes d hd).1
    simp only [toJson, Json.nesting, Json.entryNesting]
    omega
  case exact =>
    intro hdoubles d hd
    have hown : Doubleless d.implicits := fun v hv =>
      hdoubles v (List.mem_flatMap.2 ⟨d, List.mem_append.2 hd, hv⟩)
    rcases hd with hd | hd
    · obtain ⟨m, hm⟩ := (htypes d hd).2
      exact hm.exact d (List.mem_cons_self ..) hown
    · obtain ⟨entry, hentry, hd⟩ := mem_inlines.1 hd
      obtain ⟨m, hm⟩ := (htypes entry.2 (List.mem_map_of_mem hentry)).2
      exact hm.exact d (List.mem_cons_of_mem _ hd) hown

/-- A schema is read from a text without opening more than `n` containers inside of each
other. -/
def ReadWithin (n : Nat) (t : String) (s : Schema) : Prop :=
  ∃ rest, Document.schema.read n t.toList = .ok (s, rest)

/-- A schema that was read is refused when it is written too deep. -/
theorem text_refused {t : String} {s : Schema} (hread : ofText t = .ok s)
    (hdoubles : Doubleless s.implicits) (hnesting : Json.nestingLimit < s.toJson.nesting) :
    ∃ fault, ofText s.text = .error fault := by
  obtain ⟨hdeep, hexact⟩ := yields_schema.decode hread
  exact (reads_toJson (hexact hdoubles) hdeep).decode_refused hnesting

/-- **The text of a schema that was read is read back exactly if it is nested no deeper than
documents may be**, and it is nested at most two deeper than what had to be opened to read the
schema. -/
theorem ofText_text_iff {t : String} {s : Schema} (hread : ofText t = .ok s)
    (hdoubles : Doubleless s.implicits) :
    (ofText s.text = .ok s ↔ s.toJson.nesting ≤ Json.nestingLimit) ∧
      ∀ n, ReadWithin n t s → s.toJson.nesting ≤ n + 2 := by
  obtain ⟨hdeep, hexact⟩ := yields_schema.decode hread
  refine ⟨⟨fun hback => ?_, fun hnesting => ?_⟩, ?_⟩
  · by_contra hnesting
    obtain ⟨fault, hfault⟩ := text_refused hread hdoubles (Nat.lt_of_not_le hnesting)
    rw [hfault] at hback
    cases hback
  · exact (reads_toJson (hexact hdoubles) hdeep).decode hnesting
  · rintro n ⟨rest, hn⟩
    exact (yields_schema.read n _ _ _ hn).1

/-- A map of lists. -/
def mapOfLists : Schema :=
  ⟨⟨[("M", .map (.named "K") (.inline (.list (.named "K") false)) false .map)]⟩⟩

/-- A document that declares it, with the members of the map in order, two of them and one of the
list left out, and a key that names no member. -/
def looseText : String :=
  "\x7b\"types\": \x7b\"M\": \x7b\"map\":
    [\"K\", \x7b\"list\": \x7b\"note\": [1.5], \"valueType\": \"K\"\x7d\x7d]\x7d\x7d\x7d"

theorem ofText_text_iff_looseText :
    ofText looseText = .ok mapOfLists ∧ Doubleless mapOfLists.implicits ∧
      (ofText mapOfLists.text = .ok mapOfLists ↔
        mapOfLists.toJson.nesting ≤ Json.nestingLimit) ∧
      ∀ n, ReadWithin n looseText mapOfLists → mapOfLists.toJson.nesting ≤ n + 2 := by
  have hread : ofText looseText = .ok mapOfLists := rfl
  have hdoubles : Doubleless mapOfLists.implicits := nofun
  exact ⟨hread, hdoubles, ofText_text_iff hread hdoubles⟩

/-! ### Nested lists -/

/-- Lists of lists, `n` of them, with a map inside. -/
def nestedLists : Nat → Definition
  | 0 => .map (.named "K") (.named "K") false .map
  | n + 1 => .list (.inline (nestedLists n)) false

/-- What documents may hold for nested lists when they leave out what they can. -/
def terseLists : Nat → Json
  | 0 => caseObject "map" (.object [("keyType", .text "K"), ("valueType", .text "K")])
  | n + 1 => caseObject "list" (.object [("valueType", terseLists n)])

theorem nesting_terseLists (n : Nat) : (terseLists n).nesting = 2 * n + 2 := by
  induction n with
  | zero => rfl
  | succ n ih =>
    simp only [terseLists, nesting_caseObject, Json.nesting, Json.entryNesting, ih]
    omega

theorem nesting_nestedLists (n : Nat) : (nestedLists n).toJson.nesting = 2 * n + 4 := by
  induction n with
  | zero => rfl
  | succ n ih =>
    simp only [nestedLists, Definition.toJson, Reference.toJson, nesting_caseObject, Json.nesting,
      Json.entryNesting, ih]
    omega

theorem reads_terseLists {n levels : Nat} (h : n < levels) :
    (Document.definitionWithin levels).Reads (terseLists n) (nestedLists n) := by
  induction n generalizing levels with
  | zero =>
    obtain ⟨levels, rfl, -⟩ := Json.exists_budget h
    have hname : (Document.referenceOf (Document.definitionWithin levels)).Reads (.text "K")
        (.named "K") := reads_untagged (.text "K") rfl
    have htext : terseLists 0 = caseObject "map" (.object (given [("keyType", some (.text "K")),
        ("valueType", some (.text "K")), ("valueNullable", none), ("representation", none)])) := rfl
    rw [htext]
    refine .choice rfl ?_
    exact reads_record4
      (show ["keyType", "valueType", "valueNullable", "representation"].Nodup by decide)
      (.of hname) (.of hname) rfl rfl
  | succ n ih =>
    obtain ⟨levels, rfl, hlevels⟩ := Json.exists_budget h
    have hlist : ∀ s, terseLists n ≠ .text s := by cases n <;> nofun
    have htext : terseLists (n + 1) = caseObject "list" (.object
        (given [("valueType", some (terseLists n)), ("valueNullable", none)])) := rfl
    rw [htext]
    refine .choice rfl ?_
    exact reads_record2 (show ["valueType", "valueNullable"].Nodup by decide)
      (.of (Document.reads_inline (ih hlevels) hlist)) rfl

/-- The schema that declares nested lists. -/
def listing (n : Nat) : Schema :=
  ⟨⟨[("N", nestedLists n)]⟩⟩

/-- A document that declares nested lists. -/
def terseListing (n : Nat) : Json :=
  .object [("types", .object [("N", terseLists n)])]

theorem reads_terseListing {n : Nat} (h : n < Json.nestingLimit + 1) :
    Document.schema.Reads (terseListing n) (listing n) := by
  have hentry : List.Forall₂ (ReadsEntry .ok Document.definition) [("N", terseLists n)]
      [("N", nestedLists n)] := .cons ⟨rfl, reads_terseLists h⟩ .nil
  exact reads_record1 (.of ((Decoder.Reads.entries hentry).map Entries.mk))

theorem implicits_nestedLists (n : Nat) :
    ∀ d ∈ nestedLists n :: (nestedLists n).inlines, d.implicits = [] := by
  induction n with
  | zero => exact List.forall_mem_singleton.2 rfl
  | succ n ih => exact List.forall_mem_cons.2 ⟨rfl, ih⟩

/-- Sixty-one lists around a map are accepted as short as they can be written, in 126
containers, but not as the schema is written, in 128. -/
theorem ofText_text_deepListing :
    ofText (terseListing 61).compact = .ok (listing 61) ∧
      Doubleless (listing 61).implicits ∧ ofText (listing 61).text ≠ .ok (listing 61) := by
  have hread : ofText (terseListing 61).compact = .ok (listing 61) := by
    refine (reads_terseListing (by decide)).decode ?_
    simp only [terseListing, Json.nesting, Json.entryNesting, nesting_terseLists]
    decide
  have hdoubles : Doubleless (listing 61).implicits := by
    intro v hv
    obtain ⟨d, hd, hv⟩ := List.mem_flatMap.1 hv
    have hnone : d.implicits = [] := by
      refine implicits_nestedLists 61 d ?_
      simpa [listing, Entries.values, inlines] using hd
    rw [hnone] at hv
    cases hv
  refine ⟨hread, hdoubles, fun hback => ?_⟩
  obtain ⟨fault, hfault⟩ := text_refused hread hdoubles (by
    simp only [listing, toJson, Entries.toJson, List.map_cons, List.map_nil, Json.nesting,
      Json.entryNesting, nesting_nestedLists]
    decide)
  rw [hfault] at hback
  cases hback

end Schema
end WireSchema
