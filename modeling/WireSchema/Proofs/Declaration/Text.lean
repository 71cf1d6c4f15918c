import WireSchema.Declaration.Document
import WireSchema.Proofs.Json.Compact

/-!
# The text of a definition says everything about it

Two definitions with the same text are the same definition, but for implicit values that
are no finite number: all of those are written as null.  `Definition.asWritten` is the
definition with such values made one, and

* `Definition.text_asWritten` says that this does not change the text,
* `Definition.asWritten_eq_of_text_eq` says that nothing else has the same text.

A document cannot give an implicit value that is not finite, so for definitions that were
read the text is all there is.
-/

namespace WireSchema

/-! ## What is written of a definition -/

/-- The double that stands for all that are written alike. -/
def Binary64.asWritten (x : Binary64) : Binary64 :=
  if x.isFinite then x else .nan

/-- The implicit value that is written. -/
def ImplicitValue.asWritten : ImplicitValue → ImplicitValue
  | .float x => .float x.asWritten
  | other => other

/-- The details that are written. -/
def FieldDetails.asWritten (d : FieldDetails) : FieldDetails :=
  ⟨d.rename, d.implicit.map ImplicitValue.asWritten⟩

/-- The details of fields that are written. -/
def detailsAsWritten (details : Entries FieldName FieldDetails) : Entries FieldName FieldDetails :=
  ⟨details.toList.map fun e => (e.1, e.2.asWritten)⟩

/-- The struct representation that is written. -/
def StructRepresentation.asWritten : StructRepresentation → StructRepresentation
  | .map details => .map (details.map detailsAsWritten)
  | other => other

mutual

/-- The reference that is written. -/
def Reference.asWritten : Reference → Reference
  | .named name => .named name
  | .inline d => .inline d.asWritten

/-- The definition that is written. -/
def Definition.asWritten : Definition → Definition
  | .link none => .link none
  | .link (some target) => .link (some target.asWritten)
  | .map key value valueNullable representation =>
      .map key.asWritten value.asWritten valueNullable representation
  | .list value valueNullable => .list value.asWritten valueNullable
  | .struct fields representation => .struct (fieldsAsWritten fields) representation.asWritten
  | .union members representation => .union (referencesAsWritten members) representation
  | other => other

/-- The fields that are written. -/
def fieldsAsWritten : List Field → List Field
  | [] => []
  | .mk name type optional nullable :: rest =>
      .mk name type.asWritten optional nullable :: fieldsAsWritten rest

/-- The references that are written. -/
def referencesAsWritten : List Reference → List Reference
  | [] => []
  | r :: rest => r.asWritten :: referencesAsWritten rest

end

/-! ## Parts of a document -/

namespace Json

theorem asWritten_caseObject (name : String) (payload : Json) :
    (caseObject name payload).asWritten = caseObject name payload.asWritten := by
  simp only [caseObject, asWritten, entriesAsWritten]

theorem caseObject_inj {name name' : String} {payload payload' : Json} :
    caseObject name payload = caseObject name' payload' ↔ name = name' ∧ payload = payload' := by
  simp only [caseObject, object.injEq, List.cons.injEq, Prod.mk.injEq, and_true]

theorem asWritten_textsJson (texts : List String) :
    (textsJson texts).asWritten = textsJson texts := by
  induction texts with
  | nil => rfl
  | cons t rest ih =>
    simp only [textsJson, asWritten, list.injEq, List.map_cons, itemsAsWritten,
      List.cons.injEq, true_and] at ih ⊢
    exact ih

theorem textsJson_inj {texts texts' : List String} :
    textsJson texts = textsJson texts' ↔ texts = texts' := by
  rw [textsJson, textsJson, list.injEq]
  exact (List.map_injective_iff.2 fun _ _ => text.inj).eq_iff

end Json

/-- The written form of entries determines what is written of their values. -/
theorem Entries.map_eq_of_toJson {κ ν μ : Type} (key : κ → String) (value : ν → Json) (f : ν → μ)
    (hkey : Function.Injective key)
    (hvalue : ∀ x y, (value x).asWritten = (value y).asWritten → f x = f y)
    {es es' : List (κ × ν)}
    (h : Json.entriesAsWritten (es.map fun e => (key e.1, value e.2)) =
      Json.entriesAsWritten (es'.map fun e => (key e.1, value e.2))) :
    es.map (fun e => (e.1, f e.2)) = es'.map fun e => (e.1, f e.2) := by
  induction es generalizing es' with
  | nil =>
    cases es' with
    | nil => rfl
    | cons e' es' => cases h
  | cons e es ih =>
    cases es' with
    | nil => cases h
    | cons e' es' =>
      simp only [List.map_cons, Json.entriesAsWritten, List.cons.injEq, Prod.mk.injEq] at h
      obtain ⟨⟨hk, hv⟩, hrest⟩ := h
      rw [List.map_cons, List.map_cons, hkey hk, hvalue _ _ hv, ih hrest]

theorem Entries.asWritten_toJson {κ ν : Type} (key : κ → String) (value : ν → Json) (f : ν → ν)
    (hvalue : ∀ x, (value (f x)).asWritten = (value x).asWritten) (es : List (κ × ν)) :
    Json.entriesAsWritten ((es.map fun e => (e.1, f e.2)).map fun e => (key e.1, value e.2)) =
      Json.entriesAsWritten (es.map fun e => (key e.1, value e.2)) := by
  induction es with
  | nil => rfl
  | cons e es ih =>
    simp only [List.map_cons, Json.entriesAsWritten, hvalue]
    rw [ih]

/-- A table whose values are written as they are. -/
theorem Entries.eq_of_toJson {κ ν : Type} (key : κ → String) (value : ν → Json)
    (hkey : Function.Injective key)
    (hvalue : ∀ x y, (value x).asWritten = (value y).asWritten → x = y)
    {es es' : Entries κ ν}
    (h : (es.toJson key value).asWritten = (es'.toJson key value).asWritten) : es = es' := by
  simp only [Entries.toJson, Json.asWritten, Json.object.injEq] at h
  have hmap := Entries.map_eq_of_toJson key value id hkey hvalue h
  cases es
  cases es'
  simpa using hmap

theorem namesJson_inj {es es' : Entries String String}
    (h : (namesJson es).asWritten = (namesJson es').asWritten) : es = es' :=
  Entries.eq_of_toJson id .text Function.injective_id (fun _ _ => Json.text.inj) h

theorem numbersJson_inj {es es' : Entries String Int}
    (h : (numbersJson es).asWritten = (numbersJson es').asWritten) : es = es' :=
  Entries.eq_of_toJson id .int Function.injective_id (fun _ _ => Json.int.inj) h

/-! ## Implicit values and details -/

theorem ImplicitValue.asWritten_toJson (v : ImplicitValue) :
    v.asWritten.toJson.asWritten = v.toJson.asWritten := by
  cases v with
  | float x =>
    by_cases h : x.isFinite = true
    · rw [asWritten, Binary64.asWritten, if_pos h]
    · rw [asWritten, Binary64.asWritten, if_neg h, toJson, toJson, Json.asWritten, Json.asWritten,
        if_neg (by decide), if_neg h]
  | _ => rfl

theorem ImplicitValue.asWritten_eq_of_toJson {v w : ImplicitValue}
    (h : v.toJson.asWritten = w.toJson.asWritten) : v.asWritten = w.asWritten := by
  cases v <;> cases w <;>
    grind [asWritten, toJson, Json.asWritten, Binary64.asWritten]

theorem FieldDetails.asWritten_toJson (d : FieldDetails) :
    d.asWritten.toJson.asWritten = d.toJson.asWritten := by
  obtain ⟨rename, implicit⟩ := d
  cases rename <;> cases implicit <;>
    simp [asWritten, toJson, present, Json.asWritten, Json.entriesAsWritten,
      ImplicitValue.asWritten_toJson]

theorem FieldDetails.asWritten_eq_of_toJson (d e : FieldDetails)
    (h : d.toJson.asWritten = e.toJson.asWritten) : d.asWritten = e.asWritten := by
  obtain ⟨rename, implicit⟩ := d
  obtain ⟨rename', implicit'⟩ := e
  cases rename <;> cases implicit <;> cases rename' <;> cases implicit' <;>
    simp [asWritten, toJson, present, Json.asWritten, Json.entriesAsWritten] at h ⊢
  · exact ImplicitValue.asWritten_eq_of_toJson h
  · exact h
  · exact ⟨h.1, ImplicitValue.asWritten_eq_of_toJson h.2⟩

/-! ## Representations -/

theorem PairDelimiters.eq_of_toJson {d e : PairDelimiters}
    (h : d.toJson.asWritten = e.toJson.asWritten) : d = e := by
  obtain ⟨inner, entry⟩ := d
  obtain ⟨inner', entry'⟩ := e
  simpa [toJson, Json.asWritten, Json.entriesAsWritten] using h

theorem MapRepresentation.eq_of_toJson {r r' : MapRepresentation}
    (h : r.toJson.asWritten = r'.toJson.asWritten) : r = r' := by
  cases r <;> cases r' <;>
    simp only [toJson, Json.asWritten_caseObject, Json.caseObject_inj] at h <;>
    first
    | rfl
    | exact absurd h.1 (by decide)
    | rw [PairDelimiters.eq_of_toJson h.2]

theorem UnionRepresentation.eq_of_toJson {r r' : UnionRepresentation}
    (h : r.toJson.asWritten = r'.toJson.asWritten) : r = r' := by
  have hkind : Function.Injective Kind.name := fun _ _ => Kind.name_injective
  cases r <;> cases r' <;>
    simp only [toJson, Json.asWritten_caseObject, Json.caseObject_inj] at h <;>
    try exact absurd h.1 (by decide)
  case keyed.keyed => rw [namesJson_inj h.2]
  case kinded.kinded =>
    rw [Entries.eq_of_toJson Kind.name .text hkind (fun _ _ => Json.text.inj) h.2]
  all_goals
    simp only [Json.asWritten, Json.entriesAsWritten, Json.object.injEq, List.cons.injEq,
      Prod.mk.injEq, Json.text.injEq, true_and, and_true] at h
  case envelope.envelope => rw [h.1, h.2.1, namesJson_inj h.2.2]
  case inline.inline => rw [h.1, namesJson_inj h.2]
  case stringPrefix.stringPrefix => rw [namesJson_inj h]
  case bytePrefix.bytePrefix => rw [numbersJson_inj h]

theorem EnumRepresentation.eq_of_toJson {r r' : EnumRepresentation}
    (h : r.toJson.asWritten = r'.toJson.asWritten) : r = r' := by
  cases r <;> cases r' <;>
    simp only [toJson, Json.asWritten_caseObject, Json.caseObject_inj] at h <;>
    first
    | exact absurd h.1 (by decide)
    | rw [namesJson_inj h.2]
    | rw [numbersJson_inj h.2]

theorem StructRepresentation.asWritten_toJson (r : StructRepresentation) :
    r.asWritten.toJson.asWritten = r.toJson.asWritten := by
  cases r with
  | map details =>
    cases details with
    | none => rfl
    | some es =>
      have hentries := Entries.asWritten_toJson id FieldDetails.toJson FieldDetails.asWritten
        FieldDetails.asWritten_toJson es.toList
      simp [asWritten, toJson, present, Json.asWritten_caseObject, Json.asWritten,
        Json.entriesAsWritten, Entries.toJson, detailsAsWritten] at hentries ⊢
      rw [hentries]
  | _ => rfl

theorem StructRepresentation.asWritten_eq_of_toJson {r r' : StructRepresentation}
    (h : r.toJson.asWritten = r'.toJson.asWritten) : r.asWritten = r'.asWritten := by
  cases r <;> cases r' <;>
    simp only [toJson, Json.asWritten_caseObject, Json.caseObject_inj] at h <;>
    try exact absurd h.1 (by decide)
  case map.map details details' =>
    cases details <;> cases details' <;>
      simp [present, Json.asWritten, Json.entriesAsWritten, Entries.toJson] at h
    · rfl
    · have hmap := Entries.map_eq_of_toJson id FieldDetails.toJson FieldDetails.asWritten
        Function.injective_id FieldDetails.asWritten_eq_of_toJson h
      rw [asWritten, asWritten, Option.map_some, Option.map_some, detailsAsWritten, hmap]
      rfl
  case tuple.tuple order order' =>
    cases order <;> cases order' <;>
      simp [present, Json.asWritten, Json.entriesAsWritten, Json.asWritten_textsJson,
        Json.textsJson_inj] at h
    · rfl
    · rw [h]
  case stringPairs.stringPairs => rw [PairDelimiters.eq_of_toJson h.2]
  case stringJoin.stringJoin join order join' order' =>
    cases order <;> cases order' <;>
      simp [present, Json.asWritten, Json.entriesAsWritten, Json.asWritten_textsJson,
        Json.textsJson_inj] at h
    · rw [h]
    · rw [h.1, h.2]
  case listPairs.listPairs => rfl

/-! ## Definitions -/

theorem Definition.exists_toJson_eq (d : Definition) :
    ∃ payload, d.toJson = caseObject d.keyword payload := by
  cases d with
  | link target => cases target <;> exact ⟨_, by rw [toJson, keyword]⟩
  | _ => exact ⟨_, by rw [toJson, keyword]⟩

/-- The text of a definition begins with its sort. -/
theorem Definition.keyword_eq_of_toJson {d e : Definition}
    (h : d.toJson.asWritten = e.toJson.asWritten) : d.keyword = e.keyword := by
  obtain ⟨payload, hd⟩ := d.exists_toJson_eq
  obtain ⟨payload', he⟩ := e.exists_toJson_eq
  rw [hd, he, Json.asWritten_caseObject, Json.asWritten_caseObject, Json.caseObject_inj] at h
  exact h.1

mutual

theorem Reference.asWritten_toJson :
    ∀ r : Reference, r.asWritten.toJson.asWritten = r.toJson.asWritten
  | .named _ => by rw [Reference.asWritten]
  | .inline d => by
    rw [Reference.asWritten, Reference.toJson, Reference.toJson, Definition.asWritten_toJson d]

theorem Definition.asWritten_toJson :
    ∀ d : Definition, d.asWritten.toJson.asWritten = d.toJson.asWritten
  | .bool | .string | .bytes | .int | .float => by rw [Definition.asWritten] <;> simp
  | .link none => by rw [Definition.asWritten]
  | .link (some target) => by
    simp only [Definition.asWritten, Definition.toJson, Json.asWritten_caseObject,
      Json.asWritten, Json.entriesAsWritten, Reference.asWritten_toJson target]
  | .map key value _ _ => by
    simp only [Definition.asWritten, Definition.toJson, Json.asWritten_caseObject,
      Json.asWritten, Json.entriesAsWritten, Reference.asWritten_toJson key,
      Reference.asWritten_toJson value]
  | .list value _ => by
    simp only [Definition.asWritten, Definition.toJson, Json.asWritten_caseObject,
      Json.asWritten, Json.entriesAsWritten, Reference.asWritten_toJson value]
  | .struct fields representation => by
    simp only [Definition.asWritten, Definition.toJson, Json.asWritten_caseObject,
      Json.asWritten, Json.entriesAsWritten, fieldsAsWritten_toJson fields,
      StructRepresentation.asWritten_toJson]
  | .union members _ => by
    simp only [Definition.asWritten, Definition.toJson, Json.asWritten_caseObject,
      Json.asWritten, Json.entriesAsWritten, referencesAsWritten_toJson members]
  | .enum .. => by rw [Definition.asWritten] <;> simp
  | .copy _ => by rw [Definition.asWritten] <;> simp

theorem fieldsAsWritten_toJson :
    ∀ fields : List Field, Json.entriesAsWritten (fieldEntriesJson (fieldsAsWritten fields)) =
      Json.entriesAsWritten (fieldEntriesJson fields)
  | [] => by rw [fieldsAsWritten]
  | .mk _ type _ _ :: rest => by
    simp only [fieldsAsWritten, fieldEntriesJson, Field.toJson, Json.asWritten,
      Json.entriesAsWritten, Reference.asWritten_toJson type, fieldsAsWritten_toJson rest]

theorem referencesAsWritten_toJson :
    ∀ rs : List Reference, Json.itemsAsWritten (referencesJson (referencesAsWritten rs)) =
      Json.itemsAsWritten (referencesJson rs)
  | [] => by rw [referencesAsWritten]
  | r :: rest => by
    simp only [referencesAsWritten, referencesJson, Json.itemsAsWritten,
      Reference.asWritten_toJson r, referencesAsWritten_toJson rest]

end

mutual

theorem Reference.asWritten_eq_of_toJson :
    ∀ r s : Reference, r.toJson.asWritten = s.toJson.asWritten → r.asWritten = s.asWritten
  | .named name, .named name', h => by
    simp only [Reference.toJson, Json.asWritten, Json.text.injEq] at h
    rw [h]
  | .named name, .inline e, h => by
    obtain ⟨payload, he⟩ := e.exists_toJson_eq
    rw [Reference.toJson, Reference.toJson, he, Json.asWritten_caseObject] at h
    cases h
  | .inline d, .named name, h => by
    obtain ⟨payload, hd⟩ := d.exists_toJson_eq
    rw [Reference.toJson, Reference.toJson, hd, Json.asWritten_caseObject] at h
    cases h
  | .inline d, .inline e, h => by
    rw [Reference.toJson, Reference.toJson] at h
    rw [Reference.asWritten, Reference.asWritten, Definition.asWritten_eq_of_toJson d e h]

theorem Definition.asWritten_eq_of_toJson :
    ∀ d e : Definition, d.toJson.asWritten = e.toJson.asWritten → d.asWritten = e.asWritten
  | .bool, e, h | .string, e, h | .bytes, e, h | .int, e, h | .float, e, h => by
    have hkeyword := Definition.keyword_eq_of_toJson h
    cases e <;> simp [Definition.keyword] at hkeyword
    rfl
  | .link none, e, h => by
    have hkeyword := Definition.keyword_eq_of_toJson h
    cases e <;> simp [Definition.keyword] at hkeyword
    case link target' =>
      cases target' with
      | none => rfl
      | some target' =>
        simp [Definition.toJson, caseObject, Json.asWritten, Json.entriesAsWritten] at h
  | .link (some target), e, h => by
    have hkeyword := Definition.keyword_eq_of_toJson h
    cases e <;> simp [Definition.keyword] at hkeyword
    case link target' =>
      cases target' with
      | none => simp [Definition.toJson, caseObject, Json.asWritten, Json.entriesAsWritten] at h
      | some target' =>
        simp only [Definition.toJson, Json.asWritten_caseObject, Json.caseObject_inj,
          Json.asWritten, Json.entriesAsWritten, Json.object.injEq, List.cons.injEq,
          Prod.mk.injEq, true_and, and_true] at h
        rw [Definition.asWritten, Definition.asWritten,
          Reference.asWritten_eq_of_toJson target target' h]
  | .map key value n r, e, h => by
    have hkeyword := Definition.keyword_eq_of_toJson h
    cases e <;> simp [Definition.keyword] at hkeyword
    case map key' value' n' r' =>
      simp only [Definition.toJson, Json.asWritten_caseObject, Json.caseObject_inj, Json.asWritten,
        Json.entriesAsWritten, Json.object.injEq, List.cons.injEq, Prod.mk.injEq, Json.bool.injEq,
        true_and, and_true] at h
      obtain ⟨hkey, hvalue, hnullable, hrepresentation⟩ := h
      rw [Definition.asWritten, Definition.asWritten,
        Reference.asWritten_eq_of_toJson key key' hkey,
        Reference.asWritten_eq_of_toJson value value' hvalue, hnullable,
        MapRepresentation.eq_of_toJson hrepresentation]
  | .list value n, e, h => by
    have hkeyword := Definition.keyword_eq_of_toJson h
    cases e <;> simp [Definition.keyword] at hkeyword
    case list value' n' =>
      simp only [Definition.toJson, Json.asWritten_caseObject, Json.caseObject_inj, Json.asWritten,
        Json.entriesAsWritten, Json.object.injEq, List.cons.injEq, Prod.mk.injEq, Json.bool.injEq,
        true_and, and_true] at h
      rw [Definition.asWritten, Definition.asWritten,
        Reference.asWritten_eq_of_toJson value value' h.1, h.2]
  | .struct fields r, e, h => by
    have hkeyword := Definition.keyword_eq_of_toJson h
    cases e <;> simp [Definition.keyword] at hkeyword
    case struct fields' r' =>
      simp only [Definition.toJson, Json.asWritten_caseObject, Json.caseObject_inj, Json.asWritten,
        Json.entriesAsWritten, Json.object.injEq, List.cons.injEq, Prod.mk.injEq, true_and,
        and_true] at h
      rw [Definition.asWritten, Definition.asWritten,
        fieldsAsWritten_eq_of_toJson fields fields' h.1,
        StructRepresentation.asWritten_eq_of_toJson h.2]
  | .union members r, e, h => by
    have hkeyword := Definition.keyword_eq_of_toJson h
    cases e <;> simp [Definition.keyword] at hkeyword
    case union members' r' =>
      simp only [Definition.toJson, Json.asWritten_caseObject, Json.caseObject_inj, Json.asWritten,
        Json.entriesAsWritten, Json.object.injEq, List.cons.injEq, Prod.mk.injEq, Json.list.injEq,
        true_and, and_true] at h
      rw [Definition.asWritten, Definition.asWritten,
        referencesAsWritten_eq_of_toJson members members' h.1,
        UnionRepresentation.eq_of_toJson h.2]
  | .enum members r, e, h => by
    have hkeyword := Definition.keyword_eq_of_toJson h
    cases e <;> simp [Definition.keyword] at hkeyword
    case enum members' r' =>
      simp only [Definition.toJson, Json.asWritten_caseObject, Json.caseObject_inj, Json.asWritten,
        Json.entriesAsWritten, Json.object.injEq, List.cons.injEq, Prod.mk.injEq,
        Json.asWritten_textsJson, Json.textsJson_inj, true_and, and_true] at h
      rw [h.1, EnumRepresentation.eq_of_toJson h.2]
  | .copy source, e, h => by
    have hkeyword := Definition.keyword_eq_of_toJson h
    cases e <;> simp [Definition.keyword] at hkeyword
    case copy source' =>
      simp only [Definition.toJson, Json.asWritten_caseObject, Json.caseObject_inj, Json.asWritten,
        Json.entriesAsWritten, Json.object.injEq, List.cons.injEq, Prod.mk.injEq, Json.text.injEq,
        true_and, and_true] at h
      rw [h]

theorem fieldsAsWritten_eq_of_toJson :
    ∀ fs gs : List Field, Json.entriesAsWritten (fieldEntriesJson fs) =
      Json.entriesAsWritten (fieldEntriesJson gs) → fieldsAsWritten fs = fieldsAsWritten gs
  | [], [], _ => rfl
  | [], .mk .. :: _, h => by cases h
  | .mk .. :: _, [], h => by cases h
  | .mk name type optional nullable :: rest, .mk name' type' optional' nullable' :: rest', h => by
    simp only [fieldEntriesJson, Field.toJson, Json.entriesAsWritten, Json.asWritten,
      Json.object.injEq, List.cons.injEq, Prod.mk.injEq, Json.bool.injEq, true_and, and_true] at h
    obtain ⟨⟨hname, htype, hoptional, hnullable⟩, hrest⟩ := h
    rw [fieldsAsWritten, fieldsAsWritten, hname, hoptional, hnullable,
      Reference.asWritten_eq_of_toJson type type' htype,
      fieldsAsWritten_eq_of_toJson rest rest' hrest]

theorem referencesAsWritten_eq_of_toJson :
    ∀ rs ss : List Reference, Json.itemsAsWritten (referencesJson rs) =
      Json.itemsAsWritten (referencesJson ss) → referencesAsWritten rs = referencesAsWritten ss
  | [], [], _ => rfl
  | [], _ :: _, h => by cases h
  | _ :: _, [], h => by cases h
  | r :: rs, s :: ss, h => by
    simp only [referencesJson, Json.itemsAsWritten, List.cons.injEq] at h
    rw [referencesAsWritten, referencesAsWritten, Reference.asWritten_eq_of_toJson r s h.1,
      referencesAsWritten_eq_of_toJson rs ss h.2]

end

/-- **What is written of a definition has the text of the definition.** -/
theorem Definition.text_asWritten (d : Definition) : d.asWritten.text = d.text := by
  rw [text, text, ← Json.compact_asWritten, asWritten_toJson, Json.compact_asWritten]

/-- **The text of a definition determines what is written of it.** -/
theorem Definition.asWritten_eq_of_text_eq {d e : Definition} (h : d.text = e.text) :
    d.asWritten = e.asWritten :=
  asWritten_eq_of_toJson d e (Json.asWritten_eq_of_compact_eq h)

end WireSchema
