import WireSchema.Compiler
import WireSchema.Proofs.Declaration.Accepted
import WireSchema.Proofs.Declaration.Finite

/-!
# Equal declarations and equal texts

Two declarations are equal if they are built in the same way and hold equal values
(`Definition.same`), and the values of two doubles are compared as numbers.  So the two zeros are
equal, which have different texts: equal declarations may have different texts, and different
checksums (`not_checksum_eq_of_same`).

Nothing else stands between equality and texts, as long as implicit values are finite.  The texts
of two definitions are equal exactly if the definitions are, and their zeros have the same signs
(`text_eq_iff_same`), and the same holds of schemas.

A definition is taken apart for this into its references, its implicit values and its outline,
which is what is left of it.  Equality compares the outlines and, one by one, the references and
the values.
-/

namespace WireSchema

/-! ## Implicit values -/

/-- Whether an implicit value is finite, if it is a double. -/
def ImplicitValue.IsFinite (v : ImplicitValue) : Prop :=
  ∀ x, v = .float x → x.isFinite = true

/-- The sign of an implicit value, if that is a zero among doubles. -/
def ImplicitValue.zeroSign? : ImplicitValue → Option Bool
  | .float x => if x.isZero then some x.isNegative else none
  | _ => none

namespace Binary64

theorem isZero_iff {x : Binary64} : x.isZero = true ↔ x.bits.toNat % signPlace = 0 := by
  rw [isZero, beq_iff_eq]

/-- A zero is its sign. -/
theorem eq_of_isZero {x y : Binary64} (hx : x.isZero = true) (hy : y.isZero = true)
    (hsign : x.isNegative = y.isNegative) : x = y := by
  rw [isZero_iff] at hx hy
  rw [isNegative, isNegative, Bool.eq_iff_iff, beq_iff_eq, beq_iff_eq] at hsign
  have hxlt := x.bits.toNat_lt
  have hylt := y.bits.toNat_lt
  have hbits : x.bits.toNat = y.bits.toNat := by
    simp only [signPlace] at hx hy hsign
    omega
  cases x
  cases y
  exact congrArg Binary64.mk (UInt64.toNat_inj.1 hbits)

theorem numEq_self {x : Binary64} (h : x.isFinite = true) : x.numEq x = true := by
  rw [numEq, h, beq_self_eq_true]
  rfl

end Binary64

namespace ImplicitValue

theorem same_self {v : ImplicitValue} (h : v.IsFinite) : v.same v = true := by
  cases v with
  | float x => exact Binary64.numEq_self (h x rfl)
  | _ => exact beq_self_eq_true _

/-- Values that are the same have the same sign if they are zeros and none otherwise, or are two
zeros. -/
theorem eq_of_same {v w : ImplicitValue} (h : v.same w = true) (hsign : v.zeroSign? = w.zeroSign?) :
    v = w := by
  cases v <;> cases w <;> simp only [same, beq_iff_eq, Bool.false_eq_true] at h
  case float.float x y =>
    rw [Binary64.numEq, Bool.or_eq_true, Bool.and_eq_true, Bool.and_eq_true, beq_iff_eq] at h
    rcases h with ⟨hbits, -⟩ | ⟨hx, hy⟩
    · cases x
      cases y
      exact congrArg (ImplicitValue.float ∘ Binary64.mk) hbits
    · rw [zeroSign?, zeroSign?, if_pos hx, if_pos hy, Option.some.injEq] at hsign
      rw [Binary64.eq_of_isZero hx hy hsign]
  all_goals rw [h]

theorem isSome_zeroSign?_of_same {v w : ImplicitValue} (h : v.same w = true) :
    v.zeroSign?.isSome = w.zeroSign?.isSome := by
  cases v <;> cases w <;> simp only [same, Bool.false_eq_true] at h <;> try rfl
  case float x y =>
    rw [Binary64.numEq, Bool.or_eq_true, Bool.and_eq_true, Bool.and_eq_true, beq_iff_eq] at h
    have hzero : x.isZero = y.isZero := by
      rcases h with ⟨hbits, -⟩ | ⟨hx, hy⟩
      · rw [Binary64.isZero, Binary64.isZero, hbits]
      · rw [hx, hy]
    rw [zeroSign?, zeroSign?, hzero]
    split <;> rfl

theorem asWritten_of_isFinite {v : ImplicitValue} (h : v.IsFinite) : v.asWritten = v := by
  cases v with
  | float x => rw [asWritten, Binary64.asWritten, if_pos (h x rfl)]
  | _ => rfl

end ImplicitValue

/-- The signs of the zeros among values that may be absent. -/
def zeroSigns (vs : List (Option ImplicitValue)) : List Bool :=
  vs.filterMap fun v => v.bind ImplicitValue.zeroSign?

/-- Values that are the same one by one, and whose zeros have the same signs, are equal.  What
follows behind the signs is carried along, since all signs of a definition are in one row. -/
theorem eq_of_same_of_zeroSigns {vs ws : List (Option ImplicitValue)}
    (h : List.Forall₂ (Option.Rel fun v w => v.same w = true) vs ws) {t u : List Bool}
    (hsigns : zeroSigns vs ++ t = zeroSigns ws ++ u) : vs = ws ∧ t = u := by
  induction h with
  | nil => exact ⟨rfl, hsigns⟩
  | @cons v w vs ws hvw _ ih =>
    cases hvw with
    | none =>
      obtain ⟨hrest, htail⟩ := ih hsigns
      exact ⟨congrArg (none :: ·) hrest, htail⟩
    | @some v w hvw =>
      have hsome := ImplicitValue.isSome_zeroSign?_of_same hvw
      rw [zeroSigns, zeroSigns, List.filterMap_cons, List.filterMap_cons, Option.bind_some,
        Option.bind_some] at hsigns
      cases hv : v.zeroSign? with
      | none =>
        rw [hv] at hsome hsigns
        have hw : w.zeroSign? = none :=
          Option.isNone_iff_eq_none.1 (Option.isSome_eq_false_iff.1 hsome.symm)
        rw [hw] at hsigns
        obtain ⟨hrest, htail⟩ := ih hsigns
        rw [ImplicitValue.eq_of_same hvw (hv.trans hw.symm), hrest]
        exact ⟨rfl, htail⟩
      | some sign =>
        rw [hv] at hsome hsigns
        obtain ⟨sign', hw⟩ := Option.isSome_iff_exists.1 hsome.symm
        rw [hw] at hsigns
        obtain ⟨rfl, hrest⟩ := List.cons.inj hsigns
        obtain ⟨hrest, htail⟩ := ih hrest
        rw [ImplicitValue.eq_of_same hvw (hv.trans hw.symm), hrest]
        exact ⟨rfl, htail⟩

/-! ## Definitions taken apart -/

/-- A field without its type. -/
def Field.outline : Field → Field
  | .mk name _ optional nullable => .mk name (.named "") optional nullable

/-- The details of fields without their implicit values. -/
def detailsOutline (details : Entries FieldName FieldDetails) : Entries FieldName FieldDetails :=
  ⟨details.toList.map fun e => (e.1, ⟨e.2.rename, none⟩)⟩

/-- A struct representation without its implicit values. -/
def StructRepresentation.outline : StructRepresentation → StructRepresentation
  | .map details => .map (details.map detailsOutline)
  | other => other

/-- The implicit values in a struct representation, where it has details. -/
def StructRepresentation.implicitPlaces : StructRepresentation → List (Option ImplicitValue)
  | .map (some details) => details.values.map FieldDetails.implicit
  | _ => []

namespace Definition

/-- A definition without its references and implicit values. -/
def outline : Definition → Definition
  | .link target => .link (target.map fun _ => .named "")
  | .map _ _ valueNullable representation =>
      .map (.named "") (.named "") valueNullable representation
  | .list _ valueNullable => .list (.named "") valueNullable
  | .struct fields representation => .struct (fields.map Field.outline) representation.outline
  | .union members representation => .union (members.map fun _ => .named "") representation
  | other => other

/-- The implicit values in a definition, where it has details of fields. -/
def implicitPlaces : Definition → List (Option ImplicitValue)
  | .struct _ representation => representation.implicitPlaces
  | _ => []

end Definition

theorem fields_eq_of_outline {fs gs : List Field}
    (houtline : fs.map Field.outline = gs.map Field.outline)
    (htypes : fs.map Field.type = gs.map Field.type) : fs = gs := by
  induction fs generalizing gs with
  | nil => exact (List.map_eq_nil_iff.1 htypes.symm).symm
  | cons f fs ih =>
    cases gs with
    | nil => cases htypes
    | cons g gs =>
      obtain ⟨name, type, optional, nullable⟩ := f
      obtain ⟨name', type', optional', nullable'⟩ := g
      simp only [List.map_cons, List.cons.injEq, Field.outline, Field.mk.injEq, true_and,
        Field.type] at houtline htypes
      obtain ⟨⟨rfl, rfl, rfl⟩, houtline⟩ := houtline
      rw [htypes.1, ih houtline htypes.2]

theorem sameFields_iff {fs gs : List Field} :
    sameFields fs gs = true ↔ fs.map Field.outline = gs.map Field.outline ∧
      List.Forall₂ (fun r s => r.same s = true) (fs.map Field.type) (gs.map Field.type) := by
  induction fs generalizing gs with
  | nil => cases gs <;> simp [sameFields]
  | cons f fs ih =>
    obtain ⟨name, type, optional, nullable⟩ := f
    cases gs with
    | nil => simp [sameFields]
    | cons g gs =>
      obtain ⟨name', type', optional', nullable'⟩ := g
      simp only [sameFields, Bool.and_eq_true, beq_iff_eq, ih, List.map_cons, List.cons.injEq,
        Field.outline, Field.mk.injEq, true_and, Field.type, List.forall₂_cons]
      tauto

theorem sameReferences_iff {rs ss : List Reference} :
    sameReferences rs ss = true ↔ List.Forall₂ (fun r s => r.same s = true) rs ss := by
  induction rs generalizing ss with
  | nil => cases ss <;> simp [sameReferences]
  | cons r rs ih =>
    cases ss with
    | nil => simp [sameReferences]
    | cons s ss => rw [sameReferences, Bool.and_eq_true, ih, List.forall₂_cons]

theorem FieldDetails.same_iff {d e : FieldDetails} :
    d.same e = true ↔ d.rename = e.rename ∧
      Option.Rel (fun v w => v.same w = true) d.implicit e.implicit := by
  rw [same, Bool.and_eq_true, beq_iff_eq]
  refine and_congr_right fun _ => ?_
  cases d.implicit <;> cases e.implicit <;> simp

theorem sameDetails_iff {es fs : List (FieldName × FieldDetails)} :
    sameDetails es fs = true ↔ detailsOutline ⟨es⟩ = detailsOutline ⟨fs⟩ ∧
      List.Forall₂ (Option.Rel fun v w => v.same w = true)
        (es.map fun e => e.2.implicit) (fs.map fun f => f.2.implicit) := by
  simp only [detailsOutline, Entries.mk.injEq]
  induction es generalizing fs with
  | nil => cases fs <;> simp [sameDetails]
  | cons e es ih =>
    cases fs with
    | nil => simp [sameDetails]
    | cons f fs =>
      obtain ⟨name, d⟩ := e
      obtain ⟨name', d'⟩ := f
      simp only [sameDetails, Bool.and_eq_true, beq_iff_eq, FieldDetails.same_iff, ih,
        List.map_cons, List.cons.injEq, Prod.mk.injEq, FieldDetails.mk.injEq, and_true,
        List.forall₂_cons]
      tauto

theorem details_eq_of_outline {es fs : List (FieldName × FieldDetails)}
    (houtline : detailsOutline ⟨es⟩ = detailsOutline ⟨fs⟩)
    (himplicits : (es.map fun e => e.2.implicit) = fs.map fun f => f.2.implicit) : es = fs := by
  simp only [detailsOutline, Entries.mk.injEq] at houtline
  induction es generalizing fs with
  | nil => exact (List.map_eq_nil_iff.1 himplicits.symm).symm
  | cons e es ih =>
    cases fs with
    | nil => cases himplicits
    | cons f fs =>
      obtain ⟨name, rename, implicit⟩ := e
      obtain ⟨name', rename', implicit'⟩ := f
      simp only [List.map_cons, List.cons.injEq, Prod.mk.injEq, FieldDetails.mk.injEq,
        and_true] at houtline himplicits
      obtain ⟨⟨rfl, rfl⟩, houtline⟩ := houtline
      obtain ⟨rfl, himplicits⟩ := himplicits
      rw [ih himplicits houtline]

namespace StructRepresentation

theorem same_iff {r s : StructRepresentation} :
    r.same s = true ↔ r.outline = s.outline ∧
      List.Forall₂ (Option.Rel fun v w => v.same w = true) r.implicitPlaces s.implicitPlaces := by
  cases r with
  | map details =>
    cases s with
    | map details' =>
      cases details <;> cases details' <;>
        simp [same, outline, implicitPlaces, sameDetails_iff, Entries.values]
    | _ => cases details <;> simp [same, outline, implicitPlaces]
  | _ =>
    cases s with
    | map details => cases details <;> simp [same, outline, implicitPlaces]
    | _ => simp [same, outline, implicitPlaces]

theorem eq_of_outline {r s : StructRepresentation} (houtline : r.outline = s.outline)
    (himplicits : r.implicitPlaces = s.implicitPlaces) : r = s := by
  cases r with
  | map details =>
    cases s with
    | map details' =>
      cases details <;> cases details' <;>
        simp only [outline, Option.map_none, Option.map_some, map.injEq, reduceCtorEq,
          Option.some.injEq] at houtline ⊢
      case some.some es fs =>
        simp only [implicitPlaces, Entries.values, List.map_map] at himplicits
        cases es
        cases fs
        rw [details_eq_of_outline houtline himplicits]
    | _ => cases houtline
  | _ =>
    cases s with
    | map details => cases houtline
    | _ => exact houtline

end StructRepresentation

namespace Definition

/-- **Equality compares outlines, references and values.** -/
theorem same_iff {d e : Definition} :
    d.same e = true ↔ d.outline = e.outline ∧
      List.Forall₂ (fun r s => r.same s = true) d.references e.references ∧
        List.Forall₂ (Option.Rel fun v w => v.same w = true) d.implicitPlaces e.implicitPlaces := by
  cases d with
  | link target =>
    cases e with
    | link target' =>
      cases target <;> cases target' <;> simp [same, outline, references, implicitPlaces]
    | _ => cases target <;> simp [same, outline]
  | struct fields representation =>
    cases e with
    | struct fields' representation' =>
      simp only [same, Bool.and_eq_true, sameFields_iff, StructRepresentation.same_iff, outline,
        Definition.struct.injEq, references, implicitPlaces]
      tauto
    | _ => simp [same, outline]
  | union members representation =>
    cases e with
    | union members' representation' =>
      simp only [same, Bool.and_eq_true, sameReferences_iff, beq_iff_eq, outline,
        Definition.union.injEq, references, implicitPlaces, List.forall₂_nil_left_iff, and_true]
      refine ⟨fun h => ⟨⟨?_, h.2⟩, h.1⟩, fun h => ⟨h.2, h.1.2⟩⟩
      rw [List.map_const', List.map_const', h.1.length_eq]
    | _ => simp [same, outline]
  | map key value valueNullable representation =>
    cases e with
    | map key' value' valueNullable' representation' =>
      simp only [same, Bool.and_eq_true, beq_iff_eq, outline, Definition.map.injEq, true_and,
        references, List.forall₂_cons, List.Forall₂.nil, and_true, implicitPlaces]
      tauto
    | _ => simp [same, outline]
  | list value valueNullable =>
    cases e with
    | list value' valueNullable' =>
      simp only [same, Bool.and_eq_true, beq_iff_eq, outline, Definition.list.injEq, true_and,
        references, List.forall₂_cons, List.Forall₂.nil, and_true, implicitPlaces]
      tauto
    | _ => simp [same, outline]
  | _ => cases e <;> simp [same, outline, references, implicitPlaces]

/-- A definition is its outline with its references and values. -/
theorem eq_of_outline {d e : Definition} (houtline : d.outline = e.outline)
    (hreferences : d.references = e.references) (himplicits : d.implicitPlaces = e.implicitPlaces) :
    d = e := by
  cases d with
  | link target =>
    cases e <;> simp only [outline, reduceCtorEq, Definition.link.injEq] at houtline
    case link target' => cases target <;> cases target' <;> simp_all [references]
  | struct fields representation =>
    cases e <;> simp only [outline, reduceCtorEq, Definition.struct.injEq] at houtline
    case struct fields' representation' =>
      rw [fields_eq_of_outline houtline.1 hreferences,
        StructRepresentation.eq_of_outline houtline.2 himplicits]
  | _ => cases e <;> simp_all [outline, references]

/-! ### Finite values -/

theorem FiniteImplicits.isFinite {d : Definition} (h : d.FiniteImplicits) {v : ImplicitValue}
    (hv : some v ∈ d.implicitPlaces) : v.IsFinite := by
  cases d with
  | struct fields representation =>
    cases representation with
    | map details =>
      cases details with
      | none => cases hv
      | some es =>
        obtain ⟨details, hdetails, hv⟩ := List.mem_map.1 hv
        obtain ⟨e, he, rfl⟩ := List.mem_map.1 hdetails
        exact fun x hx => h e he x (hv.trans (congrArg some hx))
    | _ => cases hv
  | _ => cases hv

theorem outline_asWritten (d : Definition) : d.asWritten.outline = d.outline := by
  cases d with
  | link target =>
    cases target with
    | none => rw [asWritten]
    | some target =>
      rw [asWritten]
      rfl
  | struct fields representation =>
    have hfields : (fieldsAsWritten fields).map Field.outline = fields.map Field.outline := by
      induction fields with
      | nil => rw [fieldsAsWritten]
      | cons f rest ih =>
        cases f
        rw [fieldsAsWritten, List.map_cons, ih]
        rfl
    rw [asWritten, outline, outline, hfields]
    cases representation with
    | map details =>
      cases details with
      | none => rfl
      | some es =>
        simp only [StructRepresentation.asWritten, StructRepresentation.outline, Option.map_some,
          detailsOutline, detailsAsWritten, List.map_map]
        rfl
    | _ => rfl
  | union members representation =>
    rw [asWritten, outline, outline, referencesAsWritten_eq_map, List.map_map]
    rfl
  | _ => rw [asWritten] <;> first | rfl | simp

theorem implicitPlaces_asWritten (d : Definition) :
    d.asWritten.implicitPlaces = d.implicitPlaces.map (Option.map ImplicitValue.asWritten) := by
  cases d with
  | link target => cases target <;> (rw [asWritten]; rfl)
  | struct fields representation =>
    rw [asWritten, implicitPlaces, implicitPlaces]
    cases representation with
    | map details =>
      cases details with
      | none => rfl
      | some es =>
        simp only [StructRepresentation.asWritten, StructRepresentation.implicitPlaces,
          Option.map_some, detailsAsWritten, Entries.values, List.map_map]
        rfl
    | _ => rfl
  | _ => rw [asWritten] <;> first | rfl | simp

/-- Whether the implicit values in a definition and in all that it contains are finite. -/
def AllFinite (d : Definition) : Prop :=
  ∀ e ∈ d :: d.inlines, e.FiniteImplicits

theorem AllFinite.of_mem_references {d e : Definition} (h : d.AllFinite)
    (he : .inline e ∈ d.references) : e.AllFinite :=
  fun f hf => h f (List.mem_cons_of_mem _ ((sublist_inlines_of_mem_references he).subset hf))

/-- What is written of a definition with finite values is the definition. -/
theorem AllFinite.asWritten_eq {d : Definition} (h : d.AllFinite) : d.asWritten = d := by
  induction d using reference_induction with
  | step d ih =>
    refine eq_of_outline d.outline_asWritten ?_ ?_
    · rw [d.references_asWritten]
      refine (List.map_congr_left fun r hr => ?_).trans (List.map_id _)
      cases r with
      | named name => rw [Reference.asWritten, id]
      | inline e => rw [Reference.asWritten, ih e hr (h.of_mem_references hr), id]
    · rw [d.implicitPlaces_asWritten]
      refine (List.map_congr_left fun v hv => ?_).trans (List.map_id _)
      cases v with
      | none => rfl
      | some v =>
        have hfinite := (h d (List.mem_cons_self ..)).isFinite hv
        rw [Option.map_some, ImplicitValue.asWritten_of_isFinite hfinite, id]

/-- A definition with finite values is equal to itself. -/
theorem AllFinite.same_self {d : Definition} (h : d.AllFinite) : d.same d = true := by
  induction d using reference_induction with
  | step d ih =>
    refine same_iff.2 ⟨rfl, List.forall₂_same.2 fun r hr => ?_, List.forall₂_same.2 fun v hv => ?_⟩
    · cases r with
      | named name =>
        rw [Reference.same]
        exact beq_self_eq_true name
      | inline e =>
        rw [Reference.same]
        exact ih e hr (h.of_mem_references hr)
    · cases v with
      | none => exact .none
      | some v =>
        exact .some (ImplicitValue.same_self ((h d (List.mem_cons_self ..)).isFinite hv))

end Definition

/-! ### Zeros -/

/-- The signs of the zeros in a definition and in all that it contains. -/
def Definition.zeroSigns (d : Definition) : List Bool :=
  (d :: d.inlines).flatMap fun e => WireSchema.zeroSigns e.implicitPlaces

/-- The signs of the zeros in a definition in place. -/
def Reference.zeroSigns : Reference → List Bool
  | .named _ => []
  | .inline d => d.zeroSigns

theorem Reference.zeroSigns_eq_flatMap (r : Reference) :
    r.zeroSigns = r.inlines.flatMap fun e => WireSchema.zeroSigns e.implicitPlaces := by
  cases r <;> rw [inlines] <;> rfl

theorem Definition.zeroSigns_eq_append (d : Definition) :
    d.zeroSigns =
      WireSchema.zeroSigns d.implicitPlaces ++ d.references.flatMap Reference.zeroSigns := by
  rw [zeroSigns, List.flatMap_cons, inlines_eq_flatMap, List.flatMap_assoc]
  exact congrArg _ (List.flatMap_congr fun r _ => r.zeroSigns_eq_flatMap.symm)

/-- References that are the same are equal, if this holds of the definitions in place. -/
theorem references_eq_of_same {rs ss : List Reference}
    (h : List.Forall₂ (fun r s => Reference.same r s = true) rs ss)
    (hinline : ∀ d, .inline d ∈ rs → ∀ (e : Definition) (t u : List Bool), d.same e = true →
      d.zeroSigns ++ t = e.zeroSigns ++ u → d = e ∧ t = u) {t u : List Bool}
    (hsigns : rs.flatMap Reference.zeroSigns ++ t = ss.flatMap Reference.zeroSigns ++ u) :
    rs = ss ∧ t = u := by
  induction h with
  | nil => exact ⟨rfl, hsigns⟩
  | @cons r s rs ss hrs _ ih =>
    rw [List.flatMap_cons, List.flatMap_cons, List.append_assoc, List.append_assoc] at hsigns
    have hhead : r = s ∧ rs.flatMap Reference.zeroSigns ++ t =
        ss.flatMap Reference.zeroSigns ++ u := by
      cases r <;> cases s <;> simp only [Reference.same, beq_iff_eq, Bool.false_eq_true] at hrs
      case named.named name name' => exact ⟨congrArg Reference.named hrs, hsigns⟩
      case inline.inline d e =>
        obtain ⟨hde, hrest⟩ := hinline d (List.mem_cons_self ..) e _ _ hrs hsigns
        exact ⟨congrArg Reference.inline hde, hrest⟩
    obtain ⟨hrest, htail⟩ := ih (fun d hd => hinline d (List.mem_cons_of_mem _ hd)) hhead.2
    exact ⟨by rw [hhead.1, hrest], htail⟩

namespace Definition

/-- Definitions that are equal and have zeros of the same signs are one. -/
theorem eq_of_same_of_zeroSigns {d e : Definition} {t u : List Bool} (h : d.same e = true)
    (hsigns : d.zeroSigns ++ t = e.zeroSigns ++ u) : d = e ∧ t = u := by
  induction d using reference_induction generalizing e t u with
  | step d ih =>
    obtain ⟨houtline, hreferences, himplicits⟩ := same_iff.1 h
    rw [zeroSigns_eq_append, zeroSigns_eq_append, List.append_assoc, List.append_assoc] at hsigns
    obtain ⟨hplaces, hsigns⟩ := WireSchema.eq_of_same_of_zeroSigns himplicits hsigns
    obtain ⟨hrefs, htail⟩ :=
      references_eq_of_same hreferences (fun f hf g _ _ hfg => ih f hf hfg) hsigns
    exact ⟨eq_of_outline houtline hrefs hplaces, htail⟩

theorem eq_of_same {d e : Definition} (h : d.same e = true) (hsigns : d.zeroSigns = e.zeroSigns) :
    d = e :=
  (eq_of_same_of_zeroSigns (t := []) (u := []) h (congrArg (· ++ []) hsigns)).1

/-- Among definitions with finite values the text is all there is. -/
theorem AllFinite.text_inj {d e : Definition} (hd : d.AllFinite) (he : e.AllFinite) :
    d.text = e.text ↔ d = e := by
  refine ⟨fun h => ?_, fun h => congrArg text h⟩
  rw [← hd.asWritten_eq, ← he.asWritten_eq, asWritten_eq_of_text_eq h]

end Definition

/-! ## Schemas -/

/-- Whether all implicit values in a schema are finite. -/
def Schema.AllFinite (s : Schema) : Prop :=
  ∀ d ∈ s.types.values, d.AllFinite

theorem sameDeclarations_iff {ds es : List (TypeName × Definition)} :
    sameDeclarations ds es = true ↔ ds.map Prod.fst = es.map Prod.fst ∧
      List.Forall₂ (fun d e => Definition.same d e = true) (ds.map Prod.snd) (es.map Prod.snd) := by
  induction ds generalizing es with
  | nil => cases es <;> simp [sameDeclarations]
  | cons d ds ih =>
    cases es with
    | nil => simp [sameDeclarations]
    | cons e es =>
      obtain ⟨name, d⟩ := d
      obtain ⟨name', e⟩ := e
      simp only [sameDeclarations, Bool.and_eq_true, beq_iff_eq, ih, List.map_cons,
        List.cons.injEq, List.forall₂_cons]
      tauto

theorem Schema.AllFinite.text_inj {s t : Schema} (hs : s.AllFinite) (ht : t.AllFinite) :
    s.text = t.text ↔ s = t := by
  refine ⟨fun h => ?_, fun h => congrArg Schema.text h⟩
  have hjson := Json.asWritten_eq_of_compact_eq h
  simp only [Schema.toJson, Entries.toJson, Json.asWritten, Json.entriesAsWritten,
    Json.object.injEq, List.cons.injEq, Prod.mk.injEq, true_and, and_true] at hjson
  have hentries := Entries.map_eq_of_toJson id Definition.toJson Definition.asWritten
    Function.injective_id Definition.asWritten_eq_of_toJson hjson
  have hself : ∀ r : Schema, r.AllFinite →
      r.types.toList.map (fun e => (e.1, e.2.asWritten)) = r.types.toList := by
    intro r hr
    refine (List.map_congr_left fun e he => ?_).trans (List.map_id _)
    rw [(hr e.2 (List.mem_map_of_mem he)).asWritten_eq, id]
  rw [hself s hs, hself t ht] at hentries
  obtain ⟨⟨stypes⟩⟩ := s
  obtain ⟨⟨ttypes⟩⟩ := t
  exact congrArg (Schema.mk ∘ Entries.mk) hentries

/-- Schemas that are equal and have zeros of the same signs are one. -/
theorem Schema.eq_of_same {s t : Schema} (h : s.same t = true)
    (hsigns : s.types.values.map Definition.zeroSigns = t.types.values.map Definition.zeroSigns) :
    s = t := by
  obtain ⟨hnames, hsame⟩ := sameDeclarations_iff.1 h
  have hvalues : s.types.toList.map Prod.snd = t.types.toList.map Prod.snd := by
    rw [Entries.values, Entries.values] at hsigns
    generalize s.types.toList.map Prod.snd = ds, t.types.toList.map Prod.snd = es at hsame hsigns
    induction hsame with
    | nil => rfl
    | @cons d e ds es hde _ ih =>
      obtain ⟨hhead, hrest⟩ := List.cons.inj hsigns
      rw [Definition.eq_of_same hde hhead, ih hrest]
  obtain ⟨⟨stypes⟩⟩ := s
  obtain ⟨⟨ttypes⟩⟩ := t
  have hdeclarations := (List.zip_of_prod hnames hvalues).trans (List.zip_of_prod rfl rfl).symm
  exact congrArg (Schema.mk ∘ Entries.mk) hdeclarations

theorem Schema.AllFinite.same_self {s : Schema} (h : s.AllFinite) : s.same s = true :=
  sameDeclarations_iff.2 ⟨rfl, List.forall₂_same.2 fun d hd => (h d hd).same_self⟩

/-! ## The theorem -/

/-- **Equal texts, equal declarations, and the signs of zeros.**  If all implicit values are finite,
two definitions have one text exactly if they are equal and their zeros have the same signs, in
order; and so have two schemas, whose fingerprints are equal then. -/
theorem text_eq_iff_same {d e : Definition} (hd : d.AllFinite) (he : e.AllFinite) {s t : Schema}
    (hs : s.AllFinite) (ht : t.AllFinite) :
    (d.text = e.text ↔ d.same e = true ∧ d.zeroSigns = e.zeroSigns) ∧
      (s.text = t.text ↔ s.same t = true ∧
        s.types.values.map Definition.zeroSigns = t.types.values.map Definition.zeroSigns) ∧
      (s.same t = true →
        s.types.values.map Definition.zeroSigns = t.types.values.map Definition.zeroSigns →
          ∀ digest, s.fingerprint digest = t.fingerprint digest) := by
  have hschemas : s.text = t.text ↔ s.same t = true ∧
      s.types.values.map Definition.zeroSigns = t.types.values.map Definition.zeroSigns := by
    rw [hs.text_inj ht]
    refine ⟨?_, fun ⟨hsame, hsigns⟩ => Schema.eq_of_same hsame hsigns⟩
    rintro rfl
    exact ⟨hs.same_self, rfl⟩
  refine ⟨?definitions, hschemas, fun hsame hsigns digest => ?fingerprints⟩
  case definitions =>
    rw [hd.text_inj he]
    refine ⟨?_, fun ⟨hsame, hsigns⟩ => Definition.eq_of_same hsame hsigns⟩
    rintro rfl
    exact ⟨hd.same_self, rfl⟩
  case fingerprints => exact congrArg digest (hschemas.2 ⟨hsame, hsigns⟩)

/-- A list of structs with one field, which is a zero of some sign if it is absent. -/
def zeroField (negative : Bool) : Definition :=
  let zero : Binary64 := ⟨if negative then 0x8000000000000000 else 0⟩
  .list (.inline (.struct [.mk "x" (.named "Float") false false]
    (.map (some ⟨[("x", ⟨none, some (.float zero)⟩)]⟩)))) false

theorem allFinite_zeroField (negative : Bool) : (zeroField negative).AllFinite := by
  intro e he
  rw [zeroField, Definition.inlines, Reference.inlines, Definition.inlines] at he
  rcases List.mem_cons.1 he with rfl | he
  · exact trivial
  · rcases List.mem_cons.1 he with rfl | he
    · intro details hdetails x hx
      obtain rfl := List.mem_singleton.1 hdetails
      obtain rfl := ImplicitValue.float.inj (Option.some.inj hx)
      cases negative <;> decide
    · cases he

theorem same_zeroField : (zeroField false).same (zeroField true) = true := by
  decide +kernel

/-- The texts of the two differ, since their zeros do. -/
theorem text_eq_iff_same_zeroField :
    (zeroField false).AllFinite ∧ (zeroField true).AllFinite ∧
      (zeroField false).text ≠ (zeroField true).text ∧
        (Schema.mk ⟨[("A", zeroField false)]⟩).text ≠
          (Schema.mk ⟨[("A", zeroField true)]⟩).text := by
  have hfinite : ∀ negative, (Schema.mk ⟨[("A", zeroField negative)]⟩).AllFinite := by
    intro negative d hd
    rw [List.mem_singleton.1 hd]
    exact allFinite_zeroField negative
  have hsigns : (zeroField false).zeroSigns ≠ (zeroField true).zeroSigns := by decide +kernel
  obtain ⟨hdefinitions, hschemas, -⟩ := text_eq_iff_same (allFinite_zeroField false)
    (allFinite_zeroField true) (hfinite false) (hfinite true)
  refine ⟨allFinite_zeroField false, allFinite_zeroField true, fun h => ?_, fun h => ?_⟩
  · exact hsigns (hdefinitions.1 h).2
  · exact hsigns (List.cons.inj (hschemas.1 h).2).1

/-- Equal declarations may have different checksums. -/
theorem not_checksum_eq_of_same :
    ¬ ∀ d e : Definition, d.AllFinite → e.AllFinite → d.same e = true →
      Sha256.hexOfText d.text = Sha256.hexOfText e.text := by
  intro hall
  have hchecksum : Sha256.hexOfText (zeroField false).text ≠
      Sha256.hexOfText (zeroField true).text := by decide +kernel
  exact hchecksum (hall _ _ (allFinite_zeroField false) (allFinite_zeroField true) same_zeroField)

end WireSchema
