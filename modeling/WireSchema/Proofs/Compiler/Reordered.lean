import Mathlib.Data.Set.Function
import WireSchema.Proofs.Compiler.Groups
import WireSchema.Proofs.Compiler.Guarded
import WireSchema.Proofs.Compiler.Meaning
import WireSchema.Proofs.Declaration.Relabel
import WireSchema.Proofs.Resolution.Rearranged

/-!
# Declarations in another order

A schema and one with the same declarations in another order compile to the same types, up to
where they stand (`Compiler.compile_reordered`).

That both compile or neither does follows from what a schema has to fulfil in order to compile
(`Compiler.exists_compile_iff`), for which the order of declarations does not matter.

Declared types are told apart by their names, and anonymous ones by the canonical texts of
their definitions.  Both type systems have the same of these labels, so that one comes from the
other by moving every type to where its label is (`reposition`).  Which declaration met a
definition in place first, and whether as written there or in another way with the same
canonical text, makes no difference to how the content is written (`TypeSystem.Reordered`), nor
to the content if implicit values are finite (`TypeSystem.Carries`).  Of definitions in place that
differ in the sign of an infinity alone, the first one that is met decides
(`Compiler.not_carries_infinities`).
-/

namespace WireSchema

/-! ## Positions in two orders -/

section

variable {α : Type} [DecidableEq α] {l l' : List α}

/-- Where what is at a position of one list is in another. -/
def reposition (l l' : List α) (i : Nat) : Nat :=
  match l[i]? with
  | some x => l'.idxOf x
  | none => i

theorem reposition_idxOf {x : α} (hx : x ∈ l) : reposition l l' (l.idxOf x) = l'.idxOf x := by
  rw [reposition, List.getElem?_idxOf hx]

theorem reposition_of_getElem? {i : Nat} {x : α} (h : l[i]? = some x) :
    reposition l l' i = l'.idxOf x := by
  rw [reposition, h]

theorem reposition_of_getElem?_eq_none {i : Nat} (h : l[i]? = none) : reposition l l' i = i := by
  rw [reposition, h]

theorem reposition_lt (h : l.Perm l') {i : Nat} (hi : i < l.length) :
    reposition l l' i < l'.length := by
  rw [reposition_of_getElem? (List.getElem?_eq_getElem hi)]
  exact List.idxOf_lt_length_of_mem (h.mem_iff.1 (List.getElem_mem hi))

theorem leftInverse_reposition (hnodup : l.Nodup) (h : l.Perm l') :
    Function.LeftInverse (reposition l' l) (reposition l l') := by
  intro i
  cases hi : l[i]? with
  | some x =>
    obtain ⟨hlt, rfl⟩ := List.getElem?_eq_some_iff.1 hi
    rw [reposition_of_getElem? hi, reposition_idxOf (h.mem_iff.1 (List.getElem_mem hlt)),
      hnodup.idxOf_getElem]
  | none =>
    have hi' : l'[i]? = none := by
      rw [List.getElem?_eq_none_iff, ← h.length_eq]
      exact List.getElem?_eq_none_iff.1 hi
    rw [reposition_of_getElem?_eq_none hi, reposition_of_getElem?_eq_none hi']

/-- The positions of two orders correspond to each other. -/
theorem bijOn_reposition (hnodup : l.Nodup) (h : l.Perm l') :
    Set.BijOn (reposition l l') (Set.Iio l.length) (Set.Iio l'.length) := by
  have hinv : Set.InvOn (reposition l' l) (reposition l l') (Set.Iio l.length)
      (Set.Iio l'.length) :=
    ⟨fun i _ => leftInverse_reposition hnodup h i,
      fun i _ => leftInverse_reposition (h.nodup_iff.1 hnodup) h.symm i⟩
  exact hinv.bijOn (fun _ hi => reposition_lt h hi) fun _ hi => reposition_lt h.symm hi

end

/-! ## Schemas that compile -/

/-- A schema in which nothing is wrong with any definition, by itself or together with one
that it refers to. -/
structure Schema.Sound (settings : Settings) (s : Schema) : Prop where
  /-- Nothing in a declaration has a local fault. -/
  declarations : ∀ e ∈ s.types.toList, ¬ e.2.Faulty s.types.keys
  /-- No definition breaks a rule together with one that it refers to. -/
  together : ∀ e ∈ s.types.toList, ∀ d ∈ e.2 :: e.2.inlines,
    ¬ d.CrossFault settings s fun k => ¬ k.Faulty s.types.keys

namespace Compiler

section

variable {c : Compiler} {s : Schema} (hnames : s.types.keys.Nodup)
  (hseparates : Separates c.digest s.inlines)
  (hnesting : ∀ d ∈ s.types.values, d.nesting ≤ c.settings.maxInlineDepth)

include hnames hseparates hnesting

theorem errors_eq_nil_iff : c.errors s (c.declarationPass s) = [] ↔ s.Sound c.settings := by
  have hblames : c.errors s (c.declarationPass s) = [] ↔
      ∀ e ∈ s.types.toList, ¬ c.Blames s e.1 := by
    constructor
    · intro hnil e _ hblames
      rw [blames_iff_exists_error, hnil] at hblames
      obtain ⟨error, herror, -⟩ := hblames
      cases herror
    · intro hnone
      rw [List.eq_nil_iff_forall_not_mem]
      intro error herror
      obtain ⟨e, he, hname⟩ := List.mem_map.1 (typeName_mem_keys herror)
      exact hnone e he (blames_iff_exists_error.2 ⟨error, herror, hname.symm⟩)
  rw [hblames]
  constructor
  · intro hnone
    have hsound : ∀ e ∈ s.types.toList, ¬ e.2.Faulty s.types.keys := by
      intro e he hfaulty
      refine hnone e he ((blames_iff_of_nodup hnames).2 (Or.inl ?_))
      exact (exists_reported_iff hnames hseparates hnesting he).2 hfaulty
    refine ⟨hsound, fun e he d hd hcross => ?_⟩
    refine hnone e he ((blames_iff_of_nodup hnames).2 (Or.inr ?_))
    exact (exists_crossFault_iff hnames hseparates hnesting he (hsound e he)).2 ⟨d, hd, hcross⟩
  · intro hsound e he hblames
    rcases (blames_iff_of_nodup hnames).1 hblames with hreported | hcross
    · exact hsound.declarations e he
        ((exists_reported_iff hnames hseparates hnesting he).1 hreported)
    · obtain ⟨d, hd, hcross⟩ := (exists_crossFault_iff hnames hseparates hnesting he
        (hsound.declarations e he)).1 hcross
      exact hsound.together e he d hd hcross

/-- **What a schema has to fulfil in order to compile.** -/
theorem exists_compile_iff : (∃ ts, c.compile s = .ok ts) ↔ s.Sound c.settings := by
  rw [← errors_eq_nil_iff hnames hseparates hnesting]
  constructor
  · rintro ⟨ts, h⟩
    exact ((c.compile_eq_ok_iff s).1 h).1
  · intro herrors
    obtain ⟨types, htypes⟩ := exists_assemble (body_ne_none herrors)
    exact ⟨⟨types, s.fingerprint c.digest⟩, (c.compile_eq_ok_iff s).2 ⟨herrors, htypes, rfl⟩⟩

end

end Compiler

/-! ## Schemas in another order -/

/-- An entry is at the position of its key. -/
theorem Entries.idxOf_keys_of_getElem? {κ ν : Type} [DecidableEq κ] {es : Entries κ ν}
    (hnodup : es.keys.Nodup) {i : Nat} {key : κ} {value : ν}
    (h : es.toList[i]? = some (key, value)) : es.keys.idxOf key = i := by
  have hkey : es.keys[i]? = some key := by
    rw [keys, List.getElem?_map, h]
    rfl
  obtain ⟨hlt, rfl⟩ := List.getElem?_eq_some_iff.1 hkey
  exact hnodup.idxOf_getElem i hlt

theorem Definition.CrossFault.mono {settings : Settings} {s s' : Schema}
    {counts counts' : Definition → Prop} (htarget : s.target? = s'.target?)
    (hcounts : ∀ k, counts k → counts' k) {d : Definition} (h : d.CrossFault settings s counts) :
    d.CrossFault settings s' counts' := by
  cases h with
  | mapKey strict target counted unfit =>
    exact .mapKey strict (htarget ▸ target) (hcounts _ counted) unfit
  | kinded entry target counted unfit =>
    exact .kinded entry (htarget ▸ target) (hcounts _ counted) unfit
  | inline entry target counted unfit =>
    exact .inline entry (htarget ▸ target) (hcounts _ counted) unfit
  | implicit field given implicit target counted unfit =>
    exact .implicit field given implicit (htarget ▸ target) (hcounts _ counted) unfit

namespace Schema

variable {s s' : Schema} (hnames : s.types.keys.Nodup)
  (hperm : s.types.toList.Perm s'.types.toList)

include hperm

theorem keys_perm : s.types.keys.Perm s'.types.keys :=
  hperm.map Prod.fst

theorem mem_inlines_iff_of_perm {d : Definition} : d ∈ s.inlines ↔ d ∈ s'.inlines := by
  simp only [mem_inlines, hperm.mem_iff]

include hnames

theorem target?_of_perm : s.target? = s'.target? := by
  have hnames' : s'.types.keys.Nodup := (keys_perm hperm).nodup_iff.1 hnames
  funext r
  cases r with
  | inline d => rfl
  | named name =>
    refine Option.ext fun d => ?_
    have hleft := Entries.get?_eq_some_iff_of_nodup hnames name d
    have hright := Entries.get?_eq_some_iff_of_nodup hnames' name d
    exact hleft.trans (hperm.mem_iff.trans hright.symm)

/-- Whether a schema is sound does not depend on the order of its declarations. -/
theorem Sound.of_perm {settings : Settings} (h : s.Sound settings) : s'.Sound settings where
  declarations e he hfaulty :=
    h.declarations e (hperm.mem_iff.2 he)
      ((Definition.faulty_perm (keys_perm hperm) e.2).2 hfaulty)
  together e he d hd hcross := by
    refine h.together e (hperm.mem_iff.2 he) d hd ?_
    refine hcross.mono (target?_of_perm hnames hperm).symm fun k hsound hfaulty => ?_
    exact hsound ((Definition.faulty_perm (keys_perm hperm) k).1 hfaulty)

end Schema

/-! ## Types and their labels -/

/-- What tells a compiled type apart from others: the name of a declared type, or the canonical
text of the definitions of an anonymous one. -/
inductive TypeLabel where
  | declared (name : TypeName)
  | anonymous (text : String)
  deriving DecidableEq

/-- The label of the type at a reference. -/
def Reference.label : Reference → TypeLabel
  | .named name => .declared name
  | .inline d => .anonymous d.canonical.text

namespace Schema

/-- The labels of the types that a schema compiles to, in their order. -/
def labels (s : Schema) : List TypeLabel :=
  s.types.keys.map .declared ++ (firsts s.inlineTexts).map .anonymous

variable {s s' : Schema}

theorem length_labels (s : Schema) :
    s.labels.length = s.types.size + (firsts s.inlineTexts).length := by
  rw [labels, List.length_append, List.length_map, List.length_map, Entries.keys, List.length_map]
  rfl

theorem nodup_firsts_inlineTexts (s : Schema) : (firsts s.inlineTexts).Nodup :=
  nodup_firstsAfter _ _

theorem nodup_labels (hnames : s.types.keys.Nodup) : s.labels.Nodup := by
  refine List.nodup_append.2 ⟨hnames.map fun _ _ => TypeLabel.declared.inj,
    s.nodup_firsts_inlineTexts.map fun _ _ => TypeLabel.anonymous.inj, fun x hx y hy heq => ?_⟩
  obtain ⟨name, -, rfl⟩ := List.mem_map.1 hx
  obtain ⟨text, -, rfl⟩ := List.mem_map.1 hy
  cases heq

theorem idxOf_declared {name : TypeName} (hname : name ∈ s.types.keys) :
    s.labels.idxOf (.declared name) = s.types.keys.idxOf name := by
  rw [labels, List.idxOf_append_of_mem (List.mem_map_of_mem hname)]
  exact idxOf_map_of_inj fun _ _ => TypeLabel.declared.inj

theorem idxOf_anonymous (s : Schema) (text : String) :
    s.labels.idxOf (.anonymous text) =
      s.types.size + (firsts s.inlineTexts).idxOf text := by
  have hnone : TypeLabel.anonymous text ∉ s.types.keys.map TypeLabel.declared := by simp
  have hidx : ((firsts s.inlineTexts).map TypeLabel.anonymous).idxOf (.anonymous text) =
      (firsts s.inlineTexts).idxOf text := idxOf_map_of_inj fun _ _ => TypeLabel.anonymous.inj
  rw [labels, List.idxOf_append_of_notMem hnone, hidx, List.length_map, Entries.keys,
    List.length_map]
  rfl

theorem mem_labels_of_inline {d : Definition} (hd : d ∈ s.inlines) :
    (Reference.inline d).label ∈ s.labels :=
  List.mem_append_right _ (List.mem_map_of_mem (mem_firsts_inlineTexts hd))

theorem labels_perm (hperm : s.types.toList.Perm s'.types.toList) :
    s.labels.Perm s'.labels := by
  refine ((keys_perm hperm).map _).append (List.Perm.map _ ?_)
  rw [List.perm_ext_iff_of_nodup s.nodup_firsts_inlineTexts s'.nodup_firsts_inlineTexts]
  intro text
  simp only [firsts, mem_firstsAfter, inlineTexts, List.mem_map, mem_inlines_iff_of_perm hperm]

end Schema

namespace TypeSystem.Represents

variable {ts : TypeSystem} {s : Schema} {place : Reference → TypeId}

/-- A declared name is at the position of its declaration. -/
theorem place_named (h : ts.Represents s place) (hnames : s.types.keys.Nodup) {name : TypeName}
    (hname : name ∈ s.types.keys) : place (.named name) = s.types.keys.idxOf name := by
  obtain ⟨d, hd⟩ := h.named name hname
  exact (Entries.idxOf_keys_of_getElem? hnames hd).symm

/-- Every reference is at the position of its label. -/
theorem place_eq_idxOf (h : ts.Represents s place) (hnames : s.types.keys.Nodup) {d : Definition}
    (hd : d ∈ s.types.values ∨ d ∈ s.inlines) {r : Reference} (hr : r ∈ d.references) :
    r.label ∈ s.labels ∧ place r = s.labels.idxOf r.label := by
  cases r with
  | named name =>
    have hname := h.resolved d hd name hr
    refine ⟨List.mem_append_left _ (List.mem_map_of_mem hname), ?_⟩
    rw [h.place_named hnames hname, Reference.label, Schema.idxOf_declared hname]
  | inline e =>
    have he : e ∈ s.inlines := by
      have hmem := Definition.mem_inlines_of_mem_references hr
      rcases hd with hd | hd
      · obtain ⟨entry, hentry, rfl⟩ := List.mem_map.1 hd
        exact Schema.mem_inlines.2 ⟨entry, hentry, hmem⟩
      · exact Schema.inlines_subset hd hmem
    refine ⟨Schema.mem_labels_of_inline he, ?_⟩
    rw [h.inline e he, Reference.label, Schema.idxOf_anonymous]

/-- A declared type is that of a declaration. -/
theorem exists_declaration (h : ts.Represents s place) {id : TypeId} {name : TypeName} {b : Body}
    (ht : ts.type? id = some ⟨name, false, b⟩) :
    ∃ d, s.types.toList[id]? = some (name, d) ∧ d.linked place = some b := by
  have hlt : id < s.types.size := by
    by_contra hge
    exact Bool.false_ne_true (h.anonymous id _ (Nat.not_lt.1 hge) ht)
  have hget := List.getElem?_eq_getElem hlt
  obtain ⟨b', ht', hlinked⟩ := h.declared id _ _ hget
  cases Option.some.inj (ht.symm.trans ht')
  exact ⟨_, hget, hlinked⟩

/-- An anonymous type is that of a definition in place. -/
theorem exists_inline (h : ts.Represents s place) {id : TypeId} {t : CompiledType}
    (ht : ts.type? id = some t) (hanonymous : t.anonymous = true) :
    ∃ d ∈ s.inlines, place (.inline d) = id := by
  have hle : s.types.size ≤ id := by
    by_contra hlt
    obtain ⟨b, ht', -⟩ :=
      h.declared id _ _ (List.getElem?_eq_getElem (Nat.not_le.1 hlt))
    cases Option.some.inj (ht.symm.trans ht')
    cases hanonymous
  have hlt : id - s.types.size < (firsts s.inlineTexts).length := by
    have hsize : id < ts.size := (List.getElem?_eq_some_iff.1 ht).1
    rw [h.size] at hsize
    exact Nat.sub_lt_left_of_lt_add hle hsize
  obtain ⟨d, hd, htext⟩ := List.mem_map.1 (mem_firstsAfter.1 (List.getElem_mem hlt)).1
  refine ⟨d, hd, ?_⟩
  have hidx := s.nodup_firsts_inlineTexts.idxOf_getElem _ hlt
  rw [h.inline d hd, htext, hidx, Nat.add_sub_of_le hle]

end TypeSystem.Represents

/-! ## The theorem -/

/-- A definition without a local fault has a content that depends on the positions of its
references. -/
theorem Definition.linked_eq_of_references {declared : List TypeName} {d : Definition}
    (hsound : ¬ d.LocalFault declared) {ρ σ : Reference → TypeId}
    (h : ∀ r ∈ d.references, ρ r = σ r) : d.linked ρ = d.linked σ := by
  refine linked_eq_of_positions (fun name hname => h _ ?_) h
  cases d with
  | union members representation =>
    have haccepted : (representation.layout (.ofMembers declared members)).faults = [] := by
      by_contra hrejected
      exact hsound (.representation hrejected)
    have hlocates := MemberNames.locates_ofMembers declared members
    exact MemberNames.mem_of_mem_keys
      (UnionRepresentation.listed_subset hlocates haccepted name hname)
  | _ => cases hname

/-- One type system holds the types of another at positions that a function gives, and
writes nothing but positions in another way. -/
structure TypeSystem.Reordered (ts ts' : TypeSystem) (f : TypeId → TypeId) : Prop where
  /-- The positions of the types correspond to each other. -/
  positions : Set.BijOn f (Set.Iio ts.size) (Set.Iio ts'.size)
  /-- A declared type goes to the declared type of its name, which has its content. -/
  declared : ∀ id name b, ts.type? id = some ⟨name, false, b⟩ →
    ts'.type? (f id) = some ⟨name, false, b.relabel f⟩
  /-- An anonymous type goes to an anonymous type, which has its content as written. -/
  anonymous : ∀ id t, ts.type? id = some t → t.anonymous = true →
    ∃ t', ts'.type? (f id) = some t' ∧ t'.anonymous = true ∧
      t'.body.asWritten = (t.body.relabel f).asWritten

/-- A function carries every type of one type system to one of the other that has its content,
declared types to declared ones and anonymous types to anonymous ones. -/
def TypeSystem.Carries (ts ts' : TypeSystem) (f : TypeId → TypeId) : Prop :=
  ∀ id t, ts.type? id = some t → ∃ t', ts'.type? (f id) = some t' ∧
    t'.anonymous = t.anonymous ∧ t'.body = t.body.relabel f

theorem TypeSystem.Carries.relabel_mem {ts ts' : TypeSystem} {f : TypeId → TypeId}
    (h : ts.Carries ts' f) {b : Body} (hb : b ∈ ts.anonymousBodies) :
    b.relabel f ∈ ts'.anonymousBodies := by
  obtain ⟨t, ht, rfl⟩ := List.mem_map.1 hb
  obtain ⟨hmem, hanonymous⟩ := List.mem_filter.1 ht
  obtain ⟨id, hid⟩ := List.getElem?_of_mem hmem
  obtain ⟨t', ht', hanonymous', hbody⟩ := h id t hid
  exact hbody ▸ body_mem_anonymousBodies ht' (hanonymous'.trans hanonymous)

section

variable {s s' : Schema} {ts ts' : TypeSystem} {place place' : Reference → TypeId}
  (hnames : s.types.keys.Nodup) (hperm : s.types.toList.Perm s'.types.toList)
  (h : ts.Represents s place) (h' : ts'.Represents s' place')

include hnames hperm h h'

/-- A definition in a schema has its content in a reordered one, relabelled. -/
theorem TypeSystem.Represents.linked_eq {d : Definition}
    (hd : d ∈ s.types.values ∨ d ∈ s.inlines) (hsound : ¬ d.LocalFault s.types.keys) :
    d.linked place' = (d.linked place).map (Body.relabel (reposition s.labels s'.labels)) := by
  have hnames' : s'.types.keys.Nodup := (Schema.keys_perm hperm).nodup_iff.1 hnames
  have hinjective : (reposition s.labels s'.labels).Injective :=
    (leftInverse_reposition (s.nodup_labels hnames) (Schema.labels_perm hperm)).injective
  have hd' : d ∈ s'.types.values ∨ d ∈ s'.inlines :=
    hd.imp (hperm.map Prod.snd).mem_iff.1 (Schema.mem_inlines_iff_of_perm hperm).1
  rw [Definition.linked_relabel hinjective]
  refine Definition.linked_eq_of_references hsound fun r hr => ?_
  obtain ⟨hlabel, hplace⟩ := h.place_eq_idxOf hnames hd hr
  rw [(h'.place_eq_idxOf hnames' hd' hr).2, hplace, reposition_idxOf hlabel]

/-- Where a declared type is, there is its declaration in the reordered schema. -/
theorem TypeSystem.Represents.type?_declared
    (hsound : ∀ d ∈ s.types.values, ¬ d.LocalFault s.types.keys) {id : TypeId} {name : TypeName}
    {b : Body} (ht : ts.type? id = some ⟨name, false, b⟩) :
    ts'.type? (reposition s.labels s'.labels id) =
      some ⟨name, false, b.relabel (reposition s.labels s'.labels)⟩ := by
  have hnames' : s'.types.keys.Nodup := (Schema.keys_perm hperm).nodup_iff.1 hnames
  obtain ⟨d, hentry, hlinked⟩ := h.exists_declaration ht
  have hmem := List.mem_of_getElem? hentry
  have hvalue : d ∈ s.types.values := List.mem_map_of_mem hmem
  have hname : name ∈ s.types.keys := List.mem_map_of_mem hmem
  have hname' := (Schema.keys_perm hperm).mem_iff.1 hname
  have hposition : reposition s.labels s'.labels id = place' (.named name) := by
    have hlabel : .declared name ∈ s.labels :=
      List.mem_append_left _ (List.mem_map_of_mem hname)
    rw [← Entries.idxOf_keys_of_getElem? hnames hentry, ← Schema.idxOf_declared hname,
      reposition_idxOf hlabel, Schema.idxOf_declared hname', h'.place_named hnames' hname']
  obtain ⟨d', hentry'⟩ := h'.named name hname'
  have heq : (name, d') = (name, d) :=
    List.inj_on_of_nodup_map hnames' (List.mem_of_getElem? hentry') (hperm.mem_iff.1 hmem) rfl
  obtain rfl := (Prod.mk.inj heq).2
  obtain ⟨b', ht', hlinked'⟩ := h'.declared _ name d' hentry'
  rw [h.linked_eq hnames hperm h' (Or.inl hvalue) (hsound d' hvalue), hlinked,
    Option.map_some] at hlinked'
  rw [hposition, Option.some.inj hlinked']
  exact ht'

/-- Where an anonymous type is, there is one of the same definitions in the reordered
schema. -/
theorem TypeSystem.Represents.exists_anonymous
    (hsound : ∀ d ∈ s.inlines, ¬ d.LocalFault s.types.keys) {id : TypeId} {t : CompiledType}
    (ht : ts.type? id = some t) (hanonymous : t.anonymous = true) :
    ∃ t', ts'.type? (reposition s.labels s'.labels id) = some t' ∧ t'.anonymous = true ∧
      t'.body.asWritten = (t.body.relabel (reposition s.labels s'.labels)).asWritten ∧
        ((∀ d ∈ s.inlines, d.FiniteImplicits) →
          t'.body = t.body.relabel (reposition s.labels s'.labels)) := by
  obtain ⟨d, hd, rfl⟩ := h.exists_inline ht hanonymous
  have hd' := (Schema.mem_inlines_iff_of_perm hperm).1 hd
  have hposition : reposition s.labels s'.labels (place (.inline d)) = place' (.inline d) := by
    rw [h.inline d hd, h'.inline d hd', ← Schema.idxOf_anonymous, ← Schema.idxOf_anonymous]
    exact reposition_idxOf (Schema.mem_labels_of_inline hd)
  obtain ⟨t₀, b, ht₀, -, hlinked, hwritten⟩ := h.content d hd
  obtain rfl := Option.some.inj (ht.symm.trans ht₀)
  obtain ⟨t', b', ht', hanonymous', hlinked', hwritten'⟩ := h'.content d hd'
  have hrelabel := hlinked'
  rw [h.linked_eq hnames hperm h' (Or.inr hd) (hsound d hd), hlinked, Option.map_some] at hrelabel
  obtain rfl := Option.some.inj hrelabel
  rw [hposition]
  refine ⟨t', ht', hanonymous', ?_, fun hall => ?_⟩
  · rw [hwritten', Body.asWritten_relabel, Body.asWritten_relabel, hwritten]
  · have hfinite := hall d hd
    rw [hfinite.eq_of_asWritten hlinked' hwritten', hfinite.eq_of_asWritten hlinked hwritten]

end

namespace Compiler

variable {c : Compiler} {s s' : Schema}

/-- Two compiled schemas with the same declarations are the same but for the order of their
types. -/
theorem reordered_of_compile (hperm : s.types.toList.Perm s'.types.toList)
    (hseparates : Separates c.digest s.inlines) (hseparates' : Separates c.digest s'.inlines)
    {ts ts' : TypeSystem} (h : c.compile s = .ok ts) (h' : c.compile s' = .ok ts') :
    ts.Reordered ts' (reposition s.labels s'.labels) ∧
      ((∀ d ∈ s.inlines, d.FiniteImplicits) →
        ts.Carries ts' (reposition s.labels s'.labels)) := by
  have hnames : s.types.keys.Nodup := (pass_of_compile h).1
  have hrepresents := represents_locate hseparates h
  have hrepresents' := represents_locate hseparates' h'
  have hdeclared : ∀ id name b, ts.type? id = some ⟨name, false, b⟩ →
      ts'.type? (reposition s.labels s'.labels id) =
        some ⟨name, false, b.relabel (reposition s.labels s'.labels)⟩ := by
    intro id name b ht
    exact hrepresents.type?_declared hnames hperm hrepresents'
      (fun d hd => not_localFault_of_compile hseparates h (Or.inl hd)) ht
  have hanonymous := fun id t (ht : ts.type? id = some t) =>
    hrepresents.exists_anonymous hnames hperm hrepresents'
      (fun d hd => not_localFault_of_compile hseparates h (Or.inr hd)) ht
  constructor
  · constructor
    case positions =>
      have hsize : ts.size = s.labels.length := hrepresents.size.trans s.length_labels.symm
      have hsize' : ts'.size = s'.labels.length := hrepresents'.size.trans s'.length_labels.symm
      rw [hsize, hsize']
      exact bijOn_reposition (s.nodup_labels hnames) (Schema.labels_perm hperm)
    case declared => exact hdeclared
    case anonymous =>
      intro id t ht hanon
      obtain ⟨t', ht', hanon', hwritten, -⟩ := hanonymous id t ht hanon
      exact ⟨t', ht', hanon', hwritten⟩
  · rintro hfinite id ⟨name, anonymous, b⟩ ht
    cases anonymous with
    | false => exact ⟨_, hdeclared id name b ht, rfl, rfl⟩
    | true =>
      obtain ⟨t', ht', hanon', -, hbody⟩ := hanonymous id _ ht rfl
      exact ⟨t', ht', hanon', hbody hfinite⟩

/-- **The order of declarations does not matter for what is compiled.**  If names are declared
once, digests tell the canonical texts of definitions in place apart, and these are nested no
deeper than allowed, then a schema compiles if and only if one with its declarations in
another order does, and then the types of one are those of the other, moved.  An implicit value
of an anonymous type that is not finite may be another one there; if there are none, the types
of one are carried to those of the other outright. -/
theorem compile_reordered (hnames : s.types.keys.Nodup)
    (hperm : s.types.toList.Perm s'.types.toList) (hseparates : Separates c.digest s.inlines)
    (hnesting : ∀ d ∈ s.types.values, d.nesting ≤ c.settings.maxInlineDepth) :
    ((∃ ts, c.compile s = .ok ts) ↔ ∃ ts', c.compile s' = .ok ts') ∧
      ∀ ts ts', c.compile s = .ok ts → c.compile s' = .ok ts' →
        ∃ f, ts.Reordered ts' f ∧
          ((∀ d ∈ s.inlines, d.FiniteImplicits) → ts.Carries ts' f) := by
  have hnames' : s'.types.keys.Nodup := (Schema.keys_perm hperm).nodup_iff.1 hnames
  have hinlines : ∀ d, d ∈ s'.inlines → d ∈ s.inlines :=
    fun d => (Schema.mem_inlines_iff_of_perm hperm).2
  have hseparates' : Separates c.digest s'.inlines :=
    fun d hd e he => hseparates d (hinlines d hd) e (hinlines e he)
  have hnesting' : ∀ d ∈ s'.types.values, d.nesting ≤ c.settings.maxInlineDepth :=
    fun d hd => hnesting d ((hperm.map Prod.snd).mem_iff.2 hd)
  constructor
  · rw [exists_compile_iff hnames hseparates hnesting,
      exists_compile_iff hnames' hseparates' hnesting']
    exact ⟨fun h => h.of_perm hnames hperm, fun h => h.of_perm hnames' hperm.symm⟩
  · intro ts ts' h h'
    exact ⟨_, reordered_of_compile hperm hseparates hseparates' h h'⟩

/-- Declarations that contain lists of each other, nested alike and apart. -/
def crossLists : List (TypeName × Definition) :=
  [("A", .struct [.mk "b" (.inline (.list (.inline (.list (.named "B") false)) true)) false false]
      .standard),
    ("B", .union [.named "A", .named "S"] (.bytePrefix ⟨[("A", 1), ("S", 2)]⟩)),
    ("S", .struct [.mk "b" (.inline (.list (.named "B") false)) false true,
      .mk "s" (.inline (.list (.named "A") false)) false false] .listPairs)]

theorem compile_reordered_crossLists :
    (Schema.mk ⟨crossLists⟩).types.keys.Nodup ∧ crossLists.Perm crossLists.reverse ∧
      Separates id (Schema.mk ⟨crossLists⟩).inlines ∧
        (∀ d ∈ (Schema.mk ⟨crossLists⟩).types.values,
          d.nesting ≤ Settings.standard.maxInlineDepth) ∧
          ∃ ts ts', compile ⟨.standard, id⟩ ⟨⟨crossLists⟩⟩ = .ok ts ∧
            compile ⟨.standard, id⟩ ⟨⟨crossLists.reverse⟩⟩ = .ok ts' ∧
              ts.types ≠ ts'.types ∧ ∃ f, ts.Reordered ts' f ∧ ts.Carries ts' f := by
  have hnames : (Schema.mk ⟨crossLists⟩).types.keys.Nodup := by decide
  have hperm : crossLists.Perm crossLists.reverse := crossLists.reverse_perm.symm
  have hseparates : Separates id (Schema.mk ⟨crossLists⟩).inlines := fun _ _ _ _ h => h
  have hnesting : ∀ d ∈ (Schema.mk ⟨crossLists⟩).types.values,
      d.nesting ≤ Settings.standard.maxInlineDepth := by
    simp [crossLists, Entries.values, Definition.nesting, Reference.nesting, fieldNesting,
      Settings.standard]
  obtain ⟨ts, ts', h, h', hne⟩ : ∃ ts ts', compile ⟨.standard, id⟩ ⟨⟨crossLists⟩⟩ = .ok ts ∧
      compile ⟨.standard, id⟩ ⟨⟨crossLists.reverse⟩⟩ = .ok ts' ∧ ts.types ≠ ts'.types :=
    ⟨_, _, rfl, rfl, by decide⟩
  have hreordered := @compile_reordered ⟨.standard, id⟩ ⟨⟨crossLists⟩⟩ ⟨⟨crossLists.reverse⟩⟩ hnames
    hperm hseparates hnesting
  obtain ⟨f, hmoved, hcarries⟩ := hreordered.2 ts ts' h h'
  have hfinite : ∀ d ∈ [Definition.list (.inline (.list (.named "B") false)) true,
      .list (.named "B") false, .list (.named "B") false, .list (.named "A") false],
      d.FiniteImplicits := by
    simp [Definition.FiniteImplicits]
  exact ⟨hnames, hperm, hseparates, hnesting, ts, ts', h, h', hne, f, hmoved, hcarries hfinite⟩

/-- In the order of the declarations the struct with the positive infinity comes first, and in
the reverse order the other one.  Its content is that of the only anonymous type. -/
theorem not_carries_infinities :
    ¬ ∀ (c : Compiler) (s s' : Schema), s.types.keys.Nodup →
      s.types.toList.Perm s'.types.toList → Separates c.digest s.inlines →
        (∀ d ∈ s.types.values, d.nesting ≤ c.settings.maxInlineDepth) →
          ∀ ts ts', c.compile s = .ok ts → c.compile s' = .ok ts' →
            ∃ f, Set.BijOn f (Set.Iio ts.size) (Set.Iio ts'.size) ∧ ts.Carries ts' f := by
  intro hall
  have hfirst : (compile ⟨.standard, id⟩ infinities).map TypeSystem.anonymousBodies =
      .ok ((infinite false).linked fun _ => 0).toList := by decide +kernel
  have hsecond : (compile ⟨.standard, id⟩ ⟨⟨infinities.types.toList.reverse⟩⟩).map
      TypeSystem.anonymousBodies = .ok ((infinite true).linked fun _ => 2).toList := by
    decide +kernel
  obtain ⟨ts, h, hts⟩ := exists_of_map_compile hfirst
  obtain ⟨ts', h', hts'⟩ := exists_of_map_compile hsecond
  obtain ⟨f, -, hcarries⟩ := hall _ infinities _ (by decide) (List.reverse_perm _).symm
    (fun _ _ _ _ h => h) (by decide) ts ts' h h'
  have hcontent : ∀ b, (infinite false).linked (fun _ => 0) = some b →
      (infinite true).linked (fun _ => 2) = some (b.relabel f) := by
    intro b hb
    rw [← Option.mem_toList, ← hts']
    exact hcarries.relabel_mem (hts ▸ Option.mem_toList.2 hb)
  cases (Body.struct.inj (Option.some.inj (hcontent _ rfl))).2

end Compiler
end WireSchema
