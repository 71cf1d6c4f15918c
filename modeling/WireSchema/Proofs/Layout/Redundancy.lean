import Mathlib.Tactic.Common
import WireSchema.Declaration.Canonical
import WireSchema.Layout.Enum
import WireSchema.Layout.Struct

/-!
# Layouts do not see redundant spellings

Canonical forms drop entries of a representation.  This module shows that a dropped
entry is one that neither the faults of the representation nor its layout depend on.

## What a dropped entry looks like

An entry is dropped only if it says nothing, if its key is declared, and if no other
entry has that key (`keepsEntry`).  The last condition is what the inductions below run on: the
faults of a table carry the keys met so far, and a key that occurs once in the whole
table is neither among those keys nor met again behind the entry.  So leaving the
entry out changes which keys have been met, but never for a key that is still to
come, and `detailFaults_congr`, `detailTable_congr` and `memberKeyFaults_congr` say
that only those count.

## Main statements

* `StructRepresentation.faults_canonical`, `StructRepresentation.layout_canonical`
* `EnumRepresentation.faults_canonical`, `EnumRepresentation.layout_canonical`
* `StructRepresentation.canonical_canonical`, `EnumRepresentation.canonical_canonical`
-/

namespace WireSchema

/-! ## Keys that occur once -/

section Once

variable {α : Type} [DecidableEq α] {x y : α} {xs : List α}

/-- A key that occurs once does not occur behind its place. -/
theorem notMem_of_count_cons_eq_one (h : (x :: xs).count x = 1) : x ∉ xs := by
  rw [List.count_cons_self] at h
  exact List.count_eq_zero.1 (by omega)

/-- A key that occurs once and stands further back is another one than the first. -/
theorem ne_of_count_cons_eq_one (h : (x :: xs).count y = 1) (hy : y ∈ xs) : x ≠ y := by
  rintro rfl
  exact notMem_of_count_cons_eq_one h hy

theorem count_of_count_cons_eq_one (h : (x :: xs).count y = 1) (hy : y ∈ xs) :
    xs.count y = 1 := by
  rwa [List.count_cons_of_ne (ne_of_count_cons_eq_one h hy)] at h

end Once

/-- A filter of keyed entries that drops an entry only if it satisfies `P` and its key
occurs once. -/
def DropsOnce {κ ν : Type} [DecidableEq κ] (P : κ × ν → Prop) (keep : κ × ν → Bool)
    (es : List (κ × ν)) : Prop :=
  ∀ e ∈ es, keep e = false → P e ∧ (es.map Prod.fst).count e.1 = 1

namespace DropsOnce

variable {κ ν : Type} [DecidableEq κ] {P : κ × ν → Prop} {keep : κ × ν → Bool}
  {e : κ × ν} {es : List (κ × ν)}

theorem tail (h : DropsOnce P keep (e :: es)) : DropsOnce P keep es := by
  intro f hf hk
  obtain ⟨hP, hc⟩ := h f (List.mem_cons_of_mem _ hf) hk
  rw [List.map_cons] at hc
  exact ⟨hP, count_of_count_cons_eq_one hc (List.mem_map_of_mem hf)⟩

theorem head (h : DropsOnce P keep (e :: es)) (hk : keep e = false) :
    P e ∧ e.1 ∉ es.map Prod.fst := by
  obtain ⟨hP, hc⟩ := h e (List.mem_cons_self ..) hk
  rw [List.map_cons] at hc
  exact ⟨hP, notMem_of_count_cons_eq_one hc⟩

/-- The key of a dropped entry is not the one that stands in front. -/
theorem ne_head (h : DropsOnce P keep (e :: es)) {f : κ × ν} (hf : f ∈ es)
    (hk : keep f = false) : f.1 ≠ e.1 := by
  obtain ⟨-, hc⟩ := h f (List.mem_cons_of_mem _ hf) hk
  rw [List.map_cons] at hc
  exact (ne_of_count_cons_eq_one hc (List.mem_map_of_mem hf)).symm

/-- What has not been met before the first entry has not been met behind it either. -/
theorem notMem_tail (h : DropsOnce P keep (e :: es)) {b : List κ}
    (hb : ∀ f ∈ e :: es, keep f = false → f.1 ∉ b) :
    (∀ f ∈ es, keep f = false → f.1 ∉ b) ∧ ∀ f ∈ es, keep f = false → f.1 ∉ e.1 :: b := by
  have hrest : ∀ f ∈ es, keep f = false → f.1 ∉ b :=
    fun f hf => hb f (List.mem_cons_of_mem _ hf)
  refine ⟨hrest, fun f hf hk => ?_⟩
  rw [List.mem_cons, not_or]
  exact ⟨h.ne_head hf hk, hrest f hf hk⟩

/-- Filtering a table by a test that only drops keys that occur once leaves the other
keys as often as they were. -/
theorem count_filter (h : DropsOnce P keep es) {key : κ}
    (hkey : 1 < (es.map Prod.fst).count key) :
    ((es.filter keep).map Prod.fst).count key = (es.map Prod.fst).count key := by
  have hkeep : ∀ e ∈ es, e.1 = key → keep e = true := by
    intro e he hek
    by_contra hk
    obtain ⟨-, hc⟩ := h e he (Bool.eq_false_iff.2 hk)
    rw [hek] at hc
    omega
  rw [List.count_eq_countP, List.count_eq_countP, List.countP_map, List.countP_map,
    List.countP_filter]
  refine List.countP_congr fun e he => ?_
  simp only [Function.comp_apply, Bool.and_eq_true, beq_iff_eq]
  exact ⟨fun hb => hb.1, fun hb => ⟨hb, hkeep e he hb⟩⟩

end DropsOnce

/-! ## Keys met so far -/

section Met

variable {κ ν : Type} {e : κ × ν} {es : List (κ × ν)} {b b' : List κ}

/-- Two lists of keys that agree on a table agree on what is behind its first entry, with
the key of that entry and without. -/
theorem mem_congr_tail (h : ∀ f ∈ e :: es, (f.1 ∈ b ↔ f.1 ∈ b')) :
    (e.1 ∈ b ↔ e.1 ∈ b') ∧ (∀ f ∈ es, (f.1 ∈ b ↔ f.1 ∈ b')) ∧
      ∀ f ∈ es, (f.1 ∈ e.1 :: b ↔ f.1 ∈ e.1 :: b') := by
  have hrest : ∀ f ∈ es, (f.1 ∈ b ↔ f.1 ∈ b') := fun f hf => h f (List.mem_cons_of_mem _ hf)
  refine ⟨h e (List.mem_cons_self ..), hrest, fun f hf => ?_⟩
  rw [List.mem_cons, List.mem_cons, hrest f hf]

/-- A key that is not met in a table can be added to the keys before it. -/
theorem mem_cons_iff_of_notMem {x : κ} (h : x ∉ es.map Prod.fst) (b : List κ) :
    ∀ f ∈ es, (f.1 ∈ x :: b ↔ f.1 ∈ b) := by
  intro f hf
  have hne : f.1 ≠ x := fun heq => h (heq ▸ List.mem_map_of_mem hf)
  rw [List.mem_cons, or_iff_right hne]

end Met

/-! ## Tables without redundant entries -/

/-- The test by which a table is freed from redundant entries: an entry is kept if it tells
something, if its key has another entry, or if its key is not known. -/
def keepsEntry {κ ν : Type} [DecidableEq κ] (tells : κ × ν → Bool) (known : List κ)
    (table : Entries κ ν) (e : κ × ν) : Bool :=
  tells e || decide (1 < table.occurrences e.1) || !known.contains e.1

section KeepsEntry

variable {κ ν : Type} [DecidableEq κ] (tells : κ × ν → Bool) (known : List κ)
  (table : Entries κ ν)

theorem dropsOnce_keepsEntry :
    DropsOnce (fun e => tells e = false ∧ e.1 ∈ known) (keepsEntry tells known table)
      table.toList := by
  intro e he hk
  simp only [keepsEntry, Bool.or_eq_false_iff, Bool.not_eq_false', decide_eq_false_iff_not,
    List.contains_iff_mem] at hk
  obtain ⟨⟨htells, hcount⟩, hknown⟩ := hk
  rw [Entries.occurrences_eq_count, Entries.keys] at hcount
  have hpos : 0 < (table.toList.map Prod.fst).count e.1 :=
    List.count_pos_iff.2 (List.mem_map_of_mem he)
  exact ⟨⟨htells, hknown⟩, by omega⟩

/-- A second pass keeps what the first one kept. -/
theorem filter_keepsEntry {kept : List (κ × ν)}
    (hkept : kept = table.toList.filter (keepsEntry tells known table)) :
    kept.filter (keepsEntry tells known ⟨kept⟩) = kept := by
  have hdrop := dropsOnce_keepsEntry tells known table
  rw [List.filter_eq_self]
  intro e he
  have hk : keepsEntry tells known table e = true := (List.mem_filter.1 (hkept ▸ he)).2
  simp only [keepsEntry, Bool.or_eq_true, decide_eq_true_eq] at hk ⊢
  refine hk.imp_left (Or.imp_right fun hcount => ?_)
  rw [Entries.occurrences_eq_count, Entries.keys] at hcount ⊢
  rwa [hkept, hdrop.count_filter hcount]

end KeepsEntry

/-! ## Details of fields -/

/-- Of the fields that had details already only those count that are met again. -/
theorem detailFaults_congr {fields : List Field} {es : List (FieldName × FieldDetails)}
    {b b' : List FieldName} (h : ∀ e ∈ es, (e.1 ∈ b ↔ e.1 ∈ b')) :
    detailFaults fields b es = detailFaults fields b' es := by
  induction es generalizing b b' with
  | nil => rfl
  | cons e rest ih =>
    obtain ⟨name, d⟩ := e
    obtain ⟨hname, hrest, hcons⟩ := mem_congr_tail h
    simp only [detailFaults, hname, ih hrest, ih hcons]

theorem detailTable_congr {declared : List FieldName} {es : List (FieldName × FieldDetails)}
    {b b' : List FieldName} {t : Table FieldName FieldDetails}
    (h : ∀ e ∈ es, (e.1 ∈ b ↔ e.1 ∈ b')) :
    detailTable declared b t es = detailTable declared b' t es := by
  induction es generalizing b b' t with
  | nil => rfl
  | cons e rest ih =>
    obtain ⟨name, d⟩ := e
    obtain ⟨hname, hrest, hcons⟩ := mem_congr_tail h
    simp only [detailTable, hname, ih hrest, ih hcons]

/-- Details that say nothing have no fault. -/
theorem FieldDetails.faults_of_isVoid {d : FieldDetails} (h : d.isVoid = true)
    (fields : List Field) (name : FieldName) : d.faults fields name = [] := by
  obtain ⟨rename, implicit⟩ := d
  simp only [isVoid, Bool.and_eq_true, Option.isNone_iff_eq_none] at h
  obtain ⟨rfl, rfl⟩ := h
  simp [faults]

theorem detailFaults_filter {fields : List Field} {keep : FieldName × FieldDetails → Bool}
    {es : List (FieldName × FieldDetails)} {b : List FieldName}
    (hdrop : DropsOnce (fun e => e.2.isVoid = true ∧ e.1 ∈ fields.map Field.name) keep es)
    (hb : ∀ e ∈ es, keep e = false → e.1 ∉ b) :
    detailFaults fields b (es.filter keep) = detailFaults fields b es := by
  induction es generalizing b with
  | nil => rfl
  | cons e rest ih =>
    obtain ⟨name, d⟩ := e
    obtain ⟨hbrest, hbcons⟩ := hdrop.notMem_tail hb
    cases hk : keep (name, d) with
    | true =>
      simp only [List.filter_cons, hk, if_true, detailFaults, ih hdrop.tail hbrest,
        ih hdrop.tail hbcons]
    | false =>
      obtain ⟨⟨hvoid, hdeclared⟩, honce⟩ := hdrop.head hk
      have hnew : name ∉ b := hb (name, d) (List.mem_cons_self ..) hk
      rw [List.filter_cons_of_neg (by rw [hk]; exact Bool.false_ne_true), ih hdrop.tail hbrest,
        detailFaults, if_neg (not_not_intro hdeclared), if_neg hnew,
        FieldDetails.faults_of_isVoid hvoid, List.nil_append,
        detailFaults_congr (mem_cons_iff_of_notMem honce b)]

theorem detailTable_filter {declared : List FieldName} {keep : FieldName × FieldDetails → Bool}
    {es : List (FieldName × FieldDetails)} {b : List FieldName}
    {t : Table FieldName FieldDetails}
    (hdrop : DropsOnce (fun e => e.2.isVoid = true ∧ e.1 ∈ declared) keep es) :
    detailTable declared b t (es.filter keep) = detailTable declared b t es := by
  induction es generalizing b t with
  | nil => rfl
  | cons e rest ih =>
    obtain ⟨name, d⟩ := e
    cases hk : keep (name, d) with
    | true => simp only [List.filter_cons, hk, if_true, detailTable, ih hdrop.tail]
    | false =>
      obtain ⟨⟨hvoid, -⟩, honce⟩ := hdrop.head hk
      rw [List.filter_cons_of_neg (by rw [hk]; exact Bool.false_ne_true), ih hdrop.tail,
        detailTable, if_pos hvoid, detailTable_congr (mem_cons_iff_of_notMem honce b), ite_self]

/-! ## The canonical details -/

/-- The test by which canonical details keep an entry. -/
def keepsDetails (declared : List FieldName) (details : Entries FieldName FieldDetails)
    (e : FieldName × FieldDetails) : Bool :=
  !e.2.isVoid || decide (1 < details.occurrences e.1) || !declared.contains e.1

theorem dropsOnce_keepsDetails (declared : List FieldName)
    (details : Entries FieldName FieldDetails) :
    DropsOnce (fun e => e.2.isVoid = true ∧ e.1 ∈ declared) (keepsDetails declared details)
      details.toList := by
  intro e he hk
  obtain ⟨⟨hvoid, hdeclared⟩, honce⟩ :=
    dropsOnce_keepsEntry (fun e : FieldName × FieldDetails => !e.2.isVoid) declared details e he hk
  exact ⟨⟨by simpa using hvoid, hdeclared⟩, honce⟩

/-- Canonical details are absent if nothing is kept, and otherwise what is kept. -/
theorem canonicalDetails_cases (declared : List FieldName)
    (details : Entries FieldName FieldDetails) :
    canonicalDetails declared details = none ∧
        details.toList.filter (keepsDetails declared details) = [] ∨
      canonicalDetails declared details =
          some ⟨details.toList.filter (keepsDetails declared details)⟩ ∧
        details.toList.filter (keepsDetails declared details) ≠ [] := by
  have heq : canonicalDetails declared details =
      if (details.toList.filter (keepsDetails declared details)).isEmpty then none
      else some ⟨details.toList.filter (keepsDetails declared details)⟩ := rfl
  rw [heq]
  split
  · next hempty => exact Or.inl ⟨rfl, List.isEmpty_iff.1 hempty⟩
  · next hne => exact Or.inr ⟨rfl, fun hempty => hne (List.isEmpty_iff.2 hempty)⟩

theorem detailFaults_canonical (fields : List Field) (details : Entries FieldName FieldDetails) :
    detailFaults fields [] (details.toList.filter (keepsDetails (fields.map Field.name) details)) =
      detailFaults fields [] details.toList :=
  detailFaults_filter (dropsOnce_keepsDetails _ details) fun _ _ _ => List.not_mem_nil

theorem detailTable_canonical (declared : List FieldName)
    (details : Entries FieldName FieldDetails) :
    detailTable declared [] ∅ (details.toList.filter (keepsDetails declared details)) =
      detailTable declared [] ∅ details.toList :=
  detailTable_filter (dropsOnce_keepsDetails _ details)

theorem compiledDetails_canonical (declared : List FieldName)
    (details : Option (Entries FieldName FieldDetails)) :
    compiledDetails declared (details.bind (canonicalDetails declared)) =
      compiledDetails declared details := by
  cases details with
  | none => rfl
  | some es =>
    have htable := detailTable_canonical declared es
    rw [Option.bind_some]
    rcases canonicalDetails_cases declared es with ⟨hnone, hempty⟩ | ⟨hsome, -⟩
    · rw [hempty] at htable
      rw [hnone]
      exact htable
    · rw [hsome]
      exact htable

/-- A second pass over canonical details keeps what the first one kept. -/
theorem canonicalDetails_canonicalDetails (declared : List FieldName)
    (details : Entries FieldName FieldDetails) :
    (canonicalDetails declared details).bind (canonicalDetails declared) =
      canonicalDetails declared details := by
  set kept := details.toList.filter (keepsDetails declared details) with hkept
  have hagain : kept.filter (keepsDetails declared ⟨kept⟩) = kept :=
    filter_keepsEntry (fun e : FieldName × FieldDetails => !e.2.isVoid) declared details hkept
  rcases canonicalDetails_cases declared details with ⟨hnone, -⟩ | ⟨hsome, hne⟩
  · rw [hnone]
    rfl
  · rw [hsome, Option.bind_some, ← hkept]
    rcases canonicalDetails_cases declared ⟨kept⟩ with ⟨-, hempty⟩ | ⟨hsome', -⟩
    · exact absurd (hagain.symm.trans hempty) hne
    · rw [hsome', hagain]

/-! ## Field orders -/

theorem allDistinct_iff {names : List String} : allDistinct names = true ↔ names.Nodup := by
  induction names with
  | nil => simp [allDistinct]
  | cons x xs ih =>
    simp only [allDistinct, Bool.and_eq_true, Bool.not_eq_true', ← Bool.not_eq_true,
      List.contains_iff_mem, List.nodup_cons, ih]

theorem orderEntryFaults_eq_nil_iff {declared order before : List FieldName} :
    orderEntryFaults declared before order = [] ↔
      order ⊆ declared ∧ order.Nodup ∧ ∀ name ∈ order, name ∉ before := by
  induction order generalizing before with
  | nil => simp [orderEntryFaults]
  | cons name rest ih =>
    rw [orderEntryFaults, List.cons_subset, List.nodup_cons, List.forall_mem_cons]
    by_cases hdeclared : name ∈ declared
    · rw [if_neg (not_not_intro hdeclared)]
      by_cases hmet : name ∈ before
      · simp [hmet]
      · rw [if_neg hmet, ih]
        grind
    · simp [hdeclared]

/-- A field order is accepted if it is a rearrangement of the declared fields. -/
theorem orderFaults_eq_nil_iff {declared order : List FieldName} (h : declared.Nodup) :
    orderFaults declared (some order) = [] ↔ order.Perm declared := by
  have homitted : (declared.filter fun name => decide (name ∉ order)) = [] ↔
      declared ⊆ order := by
    simp only [List.filter_eq_nil_iff, decide_eq_true_eq, not_not]
    exact Iff.rfl
  rw [orderFaults]
  split
  · next hempty =>
    obtain ⟨rfl, hne⟩ := hempty
    exact iff_of_false (List.cons_ne_nil _ _) fun hperm => hne hperm.symm.eq_nil
  · rw [List.append_eq_nil_iff, List.map_eq_nil_iff, orderEntryFaults_eq_nil_iff, homitted]
    constructor
    · rintro ⟨⟨hdeclared, hnodup, -⟩, hnamed⟩
      rw [List.perm_ext_iff_of_nodup hnodup h]
      exact fun name => ⟨fun hname => hdeclared hname, fun hname => hnamed hname⟩
    · intro hperm
      exact ⟨⟨hperm.subset, hperm.nodup_iff.2 h, fun _ _ => List.not_mem_nil⟩,
        hperm.symm.subset⟩

theorem orderFaults_canonicalOrder (declared : List FieldName)
    (order : Option (List FieldName)) :
    orderFaults declared (canonicalOrder declared order) = orderFaults declared order := by
  cases order with
  | none => rfl
  | some order =>
    rw [canonicalOrder]
    split
    · next h =>
      obtain ⟨hdistinct, rfl⟩ := h
      exact ((orderFaults_eq_nil_iff (allDistinct_iff.1 hdistinct)).2 (List.Perm.refl _)).symm
    · rfl

theorem getD_canonicalOrder (declared : List FieldName) (order : Option (List FieldName)) :
    (canonicalOrder declared order).getD declared = order.getD declared := by
  cases order with
  | none => rfl
  | some order =>
    rw [canonicalOrder]
    split
    · next h => exact h.2.symm
    · rfl

theorem canonicalOrder_canonicalOrder (declared : List FieldName)
    (order : Option (List FieldName)) :
    canonicalOrder declared (canonicalOrder declared order) = canonicalOrder declared order := by
  cases order with
  | none => rfl
  | some order =>
    rw [canonicalOrder]
    split
    · rfl
    · next h => rw [canonicalOrder, if_neg h]

/-! ## Representations of structs -/

/-- What is wrong with details looks at fields for their names and for which of them may
be absent. -/
theorem detailFaults_fields {fields fields' : List Field}
    (hnames : fields'.map Field.name = fields.map Field.name)
    (hoptional : ∀ name, isOptionalIn fields' name = isOptionalIn fields name)
    (es : List (FieldName × FieldDetails)) (before : List FieldName) :
    detailFaults fields' before es = detailFaults fields before es := by
  induction es generalizing before with
  | nil => rfl
  | cons e rest ih =>
    obtain ⟨name, d⟩ := e
    have hd : d.faults fields' name = d.faults fields name := by
      rw [FieldDetails.faults, FieldDetails.faults, hoptional]
    simp only [detailFaults, hnames, hd, ih]

namespace StructRepresentation

theorem faults_fields {fields fields' : List Field}
    (hnames : fields'.map Field.name = fields.map Field.name)
    (hoptional : ∀ name, isOptionalIn fields' name = isOptionalIn fields name)
    (representation : StructRepresentation) :
    representation.faults fields' = representation.faults fields := by
  simp only [faults, hnames, detailFaults_fields hnames hoptional]

theorem layout_fields {fields fields' : List Field}
    (hnames : fields'.map Field.name = fields.map Field.name)
    (representation : StructRepresentation) :
    representation.layout fields' = representation.layout fields := by
  cases representation <;> simp only [layout, hnames]

/-- **Faults of a struct representation.**  Redundant spellings neither cause nor hide
one. -/
theorem faults_canonical (fields : List Field) (representation : StructRepresentation) :
    (representation.canonical (fields.map Field.name)).faults fields =
      representation.faults fields := by
  cases representation with
  | map details =>
    simp only [canonical, faults, compiledDetails_canonical]
    congr 1
    cases details with
    | none => rfl
    | some es =>
      have hfaults := detailFaults_canonical fields es
      rw [Option.bind_some]
      rcases canonicalDetails_cases (fields.map Field.name) es with ⟨hnone, hempty⟩ | ⟨hsome, -⟩
      · rw [hempty] at hfaults
        rw [hnone]
        exact hfaults
      · rw [hsome]
        exact hfaults
  | tuple order => simp only [canonical, faults, orderFaults_canonicalOrder]
  | stringJoin join order => simp only [canonical, faults, orderFaults_canonicalOrder]
  | stringPairs delimiters => rfl
  | listPairs => rfl

/-- **Layouts of a struct representation.**  Redundant spellings do not show in it. -/
theorem layout_canonical (fields : List Field) (representation : StructRepresentation) :
    (representation.canonical (fields.map Field.name)).layout fields =
      representation.layout fields := by
  cases representation with
  | map details => simp only [canonical, layout, compiledDetails_canonical]
  | tuple order => simp only [canonical, layout, getD_canonicalOrder]
  | stringJoin join order => simp only [canonical, layout, getD_canonicalOrder]
  | stringPairs delimiters => rfl
  | listPairs => rfl

theorem canonical_canonical (declared : List FieldName) (representation : StructRepresentation) :
    (representation.canonical declared).canonical declared =
      representation.canonical declared := by
  cases representation with
  | map details =>
    simp only [canonical, Option.bind_assoc]
    cases details with
    | none => rfl
    | some es => simp only [Option.bind_some, canonicalDetails_canonicalDetails]
  | tuple order => simp only [canonical, canonicalOrder_canonicalOrder]
  | stringJoin join order => simp only [canonical, canonicalOrder_canonicalOrder]
  | stringPairs delimiters => rfl
  | listPairs => rfl

end StructRepresentation

/-! ## Representations of enums -/

theorem memberKeyFaults_congr {members : List String} {es : List (String × String)}
    {b b' : List String} (h : ∀ e ∈ es, (e.1 ∈ b ↔ e.1 ∈ b')) :
    memberKeyFaults members b (es.map Prod.fst) =
      memberKeyFaults members b' (es.map Prod.fst) := by
  induction es generalizing b b' with
  | nil => rfl
  | cons e rest ih =>
    obtain ⟨hkey, hrest, hcons⟩ := mem_congr_tail h
    simp only [List.map_cons, memberKeyFaults, hkey, ih hrest, ih hcons]

theorem memberKeyFaults_filter {members : List String} {keep : String × String → Bool}
    {es : List (String × String)} {b : List String}
    (hdrop : DropsOnce (fun e => e.1 = e.2 ∧ e.1 ∈ members) keep es)
    (hb : ∀ e ∈ es, keep e = false → e.1 ∉ b) :
    memberKeyFaults members b ((es.filter keep).map Prod.fst) =
      memberKeyFaults members b (es.map Prod.fst) := by
  induction es generalizing b with
  | nil => rfl
  | cons e rest ih =>
    obtain ⟨hbrest, hbcons⟩ := hdrop.notMem_tail hb
    cases hk : keep e with
    | true =>
      simp only [List.filter_cons, hk, if_true, List.map_cons, memberKeyFaults,
        ih hdrop.tail hbrest, ih hdrop.tail hbcons]
    | false =>
      obtain ⟨⟨-, hmember⟩, honce⟩ := hdrop.head hk
      have hnew : e.1 ∉ b := hb e (List.mem_cons_self ..) hk
      rw [List.filter_cons_of_neg (by rw [hk]; exact Bool.false_ne_true), ih hdrop.tail hbrest,
        List.map_cons, memberKeyFaults, if_neg (not_not_intro hmember), if_neg hnew,
        memberKeyFaults_congr (mem_cons_iff_of_notMem honce b)]

/-- The wire string of a member is its own name where an entry that says so is
dropped. -/
theorem wireString_filter {P : String × String → Prop} {keep : String × String → Bool}
    {es : List (String × String)} (hdrop : DropsOnce P keep es)
    (hself : ∀ e, P e → e.1 = e.2) (member : String) :
    wireString ⟨es.filter keep⟩ member = wireString ⟨es⟩ member := by
  induction es with
  | nil => rfl
  | cons e es ih =>
    have ih := ih hdrop.tail
    simp only [wireString, Entries.get?] at ih ⊢
    by_cases hmember : e.1 = member
    · cases hk : keep e with
      | true => simp [hk, hmember]
      | false =>
        obtain ⟨hP, honce⟩ := hdrop.head hk
        have hnone : es.find? (fun e => decide (e.1 = member)) = none := by
          rw [List.find?_eq_none]
          intro f hf hfm
          exact honce (hmember ▸ of_decide_eq_true hfm ▸ List.mem_map_of_mem hf)
        rw [hnone] at ih
        simp only [List.filter_cons, hk, Bool.false_eq_true, if_false, ih, List.find?_cons,
          hmember, decide_true, Option.map_none, Option.map_some, Option.getD_none,
          Option.getD_some]
        rw [← hmember]
        exact hself e hP
    · cases hk : keep e with
      | true => simpa [List.filter_cons, hk, List.find?_cons, hmember] using ih
      | false => simpa [List.filter_cons, hk, List.find?_cons, hmember] using ih

theorem wireStringFaults_congr {table table' : Entries String String}
    (h : ∀ member, wireString table' member = wireString table member)
    (used members : List String) :
    wireStringFaults table' used members = wireStringFaults table used members := by
  induction members generalizing used with
  | nil => rfl
  | cons member rest ih => simp only [wireStringFaults, h, ih]

/-- The test by which the canonical table of an enum keeps an entry. -/
def keepsWireString (members : List String) (table : Entries String String)
    (e : String × String) : Bool :=
  e.1 != e.2 || decide (1 < table.occurrences e.1) || !members.contains e.1

theorem dropsOnce_keepsWireString (members : List String) (table : Entries String String) :
    DropsOnce (fun e => e.1 = e.2 ∧ e.1 ∈ members) (keepsWireString members table)
      table.toList := by
  intro e he hk
  obtain ⟨⟨hself, hmember⟩, honce⟩ :=
    dropsOnce_keepsEntry (fun e : String × String => e.1 != e.2) members table e he hk
  exact ⟨⟨bne_eq_false_iff_eq.1 hself, hmember⟩, honce⟩

namespace EnumRepresentation

theorem canonical_string (members : List String) (table : Entries String String) :
    (EnumRepresentation.string table).canonical members =
      .string ⟨table.toList.filter (keepsWireString members table)⟩ := rfl

/-- **Faults of an enum representation.**  Redundant spellings neither cause nor hide
one. -/
theorem faults_canonical (members : List String) (representation : EnumRepresentation) :
    (representation.canonical members).faults members = representation.faults members := by
  cases representation with
  | string table =>
    have hdrop := dropsOnce_keepsWireString members table
    have hkeys := memberKeyFaults_filter hdrop (b := []) fun _ _ _ => List.not_mem_nil
    have hwires := wireStringFaults_congr (wireString_filter hdrop fun _ h => h.1) [] members
    simp only [canonical_string, faults, Entries.keys, hkeys, hwires]
  | int table => rfl

/-- **Layouts of an enum representation.**  Redundant spellings do not show in it. -/
theorem layout_canonical (members : List String) (representation : EnumRepresentation) :
    (representation.canonical members).layout members = representation.layout members := by
  cases representation with
  | string table =>
    have hdrop := dropsOnce_keepsWireString members table
    simp only [canonical_string, layout, wireString_filter hdrop fun _ h => h.1]
  | int table => rfl

theorem canonical_canonical (members : List String) (representation : EnumRepresentation) :
    (representation.canonical members).canonical members = representation.canonical members := by
  cases representation with
  | string table =>
    simp only [canonical_string]
    congr 2
    exact filter_keepsEntry (fun e : String × String => e.1 != e.2) members table rfl
  | int table => rfl

end EnumRepresentation
end WireSchema
