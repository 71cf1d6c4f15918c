import WireSchema.Proofs.Compiler.Charges
import WireSchema.Proofs.Compiler.Conflicts
import WireSchema.Proofs.Compiler.Outcome

/-!
# Blame is exact

A declared type has an error if and only if something is wrong with it
(`Compiler.blames_iff`):

* its declaration, or a definition in place that it contains, has a local fault, or
* one of these breaks a rule together with a definition that is sound.

The condition can be read off the schema.  It does not depend on the order of the
declarations, nor on which definitions share a type, nor on what is wrong elsewhere, but for
one thing: a definition that is faulty, or contains something faulty, has no content, and
nothing is held against others because of it (`Compiler.hearsay_not_blamed`).
-/

namespace WireSchema

/-! ## Errors and names -/

/-- An error between two types is charged to the owners of the one in which it is found. -/
theorem CrossType.exists_mem_errors_iff {settings : Settings} {a : Arena} {name : TypeName} :
    (∃ e ∈ errors settings a, e.typeName = name) ↔
      ∃ (id : Nat) (slot : Slot) (body : Body), a.slot? id = some slot ∧ slot.body = some body ∧
        name ∈ slot.owners ∧ bodyFaults settings a slot.name body ≠ [] := by
  constructor
  · rintro ⟨e, he, rfl⟩
    obtain ⟨slot, hslot, he⟩ := List.mem_flatMap.1 he
    obtain ⟨id, hid⟩ := List.getElem?_of_mem hslot
    rw [slotErrors] at he
    cases hbody : slot.body with
    | none =>
      rw [hbody] at he
      cases he
    | some body =>
      rw [hbody] at he
      obtain ⟨fault, hfault, he⟩ := List.mem_flatMap.1 he
      obtain ⟨owner, howner, rfl⟩ := List.mem_map.1 he
      exact ⟨id, slot, body, hid, hbody, howner, List.ne_nil_of_mem hfault⟩
  · rintro ⟨id, slot, body, hid, hbody, howner, hne⟩
    obtain ⟨fault, hfault⟩ := List.exists_mem_of_ne_nil _ hne
    refine ⟨.charged name (.invalidConfig fault), ?_, rfl⟩
    refine List.mem_flatMap.2 ⟨slot, List.mem_of_getElem? hid, ?_⟩
    rw [slotErrors, hbody]
    exact List.mem_flatMap.2 ⟨fault, hfault, List.mem_map.2 ⟨name, howner, rfl⟩⟩

namespace Compiler

theorem exists_mem_declarationErrors_iff {results : List (TypeName × List Fault)}
    {name : TypeName} :
    (∃ e ∈ declarationErrors results, e.typeName = name) ↔
      ∃ faults, (name, faults) ∈ results ∧ faults ≠ [] := by
  constructor
  · rintro ⟨e, he, rfl⟩
    obtain ⟨⟨owner, faults⟩, hmem, he⟩ := List.mem_flatMap.1 he
    obtain ⟨fault, hfault, rfl⟩ := List.mem_map.1 he
    exact ⟨faults, hmem, List.ne_nil_of_mem hfault⟩
  · rintro ⟨faults, hmem, hne⟩
    obtain ⟨fault, hfault⟩ := List.exists_mem_of_ne_nil _ hne
    refine ⟨.charged name fault, ?_, rfl⟩
    exact List.mem_flatMap.2 ⟨_, hmem, List.mem_map.2 ⟨fault, hfault, rfl⟩⟩

/-- Whether a compile is rejected with an error about a type. -/
def Blames (c : Compiler) (s : Schema) (name : TypeName) : Prop :=
  ∃ es, c.compile s = .error (.rejected es) ∧ ∃ e ∈ es.toList, e.typeName = name

variable {c : Compiler} {s : Schema}

theorem blames_iff_exists_error {name : TypeName} :
    c.Blames s name ↔ ∃ e ∈ c.errors s (c.declarationPass s), e.typeName = name := by
  constructor
  · rintro ⟨es, hcompile, hmem⟩
    rw [(c.compile_eq_rejected_iff s).1 hcompile]
    exact hmem
  · rintro ⟨e, he, hname⟩
    cases herrors : c.errors s (c.declarationPass s) with
    | nil =>
      rw [herrors] at he
      cases he
    | cons first rest =>
      rw [herrors] at he
      exact ⟨⟨first, rest⟩, (c.compile_eq_rejected_iff s).2 herrors, e, he, hname⟩

/-- Where names are distinct, errors come from declarations and from types that do not go
together. -/
theorem blames_iff_of_nodup (hnames : s.types.keys.Nodup) {name : TypeName} :
    c.Blames s name ↔
      (∃ faults, (name, faults) ∈ (c.declarationPass s).1 ∧ faults ≠ []) ∨
        ∃ e ∈ CrossType.errors c.settings (c.declarationPass s).2, e.typeName = name := by
  rw [blames_iff_exists_error, ← exists_mem_declarationErrors_iff, errors,
    Schema.duplicateErrors_eq_nil_iff.2 hnames, List.nil_append]
  simp only [List.mem_append, or_and_right, exists_or]

/-! ## What becomes of a declaration -/

theorem map_fst_declarations (declared : List TypeName) (ds : List (TypeName × Definition))
    (id : TypeId) (a : Arena) :
    (c.declarations declared id ds a).1.map Prod.fst = ds.map Prod.fst := by
  induction ds generalizing id a with
  | nil => rfl
  | cons e rest ih =>
    obtain ⟨name, d⟩ := e
    rw [declarations_cons, List.map_cons, List.map_cons, ih]

/-- What the declaration pass says of a declaration: what it was charged with, and its
content if that was nothing. -/
structure Judged (c : Compiler) (s : Schema) (e : TypeName × Definition) (faults : List Fault)
    (slot : Slot) : Prop where
  reported : ∀ faults', (e.1, faults') ∈ (c.declarationPass s).1 ↔ faults' = faults
  charged : Charged c.digest s.types.keys (c.declarationPass s).2 e faults
  position : (c.declarationPass s).2.slot? (s.types.keys.idxOf e.1) = some slot
  owners : slot.owners = [e.1]
  content : faults ≠ [] ∧ slot.body = none ∨
    faults = [] ∧ ∃ b, slot.body = some b ∧
      (c.declarationPass s).2.Links c.digest s.types.keys e.2 b

/-- What the declaration pass charges every declaration with. -/
theorem declarationPass_charged (hseparates : Separates c.digest s.inlines)
    (hnesting : ∀ d ∈ s.types.values, d.nesting ≤ c.settings.maxInlineDepth) :
    ∀ e ∈ s.accepted, ∃ faults, (e.1, faults) ∈ (c.declarationPass s).1 ∧
      Charged c.digest (declared s) (c.declarationPass s).2 e faults := by
  have hds : ∀ e ∈ s.accepted,
      e.2.inlines ⊆ s.inlines ∧ e.2.nesting ≤ c.settings.maxInlineDepth := by
    intro e he
    have hmem := (Schema.mem_firstDeclarations e he).1
    exact ⟨Schema.inlines_subset_of_accepted e he, hnesting _ (List.mem_map_of_mem hmem)⟩
  have hlength : 0 + s.accepted.length ≤ (declared s).length := by
    rw [Nat.zero_add, declared, List.length_map]
  have hunowned : ∀ (i : Nat) (t : Slot), (Arena.ofDeclared (declared s)).slot? i = some t →
      t.anonymous = true → ∀ e ∈ s.accepted, e.1 ∉ t.owners := by
    intro i t ht hanonymous
    have hle := ((Arena.WellFormed.ofDeclared (declared s)).anonymous_iff ht).1 hanonymous
    have hlt := Arena.lt_length_of_slot? ht
    rw [Arena.ofDeclared, List.length_map] at hlt
    omega
  exact (declarations_charged hseparates s.accepted 0 (Arena.ofDeclared (declared s))
    s.nodup_accepted hlength hds (Arena.valid_ofDeclared c.digest (declared s) s.inlines)
    (fun _ _ _ _ _ hid => by cases hid) (fun _ hk => by cases hk) hunowned).2

section

variable (hnames : s.types.keys.Nodup) (hseparates : Separates c.digest s.inlines)
  (hnesting : ∀ d ∈ s.types.values, d.nesting ≤ c.settings.maxInlineDepth)

include hnames hseparates hnesting

theorem judged : ∀ e ∈ s.types.toList, ∃ faults slot, c.Judged s e faults slot := by
  intro e he
  have hdeclared := declared_of_nodup hnames
  have haccepted := Schema.accepted_of_nodup hnames
  obtain ⟨hvalid, hdeclares⟩ := c.declarationPass_links s
  rw [← haccepted] at he
  obtain ⟨faults, hmem, hcharged⟩ := declarationPass_charged hseparates hnesting e he
  obtain ⟨faults', slot, hmem', hslot, hcontent⟩ := hdeclares e he
  have hunique : ∀ fs, (e.1, fs) ∈ (c.declarationPass s).1 → fs = faults := by
    intro fs hfs
    have hnodup : ((c.declarationPass s).1.map Prod.fst).Nodup := by
      rw [declarationPass, map_fst_declarations]
      exact s.nodup_accepted
    exact congrArg Prod.snd (List.inj_on_of_nodup_map hnodup hfs hmem rfl)
  obtain rfl := hunique faults' hmem'
  have hkey : e.1 ∈ declared s := List.mem_map_of_mem he
  have hposition := List.getElem?_eq_getElem (List.idxOf_lt_length_of_mem hkey)
  rw [List.getElem_idxOf] at hposition
  obtain ⟨slot', hslot', -, howners, -⟩ := hvalid.declaredSlots _ _ hposition
  obtain rfl := Option.some.inj (hslot.symm.trans hslot')
  rw [hdeclared] at hcharged hslot hcontent
  refine ⟨faults', slot, fun fs => ⟨hunique fs, ?_⟩, hcharged, hslot, howners, hcontent⟩
  rintro rfl
  exact hmem'

/-- A declaration is charged with something exactly if it is faulty. -/
theorem exists_reported_iff {e : TypeName × Definition} (he : e ∈ s.types.toList) :
    (∃ faults, (e.1, faults) ∈ (c.declarationPass s).1 ∧ faults ≠ []) ↔
      e.2.Faulty s.types.keys := by
  obtain ⟨faults, slot, hjudged⟩ := judged hnames hseparates hnesting e he
  constructor
  · rintro ⟨faults', hmem, hne⟩
    obtain rfl := (hjudged.reported faults').1 hmem
    by_contra hsound
    exact hne (hjudged.charged.faulty.2 hsound)
  · intro hfaulty
    exact ⟨faults, (hjudged.reported faults).2 rfl,
      fun hnil => hjudged.charged.faulty.1 hnil hfaulty⟩

/-- The arena of a declaration pass reflects every declared name. -/
theorem reflects_named {name : TypeName} (hname : name ∈ s.types.keys) :
    (c.declarationPass s).2.Reflects s s.types.keys (.named name) (s.types.keys.idxOf name) := by
  obtain ⟨k, hk⟩ : ∃ k, s.types.get? name = some k := by
    rw [← Option.isSome_iff_exists]
    exact (s.types.contains_iff_mem_keys name).2 hname
  have hmem : (name, k) ∈ s.types.toList := by
    obtain ⟨e, he, hvalue⟩ := Option.map_eq_some_iff.1 hk
    have hfound := List.find?_some he
    have hkey : e.1 = name := of_decide_eq_true hfound
    rw [← hkey, ← hvalue]
    exact List.mem_of_find?_eq_some he
  obtain ⟨faults, slot, hjudged⟩ := judged hnames hseparates hnesting _ hmem
  have hbody : (c.declarationPass s).2.body? (s.types.keys.idxOf name) = slot.body := by
    rw [Arena.body?, hjudged.position, Option.bind_some]
  refine ⟨k, hk, fun hfaulty => ?_, fun hsound => ?_⟩
  · rw [hbody]
    rcases hjudged.content with ⟨-, hnone⟩ | ⟨hnil, -⟩
    · exact hnone
    · exact absurd hfaulty (hjudged.charged.faulty.1 hnil)
  · rw [hbody]
    rcases hjudged.content with ⟨hne, -⟩ | ⟨-, b, hb, hlinks⟩
    · exact absurd (hjudged.charged.faulty.2 hsound) hne
    · exact ⟨b, hb, Definition.shows_linked hlinks.linked⟩

/-- If a declaration is sound, the arena reflects everything that it refers to, and that
what it contains refers to. -/
theorem reflects_of_sound {e : TypeName × Definition} (he : e ∈ s.types.toList)
    (hsound : ¬ e.2.Faulty s.types.keys) :
    ∀ d ∈ e.2 :: e.2.inlines, ∀ r ∈ d.references,
      (c.declarationPass s).2.Reflects s s.types.keys r
        ((c.declarationPass s).2.locate c.digest s.types.keys r) := by
  intro d hd r hr
  cases r with
  | named name =>
    refine reflects_named hnames hseparates hnesting ?_
    by_contra hmissing
    exact hsound ⟨d, hd, .undeclared name hr hmissing⟩
  | inline f =>
    have hf : f ∈ e.2.inlines := by
      have hmem := Definition.mem_inlines_of_mem_references hr
      rcases List.mem_cons.1 hd with rfl | hd
      · exact hmem
      · exact Definition.inlines_subset hd hmem
    obtain ⟨faults, _, hjudged⟩ := judged hnames hseparates hnesting e he
    obtain ⟨id, slot, body, hid, hslot, -, hbody⟩ :=
      hjudged.charged.serves (hjudged.charged.faulty.2 hsound) f hf
    have hvalid := (c.declarationPass_links s).1
    obtain ⟨slot', hslot', -, hrealises⟩ :=
      hvalid.realises hseparates (Schema.mem_inlines.2 ⟨e, he, hf⟩) hid
    obtain rfl := Option.some.inj (hslot.symm.trans hslot')
    have hshows := Definition.shows_of_linked (hrealises body hbody).2.linked
    refine ⟨f, rfl, fun hfaulty => ?_, fun _ => ⟨body, ?_, hshows⟩⟩
    · exact absurd hfaulty (Definition.not_faulty_of_mem_inlines hsound hf)
    · rw [Arena.locate, Reference.locate, Arena.positionOf_of_finished hid, Arena.body?, hslot,
        Option.bind_some, hbody]

/-- What the checks say of the content of a sound declaration. -/
theorem bodyFaults_declared_iff {e : TypeName × Definition} (he : e ∈ s.types.toList)
    (hsound : ¬ e.2.Faulty s.types.keys) :
    ∃ slot b, (c.declarationPass s).2.slot? (s.types.keys.idxOf e.1) = some slot ∧
      slot.body = some b ∧ slot.owners = [e.1] ∧
        (CrossType.bodyFaults c.settings (c.declarationPass s).2 slot.name b = [] ↔
          ¬ e.2.CrossFault c.settings s fun k => ¬ k.Faulty s.types.keys) := by
  obtain ⟨faults, slot, hjudged⟩ := judged hnames hseparates hnesting e he
  rcases hjudged.content with ⟨hne, -⟩ | ⟨-, b, hb, hlinks⟩
  · exact absurd (hjudged.charged.faulty.2 hsound) hne
  · refine ⟨slot, b, hjudged.position, hb, hjudged.owners, ?_⟩
    exact CrossType.bodyFaults_eq_nil_iff hlinks.sound hlinks.linked
      (reflects_of_sound hnames hseparates hnesting he hsound e.2 (List.mem_cons_self ..))

/-- What the checks say of the content at a definition in place in a sound declaration. -/
theorem bodyFaults_inline_iff {e : TypeName × Definition} (he : e ∈ s.types.toList)
    (hsound : ¬ e.2.Faulty s.types.keys) {f : Definition} (hf : f ∈ e.2.inlines) {id : TypeId}
    (hid : (c.declarationPass s).2.state? (c.digest f.canonical.text) = some (.finished id))
    {t : Slot} (ht : (c.declarationPass s).2.slot? id = some t) {body : Body}
    (hbody : t.body = some body) :
    CrossType.bodyFaults c.settings (c.declarationPass s).2 t.name body = [] ↔
      ¬ f.CrossFault c.settings s fun k => ¬ k.Faulty s.types.keys := by
  have hvalid := (c.declarationPass_links s).1
  rw [declared_of_nodup hnames] at hvalid
  obtain ⟨t', ht', -, hrealises⟩ :=
    hvalid.realises hseparates (Schema.mem_inlines.2 ⟨e, he, hf⟩) hid
  obtain rfl := Option.some.inj (ht.symm.trans ht')
  obtain ⟨hlocal, -, hwritten, -⟩ := (hrealises body hbody).2
  exact CrossType.bodyFaults_eq_nil_iff_of_written hlocal hwritten
    (reflects_of_sound hnames hseparates hnesting he hsound f (List.mem_cons_of_mem _ hf))

/-- A sound declaration is blamed for what does not go together, in it or in what it
contains. -/
theorem exists_crossFault_iff {e : TypeName × Definition} (he : e ∈ s.types.toList)
    (hsound : ¬ e.2.Faulty s.types.keys) :
    (∃ error ∈ CrossType.errors c.settings (c.declarationPass s).2, error.typeName = e.1) ↔
      ∃ d ∈ e.2 :: e.2.inlines,
        d.CrossFault c.settings s fun k => ¬ k.Faulty s.types.keys := by
  obtain ⟨faults, _, hjudged⟩ := judged hnames hseparates hnesting e he
  obtain ⟨slot, b, hslot, hb, howners, hown⟩ :=
    bodyFaults_declared_iff hnames hseparates hnesting he hsound
  rw [CrossType.exists_mem_errors_iff]
  constructor
  · rintro ⟨id, t, body, ht, hbody, howner, hne⟩
    cases hanonymous : t.anonymous with
    | true =>
      obtain ⟨f, hf, hid⟩ := hjudged.charged.contained id t ht hanonymous howner
      have hinline :=
        bodyFaults_inline_iff hnames hseparates hnesting he hsound hf hid ht hbody
      refine ⟨f, List.mem_cons_of_mem _ hf, ?_⟩
      by_contra hnone
      exact hne (hinline.2 hnone)
    | false =>
      have hwell := (c.declarationPass_links s).1.toWellFormed
      rw [declared_of_nodup hnames] at hwell
      rw [hwell.position_of_owner hnames ht hanonymous howner] at hslot
      obtain rfl := Option.some.inj (ht.symm.trans hslot)
      obtain rfl := Option.some.inj (hb.symm.trans hbody)
      refine ⟨e.2, List.mem_cons_self .., ?_⟩
      by_contra hnone
      exact hne (hown.2 hnone)
  · rintro ⟨d, hd, hfault⟩
    rcases List.mem_cons.1 hd with rfl | hd
    · refine ⟨_, slot, b, hslot, hb, ?_, fun hnone => hown.1 hnone hfault⟩
      rw [howners]
      exact List.mem_singleton_self e.1
    · have hnil := hjudged.charged.faulty.2 hsound
      obtain ⟨id, t, body, hid, ht, howner, hbody⟩ := hjudged.charged.serves hnil d hd
      have hinline :=
        bodyFaults_inline_iff hnames hseparates hnesting he hsound hd hid ht hbody
      exact ⟨id, t, body, ht, hbody, howner, fun hnone => hinline.1 hnone hfault⟩

/-! ## The theorem -/

/-- **Blame is exact.**  If names are declared once, digests tell the canonical texts of
definitions in place apart, and these are nested no deeper than allowed, then a declared
type has an error if and only if

* its declaration, or a definition in place that it contains, has a local fault, or
* one of these does not go together with a definition that it refers to, where neither that
  definition nor anything it contains has a local fault. -/
theorem blames_iff {name : TypeName} {d : Definition} (hd : (name, d) ∈ s.types.toList) :
    c.Blames s name ↔
      (∃ e ∈ d :: d.inlines, e.LocalFault s.types.keys) ∨
        ∃ e ∈ d :: d.inlines, e.CrossFault c.settings s fun k => ¬ k.Faulty s.types.keys := by
  rw [blames_iff_of_nodup hnames, exists_reported_iff hnames hseparates hnesting hd]
  by_cases hfaulty : d.Faulty s.types.keys
  · exact ⟨fun _ => Or.inl hfaulty, fun _ => Or.inl hfaulty⟩
  · rw [exists_crossFault_iff hnames hseparates hnesting hd hfaulty]
    exact Iff.rfl

end

/-- A struct with a map in place whose keys are lists. -/
def quarrel : Schema :=
  ⟨⟨[("S", .string), ("K", .list (.named "S") false),
    ("P", .struct
      [.mk "m" (.inline (.map (.named "K") (.named "S") false .map)) false false] .standard)]⟩⟩

theorem blames_iff_quarrel :
    quarrel.types.keys.Nodup ∧ Separates id quarrel.inlines ∧
      (∀ d ∈ quarrel.types.values, d.nesting ≤ Settings.standard.maxInlineDepth) ∧
        ∃ d, ("P", d) ∈ quarrel.types.toList ∧
          (Blames ⟨.standard, id⟩ quarrel "P" ↔
            (∃ e ∈ d :: d.inlines, e.LocalFault quarrel.types.keys) ∨
              ∃ e ∈ d :: d.inlines,
                e.CrossFault .standard quarrel fun k => ¬ k.Faulty quarrel.types.keys) := by
  have hnames : quarrel.types.keys.Nodup := by decide
  have hseparates : Separates id quarrel.inlines := fun _ _ _ _ h => h
  have hnesting : ∀ d ∈ quarrel.types.values,
      d.nesting ≤ Settings.standard.maxInlineDepth := by
    simp [quarrel, Entries.values, Definition.nesting, Reference.nesting, fieldNesting,
      Settings.standard]
  have hd : ("P", .struct [.mk "m" (.inline (.map (.named "K") (.named "S") false .map))
      false false] .standard) ∈ quarrel.types.toList := by
    simp [quarrel]
  exact ⟨hnames, hseparates, hnesting, _, hd,
    blames_iff (c := ⟨.standard, id⟩) hnames hseparates hnesting hd⟩

/-! ## What does not count -/

/-- A list of copies, and a map with such lists as keys. -/
def hearsay : Schema :=
  ⟨⟨[("K", .list (.inline (.copy "X")) false),
    ("M", .map (.named "K") (.named "K") false .map)]⟩⟩

/-- That the declaration of a type has no local fault is not enough for it to count.  The
list in `hearsay` has none, but the copy in it leaves it without content, so that the map is
not blamed for its keys. -/
theorem hearsay_not_blamed :
    ¬ ∀ (c : Compiler) (s : Schema), s.types.keys.Nodup → Separates c.digest s.inlines →
      (∀ d ∈ s.types.values, d.nesting ≤ c.settings.maxInlineDepth) →
        ∀ name d, (name, d) ∈ s.types.toList →
          (c.Blames s name ↔
            (∃ e ∈ d :: d.inlines, e.LocalFault s.types.keys) ∨
              ∃ e ∈ d :: d.inlines,
                e.CrossFault c.settings s fun k => ¬ k.LocalFault s.types.keys) := by
  intro h
  let c : Compiler := ⟨.standard, id⟩
  have herrors : c.errors hearsay (c.declarationPass hearsay) =
      [.charged "K" (.unsupportedKind "copy")] := rfl
  have hlist : ¬ (Definition.list (.inline (.copy "X")) false).LocalFault hearsay.types.keys :=
    ((c.scope hearsay.types.keys "K").ownFaults_eq_nil_iff _).1 rfl
  have hblames : c.Blames hearsay "M" := by
    refine (h c hearsay (by decide) (fun _ _ _ _ h => h) ?_ "M" _
      (List.mem_cons_of_mem _ (List.mem_singleton_self _))).2
        (Or.inr ⟨_, List.mem_cons_self .., .mapKey rfl rfl hlist (by decide)⟩)
    simp [hearsay, c, Entries.values, Definition.nesting, Reference.nesting, Settings.standard]
  rw [blames_iff_exists_error, herrors] at hblames
  obtain ⟨e, he, hname⟩ := hblames
  rw [List.mem_singleton.1 he] at hname
  exact absurd hname (by decide)

end Compiler
end WireSchema
