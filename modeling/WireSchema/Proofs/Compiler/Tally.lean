import WireSchema.Proofs.Compiler.Rounds
import WireSchema.Proofs.Resolution.Tally

/-!
# Every fault once, declaration by declaration

The declaration pass charges a type with the faults of its declaration and of the definitions
in place that it contains, each canonical text once, if definitions with faults that are
inside shared ones stand only once (`Compiler.declarationErrors_perm`).  What it charges can
then be read off the declaration and the declared names; neither the other declarations nor
their order have a part in it.

Without this condition a type may be charged twice with one fault, or not at all
(`Compiler.declarationErrors_twice`).
-/

namespace WireSchema

namespace Schema

/-- Whether a canonical text is that of definitions in place in several declarations. -/
def Shared (s : Schema) (text : String) : Prop :=
  ∃ e ∈ s.types.toList, ∃ e' ∈ s.types.toList, e.1 ≠ e'.1 ∧ text ∈ texts e.2.placed ∧
    text ∈ texts e'.2.placed

/-- Whether definitions in place that have a fault and are inside one that several
declarations contain stand only once in each declaration. -/
def FaultsApart (s : Schema) : Prop :=
  ∀ e ∈ s.types.toList, ∀ d ∈ e.2.placed, s.Shared d.canonical.text →
    ∀ f ∈ d.placed, f.LocalFault s.types.keys → (texts e.2.placed).count f.canonical.text ≤ 1

end Schema

namespace Scope

/-- What is wrong with a definition and with what it contains, each canonical text once. -/
def allFaults (scope : Scope) (d : Definition) : List Fault :=
  scope.ownFaults d ++ scope.freshFaults [] d.placed

theorem members_of_declared {scope scope' : Scope} (h : scope.declared = scope'.declared)
    (names : MemberNames) (rs : List Reference) :
    scope.members names rs = scope'.members names rs := by
  induction rs generalizing names with
  | nil => rfl
  | cons r rest ih =>
    cases r with
    | named name => simp only [members, resolveName, h, ih]
    | inline d => simp only [members, ih]

/-- What is wrong with a definition depends on the declared names only. -/
theorem ownFaults_of_declared {scope scope' : Scope} (h : scope.declared = scope'.declared)
    (d : Definition) : scope.ownFaults d = scope'.ownFaults d := by
  have hname : scope.resolveName = scope'.resolveName := by
    funext name
    rw [resolveName, resolveName, h]
  have hreference : scope.referenceFaults = scope'.referenceFaults := by
    funext r
    cases r with
    | named name => rw [referenceFaults, referenceFaults, hname]
    | inline e => rfl
  have hform : scope.formFaults d = scope'.formFaults d := by
    cases d with
    | map key value valueNullable representation =>
      cases key with
      | named name => simp only [formFaults, mapKey, hname]
      | inline e => rfl
    | union members representation =>
      simp only [formFaults, union, h, members_of_declared h]
    | _ => rfl
  rw [ownFaults, ownFaults, hform, hreference]

theorem freshFaults_of_declared (scope scope' : Scope) (h : scope.declared = scope'.declared)
    (before : List String) (ds : List Definition) :
    scope.freshFaults before ds = scope'.freshFaults before ds :=
  List.flatMap_congr fun d _ => ownFaults_of_declared h d

/-- What slots remember does not depend on the owner at hand. -/
theorem Tallied.of_owner {settings : Settings} {digest : String → String}
    {declared : List TypeName} {owner owner' : TypeName} {within : List Definition}
    {shared : String → Prop} {a : Arena}
    (h : Tallied ⟨settings, digest, declared, owner⟩ within shared a) :
    Tallied ⟨settings, digest, declared, owner'⟩ within shared a where
  clean := h.clean
  inside := h.inside
  total e he id slot hid hslot hshared := by
    rw [freshFaults_of_declared ⟨settings, digest, declared, owner'⟩
      ⟨settings, digest, declared, owner⟩ rfl]
    exact h.total e he id slot hid hslot hshared

theorem Tallied.of_agrees {scope : Scope} {within : List Definition} {shared : String → Prop}
    {a b : Arena} (hvalid : a.WellFormed scope.declared) (hagrees : a.Agrees scope.declared b)
    (h : scope.Tallied within shared a) : scope.Tallied within shared b where
  clean e he id slot hsound hid hslot := by
    rw [hagrees.states] at hid
    rw [hagrees.slots id (hvalid.declared_le hid)] at hslot
    exact h.clean e he id slot hsound hid hslot
  inside e he id hid f hf := by
    rw [hagrees.states] at hid
    obtain ⟨i, hi⟩ := h.inside e he id hid f hf
    exact ⟨i, (hagrees.states _).trans hi⟩
  total e he id slot hid hslot hshared := by
    rw [hagrees.states] at hid
    rw [hagrees.slots id (hvalid.declared_le hid)] at hslot
    exact h.total e he id slot hid hslot hshared

end Scope

namespace Compiler

variable {c : Compiler} {s : Schema}

/-- Whether everything finished was met in one of some declarations. -/
def SeenIn (c : Compiler) (within : List Definition) (before : List (TypeName × Definition))
    (a : Arena) : Prop :=
  ∀ d ∈ within, ∀ id, a.state? (c.digest d.canonical.text) = some (.finished id) →
    ∃ e ∈ before, d.canonical.text ∈ texts e.2.placed

/-- The places of a declaration are as a walk has to have them. -/
theorem apart_places (hnames : s.types.keys.Nodup)
    (hnesting : ∀ e ∈ s.types.toList, e.2.nesting ≤ c.settings.maxInlineDepth)
    (h : s.FaultsApart) {before rest : List (TypeName × Definition)} {e : TypeName × Definition}
    (hsplit : s.types.toList = before ++ e :: rest) :
    (c.scope s.types.keys e.1).Apart s.inlines s.Shared
      (fun text => ∃ f ∈ before, text ∈ texts f.2.placed) (e.2.places 0) := by
  have he : e ∈ s.types.toList := hsplit ▸ List.mem_append_right _ (List.mem_cons_self ..)
  have htext : ∀ p ∈ e.2.places 0, p.text ∈ texts e.2.placed := by
    intro p hp
    rw [← Definition.map_text_places 0]
    exact List.mem_map_of_mem hp
  refine ⟨Scope.within_places (fun f hf => Schema.mem_inlines.2 ⟨e, he, hf⟩) 0, fun p hp => ?_,
    fun p hp => ?_, fun q hq hshared f hf hfault => ?_⟩
  · have hreach := Definition.reach_le hp
    have hlimit := hnesting e he
    show p.depth < c.settings.maxInlineDepth
    omega
  · rintro ⟨f, hf, hmem⟩
    refine ⟨e, he, f, hsplit ▸ List.mem_append_left _ hf, fun hname => ?_, htext p hp, hmem⟩
    have hnodup : (s.types.toList.map Prod.fst).Nodup := hnames
    rw [hsplit, List.map_append, List.map_cons, List.nodup_append] at hnodup
    exact hnodup.2.2 f.1 (List.mem_map_of_mem hf) e.1 (List.mem_cons_self ..) hname.symm
  · rw [Definition.map_text_places]
    have hlocal : f.LocalFault s.types.keys := by
      by_contra hsound
      exact hfault (((c.scope s.types.keys e.1).ownFaults_eq_nil_iff f).2 hsound)
    exact h e he q.definition (List.mem_map_of_mem hq) hshared f hf hlocal

/-- **What the declaration pass finds in every declaration.** -/
theorem declarationPass_allFaults (hnames : s.types.keys.Nodup)
    (hseparates : Separates c.digest s.inlines)
    (hnesting : ∀ e ∈ s.types.toList, e.2.nesting ≤ c.settings.maxInlineDepth)
    (h : s.FaultsApart) :
    List.Forall₂ (fun e r => r.1 = e.1 ∧
        r.2.Perm ((c.scope s.types.keys e.1).allFaults e.2))
      s.accepted (c.declarationPass s).1 := by
  have haccepted := Schema.accepted_of_nodup hnames
  have hdeclared := declared_of_nodup hnames
  refine (declarationPass_rounds (c := c) (s := s)
    (I := fun before a => (c.scope (declared s) "").Tallied s.inlines s.Shared a ∧
      c.SeenIn s.inlines before a)
    (Q := fun e faults => faults.Perm ((c.scope s.types.keys e.1).allFaults e.2))
    ?first ?agrees ?round).2
  case first =>
    refine ⟨⟨fun e _ id slot _ hid => ?_, fun e _ id hid => ?_, fun e _ id slot hid => ?_⟩,
      fun e _ id hid => ?_⟩ <;> cases hid
  case agrees =>
    rintro before a b hvalid hagrees ⟨htallied, hseen⟩
    refine ⟨htallied.of_agrees hvalid.toWellFormed hagrees, fun d hd id hid => ?_⟩
    rw [hagrees.states] at hid
    exact hseen d hd id hid
  case round =>
    rintro before e rest a hsplit hbetween ⟨htallied, hseen⟩
    rw [hdeclared] at hbetween htallied ⊢
    let scope := c.scope s.types.keys e.1
    have hapart := apart_places (c := c) hnames hnesting h (haccepted ▸ hsplit)
    have haccounts : scope.Accounts s.inlines s.Shared
        (fun text => ∃ f ∈ before, text ∈ texts f.2.placed) e.2.inlines.length [] a := by
      refine ⟨hbetween.surveyed _, htallied.of_owner, fun d hd id hid => Or.inr (hseen d hd id hid),
        fun _ _ _ _ hid hslot howner => absurd howner (hbetween.owner_notMem hid hslot),
        fun _ hp => absurd hp List.not_mem_nil, fun _ hp => absurd hp List.not_mem_nil⟩
    obtain ⟨faults, hperm, hend, htold⟩ :=
      (Scope.accounts_walk hseparates).compile [] 0 e.2 a hapart haccounts
    refine ⟨⟨hend.tallied.of_owner, fun d hd id hid => ?_⟩, hperm.trans (htold.append_left _)⟩
    rcases hend.seen d hd id hid with hmet | ⟨f, hf, hmet⟩
    · rw [List.nil_append, Definition.map_text_places] at hmet
      exact ⟨e, List.mem_append_right _ (List.mem_singleton_self e), hmet⟩
    · exact ⟨f, List.mem_append_left _ hf, hmet⟩

/-- **Every fault is charged once to every type that contains it**, if what has a fault and is
inside something shared stands only once: the errors that the declaration pass charges to a
type are the faults of its declaration and of the definitions in place that it contains, each
canonical text once.  They depend on the declaration and on the declared names, and on nothing
else. -/
theorem declarationErrors_perm (hnames : s.types.keys.Nodup)
    (hseparates : Separates c.digest s.inlines)
    (hnesting : ∀ e ∈ s.types.toList, e.2.nesting ≤ c.settings.maxInlineDepth)
    (h : s.FaultsApart) :
    ∀ e ∈ s.types.toList,
      ((declarationErrors (c.declarationPass s).1).filter fun f => f.typeName = e.1).Perm
        (((c.scope s.types.keys e.1).allFaults e.2).map (.charged e.1)) := by
  intro e he
  rw [← Schema.accepted_of_nodup hnames] at he
  obtain ⟨faults, hperm, hfilter⟩ := filter_declarationErrors
    (Q := fun e faults => faults.Perm ((c.scope s.types.keys e.1).allFaults e.2))
    (declarationPass_allFaults hnames hseparates hnesting h) s.nodup_accepted he
  rw [hfilter]
  exact hperm.map _

/-- Two declarations that share a definition with a faulty one inside. -/
def faultyTwins : Schema :=
  ⟨⟨[("A", .list (.inline (.list (.inline (.copy "Q")) false)) false),
    ("B", .list (.inline (.list (.inline (.copy "Q")) false)) true)]⟩⟩

theorem declarationErrors_faultyTwins :
    faultyTwins.types.keys.Nodup ∧ Separates id faultyTwins.inlines ∧
      (∀ e ∈ faultyTwins.types.toList, e.2.nesting ≤ 32) ∧ faultyTwins.FaultsApart ∧
        ((declarationErrors (declarationPass ⟨.standard, id⟩ faultyTwins).1).filter
          fun f => f.typeName = "B").Perm [.charged "B" (.unsupportedKind "copy")] := by
  have hnames : faultyTwins.types.keys.Nodup := by decide
  have hseparates : Separates id faultyTwins.inlines := fun _ _ _ _ h => h
  have hnesting : ∀ e ∈ faultyTwins.types.toList, e.2.nesting ≤ 32 := by decide +kernel
  have honce : ∀ e ∈ faultyTwins.types.toList, ∀ d ∈ e.2.placed, ∀ f ∈ d.placed,
      (texts e.2.placed).count f.canonical.text ≤ 1 := by decide +kernel
  have hapart : faultyTwins.FaultsApart := fun e he d hd _ f hf _ => honce e he d hd f hf
  exact ⟨hnames, hseparates, hnesting, hapart, declarationErrors_perm (c := ⟨.standard, id⟩) hnames
    hseparates hnesting hapart _ (.tail _ (.head _))⟩

/-- A type that is shared, and again contains what was told when it was. -/
def toldTwice : Schema :=
  ⟨⟨[("A", .list (.inline (.list (.inline (.list (.named "Q") false)) false)) false),
    ("T", .struct [⟨"f", .inline (.list (.inline (.list (.named "Q") false)) false), false, false⟩,
      ⟨"g", .inline (.list (.named "Q") false), false, false⟩] (.map none))]⟩⟩

/-- A type that is shared, and compiled when what is inside it had been told. -/
def toldBefore : Schema :=
  ⟨⟨[("A", .struct [⟨"p", .inline (.list (.named "Q") false), false, false⟩,
      ⟨"q", .inline (.struct [⟨"u", .inline (.list (.named "Q") false), false, false⟩,
        ⟨"v", .inline (.copy "R"), false, false⟩] (.map none)), false, false⟩] (.map none)),
    ("T", .list (.inline (.struct [⟨"u", .inline (.list (.named "Q") false), false, false⟩,
        ⟨"v", .inline (.copy "R"), false, false⟩] (.map none))) false)]⟩⟩

/-- A definition with a fault that is inside a shared one and stands in a declaration a second
time may be charged twice, or not at all: two errors are charged where there is one fault, and
one where there are two. -/
theorem declarationErrors_twice :
    ((declarationErrors (declarationPass ⟨.standard, id⟩ toldTwice).1).filter
        fun f => f.typeName = "T").length = 2 ∧
      (∀ e ∈ toldTwice.types.toList, e.1 = "T" →
        ((scope ⟨.standard, id⟩ toldTwice.types.keys e.1).allFaults e.2).length = 1) ∧
      ((declarationErrors (declarationPass ⟨.standard, id⟩ toldBefore).1).filter
        fun f => f.typeName = "T").length = 1 ∧
      ∀ e ∈ toldBefore.types.toList, e.1 = "T" →
        ((scope ⟨.standard, id⟩ toldBefore.types.keys e.1).allFaults e.2).length = 2 := by
  refine ⟨?_, ?_, ?_, ?_⟩ <;> decide +kernel

end Compiler
end WireSchema
