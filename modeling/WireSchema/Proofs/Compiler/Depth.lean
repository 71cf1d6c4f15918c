import WireSchema.Proofs.Compiler.Rounds
import WireSchema.Proofs.Resolution.Depth

/-!
# The limit on nesting, declaration by declaration

A declaration that nests definitions in place deeper than the settings allow is reported, and
no other is, as long as depth is the same to the limit wherever a definition stands
(`Compiler.rejectsTooDeep_iff`).

Without this condition neither direction holds.  A definition that was compiled where it was
not too deep is taken from there where it is, and nobody is told
(`Compiler.compile_shallowFirst`); and one that was too deep where it was met first is
reported wherever it is met again.
-/

namespace WireSchema

/-! ## Depth -/

namespace Schema

/-- The places of a schema. -/
def places (s : Schema) : List Place :=
  s.types.toList.flatMap fun e => e.2.places 0

theorem places_subset {s : Schema} {e : TypeName × Definition} (he : e ∈ s.types.toList) :
    e.2.places 0 ⊆ s.places :=
  fun _ hp => List.mem_flatMap.2 ⟨e, he, hp⟩

/-- Whether depth does not depend on where a definition in place is met first: those with one
canonical text reach beyond the limit everywhere or nowhere, and one that does stands only
once in a declaration. -/
structure EvenlyDeep (s : Schema) (limit : Nat) : Prop where
  uniform : ∀ p ∈ s.places, ∀ q ∈ s.places, p.text = q.text → p.Exceeds limit → q.Exceeds limit
  once : ∀ e ∈ s.types.toList, ∀ p ∈ e.2.places 0, p.Exceeds limit →
    ((e.2.places 0).map Place.text).count p.text ≤ 1

end Schema

theorem Arena.Measured.of_agrees {digest : String → String} {limit : Nat}
    {within : List Definition} {places : List Place} {declared : List TypeName} {a b : Arena}
    (hvalid : a.Valid digest declared within) (hagrees : a.Agrees declared b)
    (h : a.Measured digest limit within places) : b.Measured digest limit within places := by
  intro e he id slot hid hslot
  rw [hagrees.states] at hid
  rw [hagrees.slots id (hvalid.declared_le hid)] at hslot
  exact h e he id slot hid hslot

namespace Compiler

variable {c : Compiler} {s : Schema}

/-- **What the declaration pass tells of depth.** -/
theorem declarationPass_tellsDepth (hnames : s.types.keys.Nodup)
    (hseparates : Separates c.digest s.inlines) (h : s.EvenlyDeep c.settings.maxInlineDepth) :
    List.Forall₂ (fun e r => r.1 = e.1 ∧
        (tooDeepFault c.settings.maxInlineDepth ∈ r.2 ↔ c.settings.maxInlineDepth < e.2.nesting))
      s.accepted (c.declarationPass s).1 := by
  refine (declarationPass_rounds (c := c) (s := s)
    (I := fun _ a => a.Measured c.digest c.settings.maxInlineDepth s.inlines s.places)
    (Q := fun e faults => tooDeepFault c.settings.maxInlineDepth ∈ faults ↔
      c.settings.maxInlineDepth < e.2.nesting) ?first ?agrees ?round).2
  case first =>
    intro e he id slot hid
    cases hid
  case agrees => exact fun hvalid hagrees => .of_agrees hvalid hagrees
  case round =>
    intro before e rest a hsplit hbetween hmeasured
    let scope := c.scope (declared s) e.1
    have he : e ∈ s.types.toList := by
      rw [← Schema.accepted_of_nodup hnames, hsplit]
      exact List.mem_append_right _ (List.mem_cons_self ..)
    have hlevel : scope.Level s.inlines s.places ([] ++ e.2.places 0) := by
      rw [List.nil_append]
      exact ⟨Scope.within_places (fun f hf => Schema.mem_inlines.2 ⟨e, he, hf⟩) 0,
        Schema.places_subset he, h.once e he⟩
    have hwalk : scope.WalkInvariant (scope.Level s.inlines s.places) _ _ :=
      Scope.measured_walk h.uniform hseparates
    obtain ⟨faults, hperm, ⟨-, hend⟩, htold⟩ :=
      hwalk.compile [] 0 e.2 a hlevel ⟨hbetween.surveyed _, hmeasured⟩
    refine ⟨hend, ?_⟩
    rw [hperm.mem_iff, List.mem_append,
      or_iff_right (scope.tooDeep_notMem_ownFaults c.settings.maxInlineDepth e.2)]
    refine Iff.trans htold ?_
    rw [← Nat.zero_add e.2.nesting]
    exact Definition.exists_reach_iff (Nat.zero_le _)

/-! ## Whole schemas -/

/-- Whether a compile is rejected with the error that a type nests too deep. -/
def RejectsTooDeep (c : Compiler) (s : Schema) (name : TypeName) : Prop :=
  ∃ es, c.compile s = .error (.rejected es) ∧
    .charged name (tooDeepFault c.settings.maxInlineDepth) ∈ es.toList

theorem rejectsTooDeep_iff_mem {name : TypeName} :
    c.RejectsTooDeep s name ↔ .charged name (tooDeepFault c.settings.maxInlineDepth) ∈
      declarationErrors (c.declarationPass s).1 := by
  rw [RejectsTooDeep, exists_rejected_iff]
  exact c.charged_mem_errors_iff s fun _ heq => by cases heq

/-- **The limit applies to every declaration by its own nesting**, as long as depth is the
same to the limit wherever a definition in place stands: a declaration is rejected for its
depth if and only if it nests more definitions in place than allowed.  In particular a
schema with such a declaration is not accepted. -/
theorem rejectsTooDeep_iff (hnames : s.types.keys.Nodup)
    (hseparates : Separates c.digest s.inlines) (h : s.EvenlyDeep c.settings.maxInlineDepth) :
    (∀ e ∈ s.types.toList, c.RejectsTooDeep s e.1 ↔ c.settings.maxInlineDepth < e.2.nesting) ∧
      ∀ ts, c.compile s = .ok ts →
        ∀ e ∈ s.types.toList, e.2.nesting ≤ c.settings.maxInlineDepth := by
  have hiff : ∀ e ∈ s.types.toList,
      c.RejectsTooDeep s e.1 ↔ c.settings.maxInlineDepth < e.2.nesting := by
    intro e he
    rw [← Schema.accepted_of_nodup hnames] at he
    obtain ⟨faults, htells, hfilter⟩ := filter_declarationErrors
      (Q := fun e faults => tooDeepFault c.settings.maxInlineDepth ∈ faults ↔
        c.settings.maxInlineDepth < e.2.nesting)
      (declarationPass_tellsDepth hnames hseparates h) s.nodup_accepted he
    have hcharged : .charged e.1 (tooDeepFault c.settings.maxInlineDepth) ∈
        (declarationErrors (c.declarationPass s).1).filter (fun f => f.typeName = e.1) ↔
          tooDeepFault c.settings.maxInlineDepth ∈ faults := by
      rw [hfilter, List.mem_map]
      constructor
      · rintro ⟨fault, hfault, heq⟩
        cases heq
        exact hfault
      · exact fun hfault => ⟨_, hfault, rfl⟩
    rw [rejectsTooDeep_iff_mem, ← htells, ← hcharged, List.mem_filter]
    exact (and_iff_left (decide_eq_true rfl)).symm
  refine ⟨hiff, fun ts hok e he => ?_⟩
  by_contra hdeep
  obtain ⟨es, hrejected, -⟩ := (hiff e he).2 (Nat.lt_of_not_le hdeep)
  rw [hok] at hrejected
  cases hrejected

instance (limit : Nat) (p : Place) : Decidable (p.Exceeds limit) :=
  inferInstanceAs (Decidable (_ < _))

/-- Two declarations that share a definition two deep, and one that is less deep. -/
def alikeDeep : Schema :=
  ⟨⟨[("S", .string),
    ("A", .list (.inline (.list (.inline (.list (.named "S") false)) false)) false),
    ("B", .list (.inline (.list (.inline (.list (.named "S") false)) false)) true),
    ("C", .list (.inline (.list (.named "S") true)) false)]⟩⟩

theorem rejectsTooDeep_alikeDeep :
    alikeDeep.types.keys.Nodup ∧ Separates id alikeDeep.inlines ∧ alikeDeep.EvenlyDeep 1 ∧
      RejectsTooDeep ⟨⟨1, true⟩, id⟩ alikeDeep "A" ∧ RejectsTooDeep ⟨⟨1, true⟩, id⟩ alikeDeep "B" ∧
        ¬ RejectsTooDeep ⟨⟨1, true⟩, id⟩ alikeDeep "C" := by
  have hnames : alikeDeep.types.keys.Nodup := by decide
  have hseparates : Separates id alikeDeep.inlines := fun _ _ _ _ h => h
  have heven : alikeDeep.EvenlyDeep 1 := ⟨by decide +kernel, by decide +kernel⟩
  obtain ⟨hiff, -⟩ := rejectsTooDeep_iff (c := ⟨⟨1, true⟩, id⟩) hnames hseparates heven
  refine ⟨hnames, hseparates, heven, (hiff _ (.tail _ (.head _))).2 ?_,
    (hiff _ (.tail _ (.tail _ (.head _)))).2 ?_, fun h => ?_⟩
  · decide +kernel
  · decide +kernel
  · exact absurd ((hiff _ (.tail _ (.tail _ (.tail _ (.head _))))).1 h) (by decide +kernel)

/-- A definition that is shallow in the declaration where it is met first. -/
def shallowFirst : Schema :=
  ⟨⟨[("S", .string),
    ("B", .list (.inline (.list (.named "S") false)) false),
    ("A", .list (.inline (.list (.inline (.list (.named "S") false)) false)) false)]⟩⟩

/-- A definition that is deep in the declaration where it is met first. -/
def deepFirst : Schema :=
  ⟨⟨[("S", .string),
    ("A", .list (.inline (.list (.inline (.list (.inline (.list (.named "S") false)) false))
      false)) false),
    ("T", .list (.inline (.list (.inline (.list (.named "S") false)) false)) false)]⟩⟩

/-- Depth is measured where a definition is met first.  A declaration that nests too deep may
be accepted, and one that does not may be rejected for it. -/
theorem compile_shallowFirst :
    (∃ ts, compile ⟨⟨1, true⟩, id⟩ shallowFirst = .ok ts) ∧
      (∃ e ∈ shallowFirst.types.toList, e.1 = "A" ∧ 1 < e.2.nesting) ∧
        RejectsTooDeep ⟨⟨2, true⟩, id⟩ deepFirst "T" ∧
          ∃ e ∈ deepFirst.types.toList, e.1 = "T" ∧ e.2.nesting ≤ 2 := by
  exact ⟨⟨_, rfl⟩, ⟨_, .tail _ (.tail _ (.head _)), rfl, by decide +kernel⟩,
    rejectsTooDeep_iff_mem.2 (by decide +kernel),
    ⟨_, .tail _ (.tail _ (.head _)), rfl, by decide +kernel⟩⟩

end Compiler
end WireSchema
