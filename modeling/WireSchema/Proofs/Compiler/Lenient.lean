import WireSchema.Proofs.Compiler.Outcome

/-!
# Settings reject and do nothing else

A compile that succeeds under some settings succeeds under any that are more lenient, and
returns the same type system (`Compiler.compile_lenient`).  So a type system may be kept
under the fingerprint of its schema, which says nothing about the settings.

Settings are asked twice: whether a new definition in place is too deep, and whether the key
type of a map has to be a text.  In both places the answer either adds a fault or changes
nothing.  A pass without faults has therefore had the lenient answer all along, and a pass
under more lenient settings goes through the same arenas.  `Pass.CarriesOver` is this
relation between two passes.  It is kept by everything that passes are made of, so that only
placing a definition has to be looked at (`Scope.place_carriesOver`).
-/

namespace WireSchema

/-! ## Passes -/

/-- Whether one pass does what another does wherever that reports no fault. -/
def Pass.CarriesOver {α : Type} (p q : Pass α) : Prop :=
  ∀ a, (p a).1.faults = [] → q a = p a

namespace Pass.CarriesOver

variable {α β : Type}

theorem refl (p : Pass α) : p.CarriesOver p :=
  fun _ _ => rfl

theorem bind {p q : Pass α} {f g : α → Pass β} (h : p.CarriesOver q)
    (hrest : ∀ x, (f x).CarriesOver (g x)) : (p >>= f).CarriesOver (q >>= g) := by
  intro a hfaults
  rw [Pass.bind_apply] at hfaults ⊢
  obtain ⟨hfirst, hsecond⟩ := List.append_eq_nil_iff.1 hfaults
  rw [Pass.bind_apply, h a hfirst, hrest _ _ hsecond]

theorem unlessFaulty {p q : Pass (Option α)} (h : p.CarriesOver q) :
    p.unlessFaulty.CarriesOver q.unlessFaulty := by
  intro a hfaults
  rw [Pass.unlessFaulty_apply] at hfaults
  rw [Pass.unlessFaulty_apply, Pass.unlessFaulty_apply, h a hfaults]

end Pass.CarriesOver

/-! ## Definitions -/

namespace Scope

/-- The same scope under other settings. -/
def under (scope : Scope) (settings : Settings) : Scope :=
  { scope with settings }

variable (scope : Scope) (settings : Settings)

@[simp] theorem digest_under : (scope.under settings).digest = scope.digest := rfl

@[simp] theorem owner_under : (scope.under settings).owner = scope.owner := rfl

theorem members_under (members : List Reference) (names : MemberNames) :
    (scope.under settings).members names members = scope.members names members := by
  induction members generalizing names with
  | nil => rfl
  | cons r rest ih =>
    cases r with
    | named name =>
      have hname : (scope.under settings).resolveName name = scope.resolveName name := rfl
      rw [Scope.members, Scope.members, hname]
      split
      · rw [ih]
      · rw [ih]
    | inline d => rw [Scope.members, Scope.members, ih]

theorem mapKey_under (key : Reference) :
    (scope.under settings).mapKey key = scope.mapKey key := by
  cases key <;> rfl

variable {scope settings}

/-- A definition that has not been too deep is not too deep under a higher limit. -/
theorem place_carriesOver (hdepth : scope.settings.maxInlineDepth ≤ settings.maxInlineDepth)
    (depth : Nat) (d : Definition) {compile compile' : Pass (Option Body)}
    (h : compile.CarriesOver compile') :
    (scope.place depth d compile).CarriesOver ((scope.under settings).place depth d compile') := by
  intro a hfaults
  simp only [place, digest_under, owner_under] at hfaults ⊢
  split
  · rfl
  · rfl
  · next hstate =>
    simp only [hstate] at hfaults
    split at hfaults
    · cases hfaults
    · next hshallow =>
      have hshallow' : ¬ (scope.under settings).settings.maxInlineDepth ≤ depth :=
        fun hdeep => hshallow (Nat.le_trans hdepth hdeep)
      rw [if_neg hshallow, if_neg hshallow', h _ hfaults]

mutual

theorem resolve_carriesOver (hdepth : scope.settings.maxInlineDepth ≤ settings.maxInlineDepth) :
    ∀ (depth : Nat) (r : Reference),
      (scope.resolve depth r).CarriesOver ((scope.under settings).resolve depth r)
  | _, .named name => by
    rw [resolve, resolve]
    exact .refl _
  | depth, .inline d => by
    rw [resolve, resolve]
    exact place_carriesOver hdepth depth d (compile_carriesOver hdepth (depth + 1) d)

/-- **A definition that compiles without faults compiles to the same content**, from and to
the same arena, under settings that allow as much nesting. -/
theorem compile_carriesOver (hdepth : scope.settings.maxInlineDepth ≤ settings.maxInlineDepth) :
    ∀ (depth : Nat) (d : Definition),
      (scope.compile depth d).CarriesOver ((scope.under settings).compile depth d)
  | _, .bool | _, .string | _, .bytes | _, .int | _, .float | _, .link none | _, .enum _ _
  | _, .copy _ => by
    rw [compile, compile]
    exact .refl _
  | depth, .link (some target) => by
    rw [compile, compile]
    exact .unlessFaulty (.bind (resolve_carriesOver hdepth depth target) fun _ => .refl _)
  | depth, .map key value _ _ => by
    rw [compile, compile, mapKey_under]
    refine .unlessFaulty (.bind (.refl _) fun _ => ?_)
    exact .bind (resolve_carriesOver hdepth depth value) fun _ => .refl _
  | depth, .list value _ => by
    rw [compile, compile]
    exact .unlessFaulty (.bind (resolve_carriesOver hdepth depth value) fun _ => .refl _)
  | depth, .struct fields _ => by
    rw [compile, compile]
    refine .unlessFaulty (.bind (.refl _) fun _ => ?_)
    exact .bind (resolveFields_carriesOver hdepth depth fields) fun _ => .refl _
  | _, .union members representation => by
    have hunion : (scope.under settings).union members representation =
        scope.union members representation := by
      rw [union, union, members_under]
      rfl
    rw [compile, compile, hunion]
    exact .refl _

theorem resolveFields_carriesOver
    (hdepth : scope.settings.maxInlineDepth ≤ settings.maxInlineDepth) :
    ∀ (depth : Nat) (fields : List Field),
      (scope.resolveFields depth fields).CarriesOver
        ((scope.under settings).resolveFields depth fields)
  | _, [] => by
    rw [resolveFields, resolveFields]
    exact .refl _
  | depth, .mk _ type _ _ :: rest => by
    rw [resolveFields, resolveFields]
    refine .bind (resolve_carriesOver hdepth depth type) fun _ => ?_
    exact .bind (resolveFields_carriesOver hdepth depth rest) fun _ => .refl _

end

end Scope

/-! ## Types that go together -/

/-- Types between which nothing is wrong go together under settings that ask for less. -/
theorem CrossType.errors_eq_nil_of_lenient {settings settings' : Settings} {a : Arena}
    (hstrict : settings'.strictMapKeys = true → settings.strictMapKeys = true)
    (h : errors settings a = []) : errors settings' a = [] := by
  have hbody : ∀ (name : TypeName) (b : Body), bodyFaults settings a name b = [] →
      bodyFaults settings' a name b = [] := by
    intro name b hnil
    cases b with
    | map key value nullable layout =>
      simp only [bodyFaults] at hnil ⊢
      split
      · next hkeys => rwa [if_pos (hstrict hkeys)] at hnil
      · rfl
    | struct fields layout => cases layout <;> exact hnil
    | union members layout => cases layout <;> exact hnil
    | _ => exact hnil
  rw [errors, List.flatMap_eq_nil_iff] at h ⊢
  intro slot hslot
  have hnil := h slot hslot
  rw [slotErrors] at hnil ⊢
  cases hb : slot.body with
  | none => rfl
  | some b =>
    simp only [hb, List.flatMap_eq_nil_iff, List.map_eq_nil_iff] at hnil ⊢
    intro fault hfault
    by_cases hfaults : bodyFaults settings a slot.name b = []
    · rw [hbody _ _ hfaults] at hfault
      cases hfault
    · obtain ⟨other, hother⟩ := List.exists_mem_of_ne_nil _ hfaults
      exact hnil other hother

/-! ## Schemas -/

namespace Compiler

variable {digest : String → String} {settings settings' : Settings} {s : Schema}

/-- The declaration pass, if it finds nothing wrong. -/
theorem declarations_lenient (hdepth : settings.maxInlineDepth ≤ settings'.maxInlineDepth)
    (declared : List TypeName) (ds : List (TypeName × Definition)) (id : TypeId) (a : Arena)
    (h : ∀ r ∈ (declarations ⟨settings, digest⟩ declared id ds a).1, r.2 = []) :
    declarations ⟨settings', digest⟩ declared id ds a =
      declarations ⟨settings, digest⟩ declared id ds a := by
  induction ds generalizing id a with
  | nil => rfl
  | cons e rest ih =>
    obtain ⟨name, d⟩ := e
    rw [declarations_cons] at h ⊢
    have hcarries : ((scope ⟨settings, digest⟩ declared name).compile 0 d).CarriesOver
        (((scope ⟨settings, digest⟩ declared name).under settings').compile 0 d) :=
      Scope.compile_carriesOver hdepth 0 d
    have hsame : (scope ⟨settings', digest⟩ declared name).compile 0 d a =
        (scope ⟨settings, digest⟩ declared name).compile 0 d a :=
      hcarries a (h _ (List.mem_cons_self ..))
    rw [declarations_cons, hsame, ih (id + 1) _ fun r hr => h r (List.mem_cons_of_mem _ hr)]

/-- A compile that succeeds does so under more lenient settings, with the same result. -/
theorem compile_of_lenient (hdepth : settings.maxInlineDepth ≤ settings'.maxInlineDepth)
    (hstrict : settings'.strictMapKeys = true → settings.strictMapKeys = true) {ts : TypeSystem}
    (h : compile ⟨settings, digest⟩ s = .ok ts) : compile ⟨settings', digest⟩ s = .ok ts := by
  obtain ⟨herrors, hassemble, hfingerprint⟩ := (compile_eq_ok_iff _ s).1 h
  have hpass : declarationPass ⟨settings', digest⟩ s = declarationPass ⟨settings, digest⟩ s :=
    declarations_lenient hdepth _ s.accepted 0 _ (pass_of_compile h).2.1
  simp only [errors, List.append_eq_nil_iff] at herrors
  refine (compile_eq_ok_iff _ s).2 ⟨?_, by rw [hpass, hassemble], hfingerprint⟩
  rw [errors, hpass, herrors.1.1, herrors.1.2]
  exact CrossType.errors_eq_nil_of_lenient hstrict herrors.2

/-- **Settings reject and do nothing else.**  If a schema compiles under some settings, it
compiles to the same type system under all that allow as much nesting and do not ask for text
keys where the first did not.  And whatever the settings, all compiles of a schema that
succeed return the same type system. -/
theorem compile_lenient (digest : String → String) (s : Schema) :
    (∀ c₁ c₂ : Settings, c₁.maxInlineDepth ≤ c₂.maxInlineDepth →
      (c₂.strictMapKeys = true → c₁.strictMapKeys = true) →
        ∀ ts, compile ⟨c₁, digest⟩ s = .ok ts → compile ⟨c₂, digest⟩ s = .ok ts) ∧
      ∀ (c₁ c₂ : Settings) (ts₁ ts₂ : TypeSystem), compile ⟨c₁, digest⟩ s = .ok ts₁ →
        compile ⟨c₂, digest⟩ s = .ok ts₂ → ts₁ = ts₂ := by
  refine ⟨fun c₁ c₂ hdepth hstrict ts h => compile_of_lenient hdepth hstrict h, ?_⟩
  intro c₁ c₂ ts₁ ts₂ h₁ h₂
  -- Both carry over to the settings that are as lenient as either.
  have hboth : ∀ c : Settings, c.maxInlineDepth ≤ max c₁.maxInlineDepth c₂.maxInlineDepth →
      ∀ ts, compile ⟨c, digest⟩ s = .ok ts →
        compile ⟨⟨max c₁.maxInlineDepth c₂.maxInlineDepth, false⟩, digest⟩ s = .ok ts :=
    fun c hle ts h => compile_of_lenient hle (fun hfalse => by cases hfalse) h
  have hfirst := hboth c₁ (Nat.le_max_left _ _) ts₁ h₁
  have hsecond := hboth c₂ (Nat.le_max_right _ _) ts₂ h₂
  exact Except.ok.inj (hfirst.symm.trans hsecond)

/-- A list of lists of lists, two definitions in place deep. -/
def nestedLists : Schema :=
  ⟨⟨[("S", .string),
    ("L", .list (.inline (.list (.inline (.list (.named "S") false)) false)) false)]⟩⟩

theorem compile_lenient_nestedLists :
    2 ≤ 7 ∧ (false = true → true = true) ∧ ∃ ts, compile ⟨⟨2, true⟩, id⟩ nestedLists = .ok ts ∧
      compile ⟨⟨7, false⟩, id⟩ nestedLists = .ok ts ∧
        ∀ ts', compile ⟨⟨7, false⟩, id⟩ nestedLists = .ok ts' → ts' = ts := by
  have hdepth : 2 ≤ 7 := by decide
  have hstrict : false = true → true = true := fun _ => rfl
  obtain ⟨ts, h⟩ : ∃ ts, compile ⟨⟨2, true⟩, id⟩ nestedLists = .ok ts := ⟨_, rfl⟩
  obtain ⟨hlenient, hsame⟩ := compile_lenient id nestedLists
  exact ⟨hdepth, hstrict, ts, h, hlenient ⟨2, true⟩ ⟨7, false⟩ hdepth hstrict ts h,
    fun ts' h' => hsame ⟨7, false⟩ ⟨2, true⟩ ts' ts h' h⟩

end Compiler
end WireSchema
