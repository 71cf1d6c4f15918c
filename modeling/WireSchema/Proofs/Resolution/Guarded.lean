import WireSchema.Proofs.Arena.FreeNames
import WireSchema.Proofs.Resolution.Intrinsic
import WireSchema.Proofs.Resolution.Positions
import WireSchema.Proofs.Resolution.Walk

/-!
# Compiling without a way out

A compile always returns something, also where nothing sensible can be done: a position
without a slot is passed over, sharing stops when it is out of fuel, a definition inside
itself is reported, and a search for a free name ends with the last candidate.

The guarded compile of this module is the same one with these ways out closed: it breaks off
instead.  `Guarded.compile_eq` says that it never does, and so returns what the compile
returns.  What is around a definition at hand is larger than the definition is
(`Scope.Enclosed`), and every position that is looked up is that of a slot.

For the same reason no definition is reported to contain itself, and no such report is kept to
be replayed (`Scope.uncircular_walk`).
-/

namespace WireSchema
namespace Guarded

/-! ## Passes that may break off -/

/-- A step of a compile that may break off. -/
def Pass (α : Type) : Type :=
  Arena → Option (Checked α × Arena)

namespace Pass

variable {α β : Type}

instance : Monad Pass where
  pure x := fun a => some (.ok x, a)
  bind p f := fun a => do
    let (first, a) ← p a
    let (second, a) ← f first.value a
    return (second.after first.faults, a)

/-- A step that has nothing to break off for. -/
def total (p : WireSchema.Pass α) : Pass α := fun a =>
  some (p a)

/-- All or nothing: the value only if nothing was wrong. -/
def unlessFaulty (p : Pass (Option α)) : Pass (Option α) := fun a => do
  let (checked, a) ← p a
  return (⟨if checked.faults.isEmpty then checked.value else none, checked.faults⟩, a)

variable {a : Arena}

/-- One pass does as another if its parts do. -/
theorem bind_eq {p : Pass α} {f : α → Pass β} {q : WireSchema.Pass α}
    {g : α → WireSchema.Pass β} (hp : p a = some (q a))
    (hf : f (q a).1.value (q a).2 = some (g (q a).1.value (q a).2)) :
    (p >>= f) a = some ((q >>= g) a) := by
  show (p a).bind _ = _
  rw [hp]
  show (f (q a).1.value (q a).2).bind _ = _
  rw [hf]
  rfl

theorem unlessFaulty_eq {p : Pass (Option α)} {q : WireSchema.Pass (Option α)}
    (h : p a = some (q a)) : unlessFaulty p a = some (WireSchema.Pass.unlessFaulty q a) := by
  show (p a).bind _ = _
  rw [h]
  rfl

end Pass

/-- What is found with the slots at some positions, provided that there are such slots. -/
def having {α : Type} (a : Arena) (ids : List TypeId) (x : α) : Option α :=
  if ∀ id ∈ ids, id < a.slots.length then some x else none

theorem having_eq {α : Type} {a : Arena} {ids : List TypeId}
    (h : ∀ id ∈ ids, id < a.slots.length) (x : α) : having a ids x = some x :=
  if_pos h

/-! ## Sharing -/

/-- Sharing that needs a slot at every position it comes to, and fuel for every call. -/
def share (owner : TypeName) : (fuel : Nat) → TypeId → Pass Unit
  | 0, _ => fun _ => none
  | fuel + 1, id => fun a =>
    match a.slot? id with
    | none => none
    | some slot =>
      if slot.anonymous = false ∨ owner ∈ slot.owners then some (.ok (), a)
      else
        let children := (slot.body.map Body.references).getD []
        let replay : Pass Unit := do
          Pass.total (.report slot.faults)
          children.forM (share owner fuel)
        replay (a.modify id fun s => { s with owners := s.owners ++ [owner] })

theorem share_of_unowned {owner : TypeName} {a : Arena} {id : Nat} {slot : Slot}
    (h : a.Unowned owner id slot) (fuel : Nat) :
    share owner (fuel + 1) id a =
      (do
        Pass.total (.report slot.faults)
        ((slot.body.map Body.references).getD []).forM (share owner fuel) : Pass Unit)
      (a.modify id fun s => { s with owners := s.owners ++ [owner] }) := by
  simp only [share, h.1, if_neg ((Arena.unowned_iff h.1).1 h)]

theorem share_of_not_unowned {owner : TypeName} {a : Arena} {id : Nat} {slot : Slot}
    (hslot : a.slot? id = some slot) (h : ∀ slot, ¬ a.Unowned owner id slot) (fuel : Nat) :
    share owner (fuel + 1) id a = some (.ok (), a) := by
  have hcondition := not_not.1 (mt (Arena.unowned_iff hslot).2 (h slot))
  simp only [share, hslot, if_pos hcondition]

/-- **Sharing does not break off** among positions that have slots and from which references do
not lead away, if there is more fuel than there are types to be had. -/
theorem share_eq {owner : TypeName} {region : TypeId → Prop} {size : Nat}
    (hregion : ∀ id, region id → id < size) (fuel : Nat) (id : TypeId) (a : Arena)
    (hid : region id) (hunder : a.Under region) (hsize : a.slots.length = size)
    (hfuel : (a.unowned owner).card < fuel) :
    share owner fuel id a = some (WireSchema.share owner fuel id a) := by
  induction fuel generalizing id a with
  | zero => exact absurd hfuel (Nat.not_lt_zero _)
  | succ fuel ih =>
    have hall : ∀ ids b, (∀ id ∈ ids, region id) → b.Under region → b.slots.length = size →
        (b.unowned owner).card < fuel →
          (ids.forM (share owner fuel) : Pass Unit) b = some (shareAll owner fuel ids b) := by
      intro ids
      induction ids with
      | nil => exact fun b _ _ _ _ => rfl
      | cons id ids ihs =>
        intro b hids hunder hsize hfuel
        obtain ⟨hgrows, -, hlength⟩ := share_frame owner fuel id b
        have hid := hids id (List.mem_cons_self ..)
        have hshared := Arena.sharesWithin owner fuel id b hid hunder
        exact Pass.bind_eq (ih id b hid hunder hsize hfuel)
          (ihs _ (fun i hi => hids i (List.mem_cons_of_mem _ hi)) (hshared.under hunder)
            (hlength.trans hsize)
            (Nat.lt_of_le_of_lt (Arena.card_unowned_of_grows hgrows) hfuel))
    obtain ⟨slot, hslot⟩ := Arena.exists_slot? (hsize ▸ hregion id hid)
    by_cases h : ∃ slot, a.Unowned owner id slot
    · obtain ⟨slot', hslot'⟩ := h
      obtain rfl := Option.some.inj (hslot.symm.trans hslot'.1)
      have hless := Arena.card_unowned_own hslot'
      rw [share_of_unowned hslot', WireSchema.share_of_unowned hslot']
      have hreplay := hall _ _ (hunder.children hid hslot') (hunder.own owner id)
        ((Arena.length_modify ..).trans hsize) (by omega)
      exact Pass.bind_eq (q := .report slot.faults) (g := fun _ => shareAll owner fuel _) rfl
        hreplay
    · rw [share_of_not_unowned hslot (not_exists.1 h),
        WireSchema.share_of_not_unowned (not_exists.1 h)]

/-- Declared types are nobody else's to be had, so there are more slots than types to be had. -/
theorem card_unowned_lt {declared : List TypeName} {a : Arena} (h : a.WellFormed declared)
    (hdeclared : declared ≠ []) (owner : TypeName) :
    (a.unowned owner).card < a.slots.length := by
  obtain ⟨slot, hslot, -, -, hnamed⟩ := h.declaredSlots 0 _
    (List.getElem?_eq_getElem (List.length_pos_of_ne_nil hdeclared))
  have hfirst : 0 ∉ a.unowned owner := by
    intro hmem
    obtain ⟨slot', hslot', hanonymous, -⟩ := Arena.mem_unowned.1 hmem
    obtain rfl := Option.some.inj (hslot.symm.trans hslot')
    rw [hnamed] at hanonymous
    cases hanonymous
  have hsubset : a.unowned owner ⊆ Finset.range a.slots.length := by
    intro id hid
    obtain ⟨slot', hslot', -⟩ := Arena.mem_unowned.1 hid
    exact Finset.mem_range.2 (Arena.lt_length_of_slot? hslot')
  have hless := Finset.card_lt_card ((Finset.ssubset_iff_of_subset hsubset).2
    ⟨0, Finset.mem_range.2 (Arena.lt_length_of_slot? hslot), hfirst⟩)
  rw [Finset.card_range] at hless
  exact hless

/-! ## Definitions in place -/

/-- The positions of the types whose names make up the name of a link, list or map. -/
def named : Body → List TypeId
  | .link target => target.toList
  | .list value _ => [value]
  | .map key value _ _ => [key, value]
  | _ => []

/-- The name of a definition in place, if no other type has it. -/
def freeName (a : Arena) (keyword : String) (body : Option Body) (digest : String) :
    Option TypeName := do
  let name ← having a ((body.map named).getD []) (a.freeName keyword body digest)
  if a.isTaken name then none else return name

/-- The slot of a definition in place, which is not met inside itself. -/
def place (scope : Scope) (depth : Nat) (definition : Definition) (compile : Pass (Option Body)) :
    Pass (Option TypeId) := fun a =>
  let digest := scope.digest definition.canonical.text
  match a.state? digest with
  | some (.finished id) => do
    let (shared, a) ← share scope.owner a.slots.length id a
    return (shared.map fun _ => some id, a)
  | some .inProgress => none
  | none =>
    if scope.settings.maxInlineDepth ≤ depth then
      some (⟨none, [.unsupportedForm (.tooDeep scope.settings.maxInlineDepth)]⟩, a)
    else do
      let id := a.slots.length
      let (checked, a) ← compile (a.reserve scope.owner digest)
      let name ← freeName a definition.keyword checked.value digest
      having a [id]
        (checked.map fun _ => some id, a.fill id digest name checked.value checked.faults)

mutual

/-- The type that a reference refers to. -/
def resolve (scope : Scope) (depth : Nat) : Reference → Pass (Option TypeId)
  | .named name => Pass.total (.check (scope.resolveName name))
  | .inline definition => place scope depth definition (compile scope (depth + 1) definition)

/-- The content of a definition.  Where no reference may be a definition in place, the arena is
not looked at. -/
def compile (scope : Scope) (depth : Nat) : Definition → Pass (Option Body)
  | .link (some target) => Pass.unlessFaulty do
      let id ← resolve scope depth target
      return id.map fun id => .link (some id)
  | .map key value valueNullable representation => Pass.unlessFaulty do
      let key ← Pass.total (.check (scope.mapKey key))
      let value ← resolve scope depth value
      Pass.total (.report (representation.faults.map .invalidConfig))
      return do return .map (← key) (← value) valueNullable representation
  | .list value valueNullable => Pass.unlessFaulty do
      let id ← resolve scope depth value
      return id.map fun id => .list id valueNullable
  | .struct fields representation => Pass.unlessFaulty do
      Pass.total (.report ((fieldNameFaults [] (fields.map Field.name)).map .invalidConfig))
      let compiled ← resolveFields scope depth fields
      Pass.total (.report ((representation.faults fields).map .invalidConfig))
      return compiled.map fun compiled => .struct compiled (representation.layout fields)
  | d => Pass.total (scope.compile depth d)

/-- The compiled fields of a struct. -/
def resolveFields (scope : Scope) (depth : Nat) : List Field → Pass (Option (List StructField))
  | [] => pure (some [])
  | .mk name type optional nullable :: rest => do
      let id ← resolve scope depth type
      let rest ← resolveFields scope depth rest
      return do return ⟨name, ← id, optional, nullable⟩ :: (← rest)

end

variable {scope : Scope} {within : List Definition} {size : Nat} {a : Arena}

theorem named_subset_positions (b : Body) : named b ⊆ b.positions := by
  cases b with
  | link target => exact List.Subset.refl _
  | list value _ => exact List.Subset.refl _
  | map key value _ _ => exact List.Subset.refl _
  | _ => exact List.nil_subset _

/-- A definition that has been compiled gets a name. -/
theorem freeName_eq (ha : a.WellFormed scope.declared) {d : Definition} {body : Option Body}
    {faults : List Fault} (hcompiled : (faults ≠ [] ∧ body = none) ∨
      faults = [] ∧ ∃ b, body = some b ∧ a.Links scope.digest scope.declared d b)
    (keyword digest : String) :
    freeName a keyword body digest = some (a.freeName keyword body digest) := by
  have hpositions : ∀ id ∈ (body.map named).getD [], id < a.slots.length := by
    intro id hid
    rcases hcompiled with ⟨-, rfl⟩ | ⟨-, b, rfl, hlinks⟩
    · cases hid
    · exact hlinks.positions_lt ha id (named_subset_positions b hid)
  have hfree := a.isTaken_freeName keyword body digest
  show (having a _ _).bind _ = _
  rw [having_eq hpositions]
  exact if_neg (Bool.not_eq_true _ ▸ hfree)

/-- The type of a definition that has been met is shared. -/
theorem share_finished (hseparates : Separates scope.digest within)
    (hdeclared : scope.declared ≠ []) (h : scope.Enclosed within size a) {d : Definition}
    (hd : d :: d.inlines ⊆ within) {id : TypeId}
    (hid : a.state? (scope.key d) = some (.finished id)) :
    share scope.owner a.slots.length id a =
      some (WireSchema.share scope.owner a.slots.length id a) := by
  have hregion : ∀ i, a.Region scope.digest scope.declared (d :: d.inlines) i →
      i < a.slots.length := by
    rintro i (hlt | ⟨e, -, hi⟩)
    · rw [h.valid.length]
      exact Nat.lt_of_lt_of_le hlt (Nat.le_add_right _ _)
    · exact h.valid.lt_length hi
  exact share_eq hregion _ id a (Or.inr ⟨d, List.mem_cons_self .., hid⟩)
    (h.valid.under_contained hseparates hd) rfl
    (card_unowned_lt h.valid.toWellFormed hdeclared scope.owner)

/-- **A definition in place is not met inside itself**, and nothing else is amiss with its
slot. -/
theorem resolve_inline_eq (hseparates : Separates scope.digest within)
    (hdeclared : scope.declared ≠ []) {depth : Nat} {d : Definition}
    (hd : d :: d.inlines ⊆ within) (hsize : d.inlines.length < size)
    (hcompile : ∀ b, scope.Enclosed within d.inlines.length b →
      compile scope (depth + 1) d b = some (scope.compile (depth + 1) d b))
    (h : scope.Enclosed within size a) :
    resolve scope depth (.inline d) a = some (scope.resolve depth (.inline d) a) := by
  have hmem : d ∈ within := hd (List.mem_cons_self ..)
  rw [resolve, Scope.resolve_inline]
  cases hstate : a.state? (scope.key d) with
  | some state =>
    cases state with
    | inProgress => exact absurd (h.enclosing d hmem hstate) (Nat.not_le.2 hsize)
    | finished id =>
      have hshared := share_finished hseparates hdeclared h hd hstate
      rw [Scope.key] at hstate
      simp only [place, Scope.place, hstate, hshared]
      rfl
  | none =>
    have henclosed := h.reserve hseparates hmem (Nat.le_of_lt hsize) hstate
    have hcompiled := hcompile _ henclosed
    have hvalid := scope.valid_compile (depth + 1)
      (fun e he => hd (List.mem_cons_of_mem _ he)) henclosed.valid
    have hname := freeName_eq hvalid.toWellFormed
      (scope.compile_links (depth + 1) d (a.reserve scope.owner (scope.key d))) d.keyword
      (scope.key d)
    have hgrows := scope.grows_compile (depth + 1) d (a.reserve scope.owner (scope.key d))
    have hslot := hgrows.length_le
    rw [Arena.length_reserve] at hslot
    rw [Scope.key] at hstate hcompiled hname hslot
    simp only [place, Scope.place, hstate]
    split
    · rfl
    · simp only [hcompiled, Option.bind_eq_bind, Option.bind_some, hname]
      exact having_eq (fun id hid => List.mem_singleton.1 hid ▸ hslot) _

/-! ## Definitions -/

theorem resolveFields_eq {depth : Nat} {fields : List Field}
    (hfields : ∀ f ∈ fields, f.type.inlines ⊆ within ∧ ∀ b, scope.Enclosed within size b →
      resolve scope depth f.type b = some (scope.resolve depth f.type b))
    (h : scope.Enclosed within size a) :
    resolveFields scope depth fields a = some (scope.resolveFields depth fields a) := by
  induction fields generalizing a with
  | nil =>
    rw [resolveFields, Scope.resolveFields]
    rfl
  | cons f rest ih =>
    obtain ⟨name, type, optional, nullable⟩ := f
    obtain ⟨hinlines, htype⟩ := hfields _ (List.mem_cons_self ..)
    have hrest := ih (fun f hf => hfields f (List.mem_cons_of_mem _ hf)) (h.resolve depth hinlines)
    rw [resolveFields, Scope.resolveFields]
    exact Pass.bind_eq (htype a h) (Pass.bind_eq hrest rfl)

/-- **A compile does not break off.** -/
theorem compile_eq (hseparates : Separates scope.digest within) (hdeclared : scope.declared ≠ [])
    (depth : Nat) {d : Definition} (hd : d.inlines ⊆ within)
    (h : scope.Enclosed within d.inlines.length a) :
    compile scope depth d a = some (scope.compile depth d a) := by
  induction d using Definition.reference_induction generalizing depth a with
  | step d ih =>
    have hinlines : ∀ r ∈ d.openReferences, r.inlines ⊆ within := by
      intro r hr e he
      refine hd ?_
      rw [Definition.inlines_eq_flatMap, Definition.references_eq_append]
      exact List.mem_flatMap.2 ⟨r, List.mem_append_right _ hr, he⟩
    have hresolve : ∀ r ∈ d.openReferences, ∀ b, scope.Enclosed within d.inlines.length b →
        resolve scope depth r b = some (scope.resolve depth r b) := by
      intro r hr b hb
      cases r with
      | named name =>
        rw [resolve, Scope.resolve]
        rfl
      | inline e =>
        have hmem : .inline e ∈ d.references := Definition.mem_references.2 (Or.inr hr)
        have hwithin : e :: e.inlines ⊆ within :=
          fun f hf => hd ((Definition.sublist_inlines_of_mem_references hmem).subset hf)
        refine resolve_inline_eq hseparates hdeclared hwithin (Definition.length_inlines_lt hmem)
          (fun b' hb' => ?_) hb
        exact ih e hmem (depth + 1) (fun f hf => hwithin (List.mem_cons_of_mem _ hf)) hb'
    cases d with
    | link target =>
      cases target with
      | none => simp only [compile, Pass.total]
      | some target =>
        rw [compile, Scope.compile]
        exact Pass.unlessFaulty_eq
          (Pass.bind_eq (hresolve target (List.mem_singleton_self _) a h) rfl)
    | map key value valueNullable representation =>
      rw [compile, Scope.compile]
      refine Pass.unlessFaulty_eq (Pass.bind_eq (q := .check (scope.mapKey key)) rfl ?_)
      refine Pass.bind_eq (hresolve value (List.mem_singleton_self _) a h) ?_
      exact Pass.bind_eq (q := .report (representation.faults.map .invalidConfig)) rfl rfl
    | list value valueNullable =>
      rw [compile, Scope.compile]
      exact Pass.unlessFaulty_eq
        (Pass.bind_eq (hresolve value (List.mem_singleton_self _) a h) rfl)
    | struct fields representation =>
      have hfields : resolveFields scope depth fields a =
          some (scope.resolveFields depth fields a) :=
        resolveFields_eq (fun f hf => ⟨hinlines f.type (List.mem_map_of_mem hf),
          hresolve f.type (List.mem_map_of_mem hf)⟩) h
      rw [compile, Scope.compile]
      refine Pass.unlessFaulty_eq (Pass.bind_eq
        (q := .report ((fieldNameFaults [] (fields.map Field.name)).map .invalidConfig)) rfl ?_)
      refine Pass.bind_eq hfields ?_
      exact Pass.bind_eq
        (q := .report ((representation.faults fields).map .invalidConfig)) rfl rfl
    | _ => simp only [compile, Pass.total]

end Guarded

/-! ## Definitions inside themselves -/

/-- Whether a fault is that a definition contains itself. -/
def Fault.Circular : Fault → Prop
  | .unsupportedForm (.containsItself _) => True
  | _ => False

/-- Whether no fault of a list is that a definition contains itself. -/
def Uncircular (faults : List Fault) : Prop :=
  ∀ f ∈ faults, ¬ f.Circular

theorem Uncircular.append {faults faults' : List Fault} (h : Uncircular faults)
    (h' : Uncircular faults') : Uncircular (faults ++ faults') :=
  fun f hf => (List.mem_append.1 hf).elim (h f) (h' f)

theorem Intrinsic.uncircular {faults : List Fault} (h : Intrinsic faults) : Uncircular faults := by
  intro f hf hcircular
  have hintrinsic := h f hf
  unfold Fault.Circular at hcircular
  split at hcircular
  · exact hintrinsic
  · exact hcircular

/-- Whether no such fault is kept to be replayed. -/
def Arena.Untangled (declared : List TypeName) (a : Arena) : Prop :=
  ∀ id slot, declared.length ≤ id → a.slot? id = some slot → Uncircular slot.faults

namespace Scope

variable {scope : Scope} {within : List Definition}

/-- **No definition is found inside itself**, nor is it reported of one found before. -/
theorem uncircular_walk (hseparates : Separates scope.digest within) :
    scope.WalkInvariant (Within within)
      (fun size _ a => scope.Enclosed within size a ∧ a.Untangled scope.declared)
      fun _ _ faults => Uncircular faults where
  along h p hp := h p (List.mem_append_left _ hp)
  nil _ _ hf := by cases hf
  append h h' := h.append h'
  place {size done depth d a} hwithin hsize h ih := by
    obtain ⟨henclosed, huntangled⟩ := h
    have hd : d :: d.inlines ⊆ within :=
      hwithin ⟨depth, d⟩ (List.mem_append_right _ (List.mem_cons_self ..))
    have hmem : d ∈ within := hd (List.mem_cons_self ..)
    have henclosed' := henclosed.resolve depth (r := .inline d) (by rwa [Reference.inlines])
    have hplaced := scope.resolve_placed depth d a
    generalize scope.resolve depth (.inline d) a = result at henclosed' hplaced ⊢
    cases hplaced with
    | shared id hstate =>
      have hshares := henclosed.valid.sharesWithin_region hseparates hd hstate scope.owner
        a.slots.length
      refine ⟨⟨henclosed', fun i t hi ht => ?_⟩, fun f hf => ?_⟩
      · obtain ⟨s, hs, hgains, -⟩ := hshares.slots i t ht
        rw [hgains.faults]
        exact huntangled i s hi hs
      · obtain ⟨i, s, -, hs, hanonymous, hfault⟩ := hshares.faults f hf
        exact huntangled i s ((henclosed.valid.anonymous_iff hs).1 hanonymous) hs f hfault
    | inside hstate => exact absurd (henclosed.enclosing d hmem hstate) (Nat.not_le.2 hsize)
    | tooDeep hstate hdeep =>
      refine ⟨⟨henclosed', huntangled⟩, fun f hf => ?_⟩
      rw [List.mem_singleton.1 hf]
      exact not_false
    | new name hstate hshallow =>
      have hreserved := henclosed.reserve hseparates hmem (Nat.le_of_lt hsize) hstate
      have hkept : (a.reserve scope.owner (scope.key d)).Untangled scope.declared := by
        intro i t hi ht
        rcases Arena.slot_of_reserve ht with ht | ⟨-, rfl⟩
        · exact huntangled i t hi ht
        · exact fun _ hf => by cases hf
      obtain ⟨faults, hperm, ⟨-, huntangled'⟩, htold⟩ := ih _ ⟨hreserved, hkept⟩
      have hfaults : Uncircular (scope.compile (depth + 1) d
          (a.reserve scope.owner (scope.key d))).1.faults := fun f hf =>
        (scope.intrinsic_ownFaults d).uncircular.append htold f (hperm.mem_iff.1 hf)
      refine ⟨⟨henclosed', fun i t hi ht => ?_⟩, hfaults⟩
      rw [Arena.slot?_fill] at ht
      split at ht
      · obtain ⟨s, -, rfl⟩ := Option.map_eq_some_iff.1 ht
        exact hfaults
      · exact huntangled' i t hi ht

end Scope
end WireSchema
