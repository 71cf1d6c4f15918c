import Mathlib.Logic.Relation
import WireSchema.Proofs.Resolution.Content

/-!
# Chains of anonymous types

The content of an anonymous type may refer to other anonymous types, and these to others again.
Such a chain has an end: what a finished type refers to was finished before it
(`Arena.Founded`).  Positions do not show this.  The slot of a definition is reserved before
those of what it contains, but what it contains may have been met earlier still, and its types
then have positions before it.

And every chain has a beginning: a compile without faults makes new types only for what its
definition contains, so each is at the end of a chain that begins at a reference of the
definition itself (`Scope.rooted_compile`).
-/

namespace WireSchema

open Relation

namespace Arena

/-- Whether the content of the type at a position refers to the type at another. -/
def Refers (a : Arena) (id other : TypeId) : Prop :=
  ∃ body, a.body? id = some body ∧ other ∈ body.references

/-- A reference from one anonymous type to another. -/
structure Chained (declared : List TypeName) (a : Arena) (id other : TypeId) : Prop where
  source : declared.length ≤ id
  target : declared.length ≤ other
  refers : a.Refers id other

/-- Whether the chains from finished types end. -/
def Founded (declared : List TypeName) (a : Arena) : Prop :=
  ∀ k id, a.state? k = some (.finished id) → Acc (fun other id => a.Chained declared id other) id

variable {digest : String → String} {declared : List TypeName} {within : List Definition}
  {owner : TypeName} {a b : Arena}

/-! ## Contents that stay -/

theorem body?_of_slot? {id : TypeId} {slot : Slot} (h : a.slot? id = some slot) :
    a.body? id = slot.body := by
  rw [body?, h, Option.bind_some]

theorem lt_length_of_body? {id : TypeId} {body : Body} (h : a.body? id = some body) :
    id < a.slots.length := by
  obtain ⟨slot, hslot, -⟩ := Option.bind_eq_some_iff.1 h
  exact lt_length_of_slot? hslot

/-- Growth changes no content. -/
theorem Grows.body?_eq (h : a.Grows owner b) {id : TypeId} (hid : id < a.slots.length) :
    b.body? id = a.body? id := by
  obtain ⟨s, hs⟩ := exists_slot? hid
  obtain ⟨t, ht, hgains⟩ := h.slots id s hs
  rw [body?_of_slot? hs, body?_of_slot? ht, hgains.body]

theorem Grows.refers (h : a.Grows owner b) {id other : TypeId} (hrefers : a.Refers id other) :
    b.Refers id other := by
  obtain ⟨body, hbody, hmem⟩ := hrefers
  exact ⟨body, (h.body?_eq (lt_length_of_body? hbody)).trans hbody, hmem⟩

theorem Grows.chained (h : a.Grows owner b) {id other : TypeId}
    (hchained : a.Chained declared id other) : b.Chained declared id other :=
  ⟨hchained.source, hchained.target, h.refers hchained.refers⟩

theorem body?_fill_of_ne {id i : TypeId} (hne : id ≠ i) (k : String) (name : TypeName)
    (body : Option Body) (faults : List Fault) :
    (a.fill id k name body faults).body? i = a.body? i := by
  rw [body?, body?, slot?_fill, if_neg hne]

theorem body?_fill {id : TypeId} (hid : id < a.slots.length) (k : String) (name : TypeName)
    (body : Option Body) (faults : List Fault) :
    (a.fill id k name body faults).body? id = body := by
  obtain ⟨slot, hslot⟩ := exists_slot? hid
  rw [body?, slot?_fill, if_pos rfl, hslot]
  rfl

/-- Filling a slot that has no content loses no reference. -/
theorem Chained.fill {id i j : TypeId} (h : a.Chained declared i j) (hnone : a.body? id = none)
    (k : String) (name : TypeName) (body : Option Body) (faults : List Fault) :
    (a.fill id k name body faults).Chained declared i j := by
  obtain ⟨content, hcontent, hmem⟩ := h.refers
  have hne : id ≠ i := by
    rintro rfl
    rw [hnone] at hcontent
    cases hcontent
  exact ⟨h.source, h.target, content, (body?_fill_of_ne hne ..).trans hcontent, hmem⟩

/-! ## Chains end -/

/-- A content refers to declared types and to what is finished. -/
theorem Links.finished_of_mem {d : Definition} {body : Body}
    (h : a.Links digest declared d body) {id : TypeId} (hid : id ∈ body.references)
    (hle : declared.length ≤ id) : ∃ k, a.state? k = some (.finished id) := by
  rw [Definition.references_linked h.linked] at hid
  obtain ⟨r, hr, rfl⟩ := List.mem_map.1 hid
  cases r with
  | named name =>
    have hmem : name ∈ declared := by
      by_contra hmissing
      exact h.sound (.undeclared name hr hmissing)
    exact absurd (List.idxOf_lt_length_of_mem hmem) (Nat.not_lt.2 hle)
  | inline e =>
    obtain ⟨id, hstate⟩ := h.located e hr
    rw [locate, Reference.locate, positionOf_of_finished hstate]
    exact ⟨_, hstate⟩

/-- What a finished type refers to is finished. -/
theorem Valid.finished_of_chained (h : a.Valid digest declared within) {k : String}
    {id other : TypeId} (hk : a.state? k = some (.finished id))
    (hchained : a.Chained declared id other) : ∃ l, a.state? l = some (.finished other) := by
  obtain ⟨d, -, slot, -, hslot, hholds⟩ := h.holds k id hk
  obtain ⟨body, hbody, hmem⟩ := hchained.refers
  rw [body?_of_slot? hslot] at hbody
  exact (hholds.sound body hbody).2.finished_of_mem hmem hchained.target

/-- Chains end where the contents of finished types are those of an arena in which they do. -/
theorem Valid.acc_of_body? (h : a.Valid digest declared within) (hfounded : a.Founded declared)
    (hbody : ∀ k id, a.state? k = some (.finished id) → b.body? id = a.body? id) {k : String}
    {id : TypeId} (hk : a.state? k = some (.finished id)) :
    Acc (fun other id => b.Chained declared id other) id := by
  have hacc := hfounded k id hk
  induction hacc generalizing k with
  | intro id _ ih =>
    refine ⟨id, fun other hchained => ?_⟩
    obtain ⟨hsource, htarget, body, hcontent, hmem⟩ := hchained
    have hchained' : a.Chained declared id other :=
      ⟨hsource, htarget, body, (hbody k id hk).symm.trans hcontent, hmem⟩
    obtain ⟨l, hl⟩ := h.finished_of_chained hk hchained'
    exact ih other hchained' hl

theorem Founded.mono (h : a.Valid digest declared within) (hfounded : a.Founded declared)
    (hbody : ∀ k id, a.state? k = some (.finished id) → b.body? id = a.body? id)
    (hstates : ∀ k id, b.state? k = some (.finished id) → a.state? k = some (.finished id)) :
    b.Founded declared :=
  fun _ _ hk => h.acc_of_body? hfounded hbody (hstates _ _ hk)

/-- A type whose chains lead to finished types has chains that end. -/
theorem Founded.fill (h : a.Valid digest declared within) (hfounded : a.Founded declared)
    {k : String} (hprogress : a.state? k = some .inProgress) {id : TypeId}
    (hid : id = declared.length + a.met.idxOf k) (hlt : id < a.slots.length) {d : Definition}
    {body : Option Body} (hbody : ∀ b, body = some b → a.Links digest declared d b)
    (name : TypeName) (faults : List Fault) :
    (a.fill id k name body faults).Founded declared := by
  have hothers : ∀ l i, a.state? l = some (.finished i) →
      (a.fill id k name body faults).body? i = a.body? i := by
    intro l i hl
    refine body?_fill_of_ne (h.ne_of_finished hid hl ?_) ..
    rintro rfl
    rw [hprogress] at hl
    cases hl
  intro l i hl
  rw [state?_fill] at hl
  split at hl
  · cases hl
    refine ⟨id, fun other hchained => ?_⟩
    obtain ⟨content, hcontent, hmem⟩ := hchained.refers
    rw [body?_fill hlt] at hcontent
    obtain ⟨l', hl'⟩ := (hbody content hcontent).finished_of_mem hmem hchained.target
    exact h.acc_of_body? hfounded hothers hl'
  · exact h.acc_of_body? hfounded hothers hl

end Arena

namespace Scope

variable (scope : Scope)

theorem founded_runRelation (within : List Definition) :
    scope.RunRelation fun ds a _ b => ds ⊆ within →
      a.Valid scope.digest scope.declared within → a.Founded scope.declared →
        b.Valid scope.digest scope.declared within ∧ b.Founded scope.declared where
  idle _ _ _ _ _ h hfounded := ⟨h, hfounded⟩
  trans h h' hsubset ha hfounded := by
    obtain ⟨hb, hfounded'⟩ := h (fun _ he => hsubset (List.mem_append_left _ he)) ha hfounded
    exact h' (fun _ he => hsubset (List.mem_append_right _ he)) hb hfounded'
  perm _ h := h
  place depth d a ih hsubset h hfounded := by
    have hvalid := (scope.valid_runRelation within).resolve depth (.inline d) a
    rw [Reference.inlines] at hvalid
    refine ⟨hvalid hsubset h, ?_⟩
    have hplaced := scope.resolve_placed depth d a
    generalize scope.resolve depth (.inline d) a = result at hplaced ⊢
    cases hplaced with
    | shared id hstate =>
      refine hfounded.mono h (fun k i hk => ?_) fun k i hk => by rwa [state?_share] at hk
      exact (grows_share scope.owner _ id a).body?_eq (h.lt_length hk)
    | inside hstate => exact hfounded
    | tooDeep hstate hdeep => exact hfounded
    | new name hstate hshallow =>
      have hgrows := scope.grows_compile (depth + 1) d (a.reserve scope.owner (scope.key d))
      have hlinks := scope.compile_links (depth + 1) d (a.reserve scope.owner (scope.key d))
      have hreserved : (a.reserve scope.owner (scope.key d)).Founded scope.declared := by
        refine hfounded.mono h (fun k i hk => ?_) fun k i hk => ?_
        · rw [Arena.body?, Arena.body?, Arena.slot?_reserve_of_lt (h.lt_length hk)]
        · rw [Arena.state?_reserve] at hk
          split at hk
          · cases hk
          · exact hk
      obtain ⟨hcompiled, hfounded'⟩ := ih _ (fun e he => hsubset (List.mem_cons_of_mem _ he))
        (h.reserve hstate scope.owner) hreserved
      have hprogress := hgrows.states (scope.key d) .inProgress
        (by rw [Arena.state?_reserve, if_pos rfl])
      have hlt := hgrows.length_le
      rw [Arena.length_reserve] at hlt
      refine hfounded'.fill hcompiled hprogress (h.position_of_reserved hstate hgrows).2 hlt
        (d := d) (fun b hb => ?_) name _
      rcases hlinks with ⟨-, hnone⟩ | ⟨-, b', hb', hlinked⟩
      · rw [hnone] at hb
        cases hb
      · rw [hb'] at hb
        exact Option.some.inj hb ▸ hlinked

/-- **Chains of finished types end**, whatever is compiled. -/
theorem founded_compile {within : List Definition} (depth : Nat) {d : Definition} {a : Arena}
    (hd : d.inlines ⊆ within) (h : a.Valid scope.digest scope.declared within)
    (hfounded : a.Founded scope.declared) :
    (scope.compile depth d a).2.Founded scope.declared :=
  ((scope.founded_runRelation within).compile d depth a hd h hfounded).2

/-! ## Chains begin -/

/-- Whether every type from a position on is at the end of a chain that begins at a definition in
place among some references. -/
def Rooted (rs : List Reference) (n : Nat) (a : Arena) : Prop :=
  ∀ id, n ≤ id → id < a.slots.length → ∃ e start, .inline e ∈ rs ∧
    a.state? (scope.key e) = some (.finished start) ∧
      ReflTransGen (a.Chained scope.declared) start id

variable {scope}

theorem Rooted.mono {rs : List Reference} {n : Nat} {a b : Arena} (h : scope.Rooted rs n a)
    (hgrows : a.Grows scope.owner b) {id : TypeId} (hid : n ≤ id) (hlt : id < a.slots.length) :
    ∃ e start, .inline e ∈ rs ∧ b.state? (scope.key e) = some (.finished start) ∧
      ReflTransGen (b.Chained scope.declared) start id := by
  obtain ⟨e, start, he, hstate, hpath⟩ := h id hid hlt
  exact ⟨e, start, he, hgrows.states _ _ hstate,
    ReflTransGen.mono (fun _ _ => hgrows.chained) _ _ hpath⟩

/-- A definition in place with its own new types. -/
theorem Rooted.fill {d : Definition} {a m : Arena} {body : Body}
    (hgrows : (a.reserve scope.owner (scope.key d)).Grows scope.owner m)
    (hwell : m.WellFormed scope.declared) (hposition : scope.declared.length ≤ a.slots.length)
    (hlinks : m.Links scope.digest scope.declared d body)
    (h : scope.Rooted d.references (a.slots.length + 1) m) (name : TypeName)
    (faults : List Fault) :
    scope.Rooted [.inline d] a.slots.length
      (m.fill a.slots.length (scope.key d) name (some body) faults) := by
  have hreserved : a.slots.length < (a.reserve scope.owner (scope.key d)).slots.length := by
    rw [Arena.length_reserve]
    exact Nat.lt_succ_self _
  have hlt := Nat.lt_of_lt_of_le hreserved hgrows.length_le
  have hnone : m.body? a.slots.length = none := by
    rw [hgrows.body?_eq hreserved, Arena.body?, Arena.slot?_reserve]
    rfl
  intro id hid hid'
  rw [Arena.length_fill] at hid'
  refine ⟨d, a.slots.length, List.mem_singleton_self _, by rw [Arena.state?_fill, if_pos rfl], ?_⟩
  by_cases heq : id = a.slots.length
  · rw [heq]
  · obtain ⟨e, start, he, hstate, hpath⟩ := h id (by omega) hid'
    refine .head ⟨hposition, hwell.declared_le hstate, body, Arena.body?_fill hlt .., ?_⟩
      (ReflTransGen.mono (fun _ _ hchained => hchained.fill hnone ..) _ _ hpath)
    rw [Definition.references_linked hlinks.linked]
    refine List.mem_map.2 ⟨_, he, ?_⟩
    rw [Arena.locate, Reference.locate]
    exact Arena.positionOf_of_finished hstate

variable (scope)

theorem rooted_resolve (depth : Nat) {d : Definition}
    (hd : ∀ a : Arena, a.WellFormed scope.declared →
      (scope.compile (depth + 1) d a).1.faults = [] →
        scope.Rooted d.references a.slots.length (scope.compile (depth + 1) d a).2)
    {a : Arena} (ha : a.WellFormed scope.declared)
    (hfaults : (scope.resolve depth (.inline d) a).1.faults = []) :
    scope.Rooted [.inline d] a.slots.length (scope.resolve depth (.inline d) a).2 := by
  have hplaced := scope.resolve_placed depth d a
  generalize scope.resolve depth (.inline d) a = result at hplaced hfaults ⊢
  cases hplaced with
  | shared id hstate =>
    intro i hi hlt
    rw [length_share] at hlt
    exact absurd hi (Nat.not_le.2 hlt)
  | inside hstate => cases hfaults
  | tooDeep hstate hdeep => cases hfaults
  | new name hstate hshallow =>
    have hreserved := ha.reserve hstate scope.owner
    have hrooted := hd _ hreserved hfaults
    rw [Arena.length_reserve] at hrooted
    rcases scope.compile_links (depth + 1) d (a.reserve scope.owner (scope.key d)) with
      ⟨hne, -⟩ | ⟨-, body, hbody, hlinks⟩
    · exact absurd hfaults hne
    · simp only [hbody]
      exact hrooted.fill (scope.grows_compile (depth + 1) d _)
        (scope.wellFormed_compile (depth + 1) d hreserved)
        (by rw [ha.length]; exact Nat.le_add_right _ _) hlinks name _

theorem rooted_resolveAll (depth : Nat) {rs : List Reference}
    (hrs : ∀ d, .inline d ∈ rs → ∀ a : Arena, a.WellFormed scope.declared →
      (scope.compile (depth + 1) d a).1.faults = [] →
        scope.Rooted d.references a.slots.length (scope.compile (depth + 1) d a).2)
    {a : Arena} (ha : a.WellFormed scope.declared)
    (hfaults : (scope.resolveAll depth rs a).1.faults = []) :
    scope.Rooted rs a.slots.length (scope.resolveAll depth rs a).2 := by
  induction rs generalizing a with
  | nil => exact fun id hid hlt => absurd hid (Nat.not_le.2 hlt)
  | cons r rs ih =>
    rw [resolveAll_cons] at hfaults ⊢
    obtain ⟨hfirst, hrest⟩ := List.append_eq_nil_iff.1 hfaults
    have hgrows := scope.grows_resolveAll depth rs (scope.resolve depth r a).2
    have hothers := ih (fun d hd => hrs d (List.mem_cons_of_mem _ hd))
      (scope.wellFormed_runRelation.resolve depth r a ha) hrest
    intro id hid hlt
    by_cases hnew : id < (scope.resolve depth r a).2.slots.length
    · cases r with
      | named name =>
        rw [resolve_named] at hnew
        exact absurd hid (Nat.not_le.2 hnew)
      | inline d =>
        obtain ⟨e, start, he, hstate, hpath⟩ :=
          (scope.rooted_resolve depth (hrs d (List.mem_cons_self ..)) ha hfirst).mono hgrows hid
            hnew
        rw [List.mem_singleton] at he
        exact ⟨e, start, he ▸ List.mem_cons_self .., hstate, hpath⟩
    · obtain ⟨e, start, he, hstate, hpath⟩ := hothers id (Nat.not_lt.1 hnew) hlt
      exact ⟨e, start, List.mem_cons_of_mem _ he, hstate, hpath⟩

/-- **A compile without faults makes types only for what its definition contains.** -/
theorem rooted_compile (depth : Nat) (d : Definition) {a : Arena}
    (ha : a.WellFormed scope.declared) (hfaults : (scope.compile depth d a).1.faults = []) :
    scope.Rooted d.references a.slots.length (scope.compile depth d a).2 := by
  induction d using Definition.reference_induction generalizing depth a with
  | step d ih =>
    obtain ⟨harena, hreport, -, -⟩ := scope.compile_report depth d a
    rw [hfaults] at hreport
    obtain ⟨-, hreferences⟩ := List.append_eq_nil_iff.1 hreport.nil_eq.symm
    have hrooted := scope.rooted_resolveAll depth
      (fun e he a ha h => ih e (Definition.mem_references.2 (Or.inr he)) (depth + 1) ha h) ha
      hreferences
    rw [harena]
    intro id hid hlt
    obtain ⟨e, start, he, hrest⟩ := hrooted id hid hlt
    exact ⟨e, start, Definition.mem_references.2 (Or.inr he), hrest⟩

end Scope
end WireSchema
