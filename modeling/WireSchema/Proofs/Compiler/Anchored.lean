import WireSchema.Proofs.Graph.Recursion
import WireSchema.Proofs.Resolution.Chains

/-!
# Anonymous types hang on declared ones

A type of a definition in place is part of something.  In a compiled schema every chain of
references from anonymous type to anonymous type ends, links included, and every anonymous type
is at the end of such a chain that begins in a declared type (`TypeSystem.Anchored`).  So what
unfolds anonymous types comes to declared ones, and a group of recursive types has a declared
type among its members.

Nothing is assumed of digests: a definition that takes the type of another by mistake still
finds one that was finished before.
-/

namespace WireSchema

open Relation

/-! ## One round -/

namespace Arena

variable {declared : List TypeName} {a : Arena}

theorem body?_modify_of_ne {id i : TypeId} (hne : id ≠ i) (body : Option Body) :
    (a.modify id fun s => { s with body }).body? i = a.body? i := by
  rw [body?, body?, slot?_modify, if_neg hne]

theorem body?_modify {id : TypeId} (hid : id < a.slots.length) (body : Option Body) :
    (a.modify id fun s => { s with body }).body? id = body := by
  obtain ⟨slot, hslot⟩ := exists_slot? hid
  rw [body?, slot?_modify, if_pos rfl, hslot]
  rfl

theorem Refers.modify_of_ne {id i other : TypeId} (h : a.Refers i other) (hne : id ≠ i)
    (body : Option Body) : (a.modify id fun s => { s with body }).Refers i other := by
  obtain ⟨content, hcontent, hmem⟩ := h
  exact ⟨content, (body?_modify_of_ne hne body).trans hcontent, hmem⟩

/-- The content of a declared type is no part of a chain. -/
theorem Chained.modify {id i other : TypeId} (h : a.Chained declared i other)
    (hid : id < declared.length) (body : Option Body) :
    (a.modify id fun s => { s with body }).Chained declared i other :=
  ⟨h.source, h.target,
    h.refers.modify_of_ne (Nat.ne_of_lt (Nat.lt_of_lt_of_le hid h.source)) body⟩

end Arena

namespace Compiler

section

variable {c : Compiler} {declared : List TypeName} {within : List Definition}
  {before rest : List (TypeName × Definition)} {e : TypeName × Definition} {a : Arena}

/-- The anonymous types after some declarations: chains from them end, and each is at the end of
a chain that begins in the type of one of the declarations. -/
structure Hung (declared : List TypeName) (before : List (TypeName × Definition)) (a : Arena) :
    Prop where
  founded : a.Founded declared
  rooted : ∀ id, declared.length ≤ id → id < a.slots.length → ∃ i < before.length, ∃ start,
    declared.length ≤ start ∧ a.Refers i start ∧ ReflTransGen (a.Chained declared) start id

/-- A round without faults hangs its new types on its declaration. -/
theorem Hung.round (h : Hung declared before a)
    (hbetween : c.Between declared within (e :: rest) a) (hinlines : e.2.inlines ⊆ within)
    (hlt : before.length < declared.length)
    (hfaults : ((c.scope declared e.1).compile 0 e.2 a).1.faults = []) :
    Hung declared (before ++ [e]) (((c.scope declared e.1).compile 0 e.2 a).2.modify before.length
      fun s => { s with body := ((c.scope declared e.1).compile 0 e.2 a).1.value }) := by
  let scope := c.scope declared e.1
  have hgrows := scope.grows_compile 0 e.2 a
  have hvalid := scope.valid_compile 0 hinlines hbetween.valid
  have hfounded := scope.founded_compile 0 hinlines hbetween.valid h.founded
  constructor
  case founded =>
    refine hfounded.mono hvalid (fun k i hk => ?_) fun k i hk => hk
    exact Arena.body?_modify_of_ne
      (Nat.ne_of_lt (Nat.lt_of_lt_of_le hlt (hvalid.declared_le hk))) _
  case rooted =>
    intro id hid hid'
    rw [Arena.length_modify] at hid'
    by_cases hold : id < a.slots.length
    · obtain ⟨i, hi, start, hstart, hrefers, hpath⟩ := h.rooted id hid hold
      refine ⟨i, by rw [List.length_append]; omega, start, hstart, ?_, ?_⟩
      · exact (hgrows.refers hrefers).modify_of_ne (Nat.ne_of_gt hi) _
      · exact ReflTransGen.mono (fun _ _ hchained => (hgrows.chained hchained).modify hlt _) _ _
          hpath
    · obtain ⟨d, start, hd, hstate, hpath⟩ :=
        scope.rooted_compile 0 e.2 hbetween.valid.toWellFormed hfaults id (Nat.not_lt.1 hold) hid'
      rcases scope.compile_links 0 e.2 a with ⟨hne, -⟩ | ⟨-, body, hbody, hlinks⟩
      · exact absurd hfaults hne
      · have hlength : before.length < (scope.compile 0 e.2 a).2.slots.length := by
          rw [hvalid.length]
          exact Nat.lt_of_lt_of_le hlt (Nat.le_add_right _ _)
        have hmem : start ∈ body.references := by
          rw [Definition.references_linked hlinks.linked]
          refine List.mem_map.2 ⟨_, hd, ?_⟩
          rw [Arena.locate, Reference.locate]
          exact Arena.positionOf_of_finished hstate
        refine ⟨before.length, by rw [List.length_append]; exact Nat.lt_succ_self _, start,
          hvalid.declared_le hstate, ⟨body, (Arena.body?_modify hlength _).trans hbody, hmem⟩, ?_⟩
        exact ReflTransGen.mono (fun _ _ hchained => hchained.modify hlt _) _ _ hpath

end

variable {c : Compiler} {s : Schema}

theorem hung_declarationPass (hpass : ∀ r ∈ (c.declarationPass s).1, r.2 = []) :
    Hung (declared s) s.accepted (c.declarationPass s).2 := by
  refine declarationPass_sound_rounds (I := Hung (declared s)) ?first ?round hpass
  case first =>
    refine ⟨fun k id hk => (by cases hk), fun id hid hlt => ?_⟩
    rw [Arena.ofDeclared, List.length_map] at hlt
    exact absurd hid (Nat.not_le.2 hlt)
  case round =>
    intro before e rest a hlt hinlines hbetween hbefore hfaults
    exact hbefore.round hbetween hinlines hlt hfaults

end Compiler

/-! ## The statement -/

namespace TypeSystem

/-- Whether there is an anonymous type at a position. -/
def IsAnonymous (ts : TypeSystem) (id : TypeId) : Prop :=
  ∃ t, ts.type? id = some t ∧ t.anonymous = true

/-- A reference from one anonymous type to another, links included. -/
structure Chained (ts : TypeSystem) (id other : TypeId) : Prop where
  source : ts.IsAnonymous id
  target : ts.IsAnonymous other
  refers : other ∈ ts.references id

/-- A type system whose anonymous types hang on declared ones. -/
structure Anchored (ts : TypeSystem) : Prop where
  /-- Anonymous types can be unfolded as long as there are any. -/
  wellFounded : WellFounded fun other id => ts.Chained id other
  /-- There is no cycle of anonymous types only. -/
  acyclic : ∀ id, ¬ TransGen ts.Chained id id
  /-- Every group of recursive types has a declared one, whichever routine finds the strongly
  connected components. -/
  grouped : ∀ components, FindsComponents components →
    ∀ group ∈ (TypeGraph.build components ts).recursive,
      ∃ id ∈ group, ∃ t, ts.type? id = some t ∧ t.anonymous = false
  /-- Every anonymous type is at the end of a chain to whose beginning a declared type refers. -/
  hung : ∀ id, ts.IsAnonymous id → ∃ i t, ts.type? i = some t ∧ t.anonymous = false ∧
    ∃ start ∈ ts.references i, ts.IsAnonymous start ∧ ReflTransGen ts.Chained start id

variable {ts : TypeSystem}

theorem not_transGen_of_wellFounded (h : WellFounded fun other id => ts.Chained id other)
    (id : TypeId) : ¬ TransGen ts.Chained id id := by
  intro hcycle
  exact h.transGen.irrefl.irrefl id (transGen_swap.2 hcycle)

/-- A group has a declared type: of its anonymous types one would refer to none of them, and
yet it holds some type of the group. -/
theorem Closed.exists_declared (h : ts.Closed)
    (hfounded : WellFounded fun other id => ts.Chained id other)
    {components : DependencyGraph → List (List TypeId)} (hcomponents : FindsComponents components)
    {group : List TypeId} (hgroup : group ∈ (TypeGraph.build components ts).recursive) :
    ∃ id ∈ group, ∃ t, ts.type? id = some t ∧ t.anonymous = false := by
  have hmem : ∀ {id other}, id ∈ group → (other ∈ group ↔ ts.Together id other) :=
    TypeGraph.mem_group_iff hcomponents h hgroup
  by_contra hnone
  have hanonymous : ∀ id ∈ group, ts.IsAnonymous id := by
    intro id hid
    obtain ⟨next, ⟨t, ht, -⟩, -⟩ := TransGen.head'_iff.1 ((hmem hid).1 hid).1
    refine ⟨t, ht, ?_⟩
    by_contra hdeclared
    exact hnone ⟨id, hid, t, ht, Bool.eq_false_iff.2 hdeclared⟩
  obtain ⟨last, hlast, hmin⟩ := hfounded.has_min {id | id ∈ group}
    (List.exists_mem_of_ne_nil group (TypeGraph.group_ne_nil hcomponents h hgroup))
  have hcircle := ((hmem hlast).1 hlast).1
  obtain ⟨next, hholds, hpath⟩ := TransGen.head'_iff.1 hcircle
  have hnext : next ∈ group := (hmem hlast).2 ⟨.single hholds, .trans_right hpath hcircle⟩
  exact hmin next hnext ⟨hanonymous last hlast, hanonymous next hnext, hholds.mem_references⟩

end TypeSystem

/-! ## Compiled schemas -/

namespace Compiler

variable {c : Compiler} {s : Schema} {ts : TypeSystem}

/-- The anonymous types are those behind the declared ones. -/
theorem isAnonymous_iff (h : c.compile s = .ok ts) {id : TypeId} :
    ts.IsAnonymous id ↔ (declared s).length ≤ id ∧ id < ts.size := by
  have hvalid := (c.declarationPass_links s).1
  have hslot : ∀ t, ts.type? id = some t → ∃ slot,
      (c.declarationPass s).2.slot? id = some slot ∧ t.anonymous = slot.anonymous := by
    intro t ht
    rw [TypeSystem.type?, ← type_of_slot h id] at ht
    obtain ⟨slot, hslot, htype⟩ := Option.bind_eq_some_iff.1 ht
    obtain ⟨b, -, rfl⟩ := Option.map_eq_some_iff.1 htype
    exact ⟨slot, hslot, rfl⟩
  constructor
  · rintro ⟨t, ht, hanonymous⟩
    obtain ⟨slot, hslot, heq⟩ := hslot t ht
    exact ⟨(hvalid.anonymous_iff hslot).1 (heq ▸ hanonymous), (List.getElem?_eq_some_iff.1 ht).1⟩
  · rintro ⟨hle, hlt⟩
    obtain ⟨t, ht⟩ := TypeSystem.exists_type? hlt
    obtain ⟨slot, hslot, heq⟩ := hslot t ht
    exact ⟨t, ht, heq.trans ((hvalid.anonymous_iff hslot).2 hle)⟩

/-- Types refer to what their slots refer to. -/
theorem mem_references_iff (h : c.compile s = .ok ts) {id other : TypeId} :
    other ∈ ts.references id ↔ (c.declarationPass s).2.Refers id other := by
  rw [TypeSystem.references, TypeSystem.type?, ← type_of_slot h id, Arena.Refers, Arena.body?]
  cases (c.declarationPass s).2.slot? id with
  | none => simp
  | some slot => cases hbody : slot.body <;> simp [typeOf, hbody]

theorem lt_size_of_references (h : c.compile s = .ok ts) {id other : TypeId}
    (hmem : other ∈ ts.references id) : other < ts.size := by
  rw [TypeSystem.references] at hmem
  split at hmem
  · rename_i t ht
    exact closed_of_compile h t (List.mem_of_getElem? ht) other
      (t.body.references_subset_positions hmem)
  · cases hmem

theorem chained_iff (h : c.compile s = .ok ts) {id other : TypeId} :
    ts.Chained id other ↔ (c.declarationPass s).2.Chained (declared s) id other := by
  constructor
  · rintro ⟨hsource, htarget, hmem⟩
    exact ⟨((isAnonymous_iff h).1 hsource).1, ((isAnonymous_iff h).1 htarget).1,
      (mem_references_iff h).1 hmem⟩
  · rintro ⟨hsource, htarget, hrefers⟩
    have hmem := (mem_references_iff h).2 hrefers
    obtain ⟨body, hbody, -⟩ := hrefers
    have hlt : id < ts.size := by
      rw [TypeSystem.size, (map_name_of_compile h).1]
      exact Arena.lt_length_of_body? hbody
    exact ⟨(isAnonymous_iff h).2 ⟨hsource, hlt⟩,
      (isAnonymous_iff h).2 ⟨htarget, lt_size_of_references h hmem⟩, hmem⟩

/-- Chains of anonymous types end. -/
theorem wellFounded_of_compile (h : c.compile s = .ok ts) :
    WellFounded fun other id => ts.Chained id other := by
  have hchained : (fun other id => ts.Chained id other) =
      fun other id => (c.declarationPass s).2.Chained (declared s) id other := by
    ext other id
    exact chained_iff h
  rw [hchained]
  refine ⟨fun id => ⟨id, fun other hstep => ?_⟩⟩
  have hlt : other < ts.size := ((isAnonymous_iff h).1 ((chained_iff h).2 hstep).target).2
  rw [TypeSystem.size, (map_name_of_compile h).1] at hlt
  obtain ⟨slot, hslot⟩ := Arena.exists_slot? hlt
  obtain ⟨k, hk⟩ := finished_of_anonymous hslot
    (((c.declarationPass_links s).1.anonymous_iff hslot).2 hstep.target)
  exact (hung_declarationPass (pass_of_compile h).2.1).founded k other hk

/-- Chains of anonymous types begin in declared ones. -/
theorem hung_of_compile (h : c.compile s = .ok ts) {id : TypeId} (hid : ts.IsAnonymous id) :
    ∃ i t, ts.type? i = some t ∧ t.anonymous = false ∧
      ∃ start ∈ ts.references i, ts.IsAnonymous start ∧ ReflTransGen ts.Chained start id := by
  obtain ⟨hle, hlt⟩ := (isAnonymous_iff h).1 hid
  rw [TypeSystem.size, (map_name_of_compile h).1] at hlt
  obtain ⟨i, hi, start, hstart, hrefers, hpath⟩ :=
    (hung_declarationPass (pass_of_compile h).2.1).rooted id hle hlt
  have hmem := (mem_references_iff h).2 hrefers
  have hdeclared : i < (declared s).length := by rwa [declared, List.length_map]
  have hsize : i < ts.size := by
    obtain ⟨body, hbody, -⟩ := hrefers
    rw [TypeSystem.size, (map_name_of_compile h).1]
    exact Arena.lt_length_of_body? hbody
  obtain ⟨t, ht⟩ := TypeSystem.exists_type? hsize
  refine ⟨i, t, ht, ?_, start, hmem, ?_, ?_⟩
  · by_contra hanonymous
    have hle := ((isAnonymous_iff h).1 ⟨t, ht, Bool.eq_true_of_not_eq_false hanonymous⟩).1
    exact absurd hdeclared (Nat.not_lt.2 hle)
  · exact (isAnonymous_iff h).2 ⟨hstart, lt_size_of_references h hmem⟩
  · exact ReflTransGen.mono (fun _ _ => (chained_iff h).2) _ _ hpath

/-- **Anonymous types hang on declared ones** in every schema that compiles: no cycle is made of
them alone, every recursive group has a declared type, and a chain of references leads to each
of them from a declared type. -/
theorem compile_anchored (h : c.compile s = .ok ts) : ts.Anchored where
  wellFounded := wellFounded_of_compile h
  acyclic := TypeSystem.not_transGen_of_wellFounded (wellFounded_of_compile h)
  grouped _ hcomponents _ hgroup :=
    (closed_of_compile h).exists_declared (wellFounded_of_compile h) hcomponents hgroup
  hung _ hid := hung_of_compile h hid

/-- A list in a list in two types, first met from inside out. -/
def insideOut : Schema :=
  ⟨⟨[("In", .list (.inline (.list (.named "Out") false)) false),
    ("Out", .struct
      [.mk "deep" (.inline (.list (.inline (.list (.named "Out") false)) true)) false false,
        .mk "back" (.inline (.link (some (.inline (.list (.named "Out") false))))) true false]
      .standard)]⟩⟩

theorem compile_anchored_insideOut :
    ∃ ts, compile ⟨.standard, id⟩ insideOut = .ok ts ∧ ts.references 3 = [2] ∧
      ts.references 4 = [2] ∧ ts.recursiveGroups = [[1, 2, 3]] ∧ ts.Anchored := by
  obtain ⟨ts, h, hdeep, hback, hcircular⟩ : ∃ ts, compile ⟨.standard, id⟩ insideOut = .ok ts ∧
      ts.references 3 = [2] ∧ ts.references 4 = [2] ∧
        ts.graph.structural.components.filter ts.graph.structural.isCircular = [[1, 2, 3]] :=
    ⟨_, rfl, rfl, rfl, by decide +kernel⟩
  have hgroups : ts.recursiveGroups = [[1, 2, 3]] :=
    TypeSystem.recursiveGroups_of_sorted hcircular (by decide) (by decide)
  exact ⟨ts, h, hdeep, hback, hgroups, compile_anchored h⟩

end Compiler
end WireSchema
