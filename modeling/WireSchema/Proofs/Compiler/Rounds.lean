import WireSchema.Proofs.Compiler.Charges
import WireSchema.Proofs.Compiler.Outcome
import WireSchema.Proofs.Resolution.Walk

/-!
# The declaration pass, round by round

A statement on the faults of every declaration, whose truth depends on what has been compiled
before, is proved with an invariant of the arena between two declarations.  What such an
arena always is is `Compiler.Between`: nothing is in progress, and the types that come next
own nothing in place.  `Compiler.declarationPass_rounds` is the induction.

As every declaration is charged under its own name, the errors that the pass charges to a
type are the faults of its round (`Compiler.filter_declarationErrors`).
-/

namespace WireSchema

/-- Whether arenas are the same but for the contents of the declared types. -/
structure Arena.Agrees (declared : List TypeName) (a b : Arena) : Prop where
  states : ∀ k, b.state? k = a.state? k
  slots : ∀ id, declared.length ≤ id → b.slot? id = a.slot? id

namespace Compiler

section

variable {c : Compiler} {declared : List TypeName} {within : List Definition}

/-- What an arena is like before the rounds of some declarations. -/
structure Between (c : Compiler) (declared : List TypeName) (within : List Definition)
    (rest : List (TypeName × Definition)) (a : Arena) : Prop where
  valid : a.Valid c.digest declared within
  settled : ∀ k, a.state? k ≠ some .inProgress
  unowned : ∀ (i : Nat) (t : Slot), a.slot? i = some t → t.anonymous = true →
    ∀ e ∈ rest, e.1 ∉ t.owners

/-- The type that comes next owns nothing that is finished. -/
theorem Between.owner_notMem {e : TypeName × Definition} {rest : List (TypeName × Definition)}
    {a : Arena} (h : c.Between declared within (e :: rest) a) {k : String} {id : TypeId}
    {slot : Slot} (hid : a.state? k = some (.finished id)) (hslot : a.slot? id = some slot) :
    e.1 ∉ slot.owners := by
  have hanonymous := h.valid.anonymousSlots id slot (h.valid.declared_le hid) hslot
  exact h.unowned id slot hslot hanonymous e (List.mem_cons_self ..)

/-- So its walk may begin. -/
theorem Between.surveyed {e : TypeName × Definition} {rest : List (TypeName × Definition)}
    {a : Arena} (h : c.Between declared within (e :: rest) a) (size : Nat) :
    (c.scope declared e.1).Surveyed within size [] a where
  valid := h.valid
  enclosing _ _ hprogress := absurd hprogress (h.settled _)
  known _ _ _ _ hid hslot howner := absurd howner (h.owner_notMem hid hslot)

/-- A round leaves such an arena to the next. -/
theorem Between.next {e : TypeName × Definition} {rest : List (TypeName × Definition)}
    {a : Arena} (h : c.Between declared within (e :: rest) a)
    (hnodup : ((e :: rest).map Prod.fst).Nodup) (hinlines : e.2.inlines ⊆ within) {id : Nat}
    (hid : id < declared.length) (body : Option Body) :
    c.Between declared within rest
      (((c.scope declared e.1).compile 0 e.2 a).2.modify id fun s => { s with body }) := by
  have hgrows := (c.scope declared e.1).grows_compile 0 e.2 a
  have hvalid := (c.scope declared e.1).valid_compile 0 hinlines h.valid
  have hcontinues : a.Continues [e.1] _ :=
    (Arena.Continues.of_grows hgrows).trans (.modify_body hvalid.toWellFormed hid body)
  rw [List.map_cons, List.nodup_cons] at hnodup
  refine ⟨hvalid.modify_body hid body, fun k hk => h.settled k (hgrows.inProgress hk), ?_⟩
  intro i t ht hanonymous f hf howner
  rcases hcontinues.owned i t ht hanonymous f.1 howner with hmem | ⟨s, hs, hanonymous', howner'⟩
  · have hname : f.1 ∈ rest.map Prod.fst := List.mem_map_of_mem hf
    rw [List.mem_singleton.1 hmem] at hname
    exact hnodup.1 hname
  · exact h.unowned i s hs hanonymous' f (List.mem_cons_of_mem _ hf) howner'

/-- **Induction over rounds.**  An invariant of what has been compiled before and of the
arena is kept by every round, in which something is shown of the faults. -/
theorem declarations_rounds {ds : List (TypeName × Definition)}
    {I : List (TypeName × Definition) → Arena → Prop}
    {Q : TypeName × Definition → List Fault → Prop}
    (agrees : ∀ {before a b}, a.Valid c.digest declared within → a.Agrees declared b →
      I before a → I before b)
    (round : ∀ {before e rest a}, ds = before ++ e :: rest →
      c.Between declared within (e :: rest) a → I before a →
        I (before ++ [e]) ((c.scope declared e.1).compile 0 e.2 a).2 ∧
          Q e ((c.scope declared e.1).compile 0 e.2 a).1.faults)
    (hinlines : ∀ e ∈ ds, e.2.inlines ⊆ within) (before rest : List (TypeName × Definition))
    (hds : ds = before ++ rest) (hnodup : (rest.map Prod.fst).Nodup) (id : Nat)
    (hlength : id + rest.length ≤ declared.length) (a : Arena)
    (h : c.Between declared within rest a) (hI : I before a) :
    I ds (c.declarations declared id rest a).2 ∧
      List.Forall₂ (fun e r => r.1 = e.1 ∧ Q e r.2) rest (c.declarations declared id rest a).1 := by
  induction rest generalizing before id a with
  | nil =>
    rw [List.append_nil] at hds
    exact ⟨hds ▸ hI, .nil⟩
  | cons e rest ih =>
    rw [List.length_cons] at hlength
    have hid : id < declared.length := by omega
    have hsplit : ds = (before ++ [e]) ++ rest := by
      rw [hds, List.append_assoc, List.singleton_append]
    obtain ⟨hI', hQ⟩ := round hds h hI
    have hnext := h.next hnodup (hinlines e (hds ▸ by simp)) hid
      ((c.scope declared e.1).compile 0 e.2 a).1.value
    have hagrees : Arena.Agrees declared ((c.scope declared e.1).compile 0 e.2 a).2
        (((c.scope declared e.1).compile 0 e.2 a).2.modify id fun s =>
          { s with body := ((c.scope declared e.1).compile 0 e.2 a).1.value }) := by
      refine ⟨fun k => rfl, fun i hi => ?_⟩
      have hne : id ≠ i := by omega
      rw [Arena.slot?_modify, if_neg hne]
    rw [List.map_cons, List.nodup_cons] at hnodup
    have hvalid := (c.scope declared e.1).valid_compile 0 (hinlines e (hds ▸ by simp)) h.valid
    obtain ⟨hend, hforall⟩ := ih _ hsplit hnodup.2 (id + 1) (by omega) _ hnext
      (agrees hvalid hagrees hI')
    rw [declarations_cons]
    exact ⟨hend, .cons ⟨rfl, hQ⟩ hforall⟩

/-- **Induction over rounds without faults.**  If nothing is wrong with any declaration, an
invariant need only be kept by rounds that report nothing; it is about the arena in which the
content of the declaration has been filled in. -/
theorem declarations_sound_rounds {ds : List (TypeName × Definition)}
    {I : List (TypeName × Definition) → Arena → Prop}
    (round : ∀ {before e rest a}, before.length < declared.length → e.2.inlines ⊆ within →
      c.Between declared within (e :: rest) a → I before a →
        ((c.scope declared e.1).compile 0 e.2 a).1.faults = [] →
          I (before ++ [e]) (((c.scope declared e.1).compile 0 e.2 a).2.modify before.length
            fun s => { s with body := ((c.scope declared e.1).compile 0 e.2 a).1.value }))
    (hinlines : ∀ e ∈ ds, e.2.inlines ⊆ within) (before rest : List (TypeName × Definition))
    (hds : ds = before ++ rest) (hnodup : (rest.map Prod.fst).Nodup)
    (hlength : before.length + rest.length ≤ declared.length) (a : Arena)
    (h : c.Between declared within rest a) (hI : I before a)
    (hfaults : ∀ r ∈ (c.declarations declared before.length rest a).1, r.2 = []) :
    I ds (c.declarations declared before.length rest a).2 := by
  induction rest generalizing before a with
  | nil =>
    rw [List.append_nil] at hds
    exact hds ▸ hI
  | cons e rest ih =>
    rw [List.length_cons] at hlength
    rw [declarations_cons] at hfaults ⊢
    have hsplit : ds = (before ++ [e]) ++ rest := by
      rw [hds, List.append_assoc, List.singleton_append]
    have hbehind : (before ++ [e]).length = before.length + 1 := List.length_append
    have hlt : before.length < declared.length := by omega
    have hwithin : e.2.inlines ⊆ within := hinlines e (hds ▸ by simp)
    have hnext := h.next hnodup hwithin hlt ((c.scope declared e.1).compile 0 e.2 a).1.value
    rw [← hbehind] at hfaults ⊢
    rw [List.map_cons, List.nodup_cons] at hnodup
    exact ih _ hsplit hnodup.2 (by omega) _ hnext
      (round hlt hwithin h hI (hfaults _ (List.mem_cons_self ..)))
      fun r hr => hfaults r (List.mem_cons_of_mem _ hr)

end

/-! ## The rounds of a schema -/

variable {c : Compiler} {s : Schema}

/-- The arena before the first round. -/
theorem between_ofDeclared (c : Compiler) (s : Schema) :
    c.Between (declared s) s.inlines s.accepted (Arena.ofDeclared (declared s)) where
  valid := Arena.valid_ofDeclared c.digest (declared s) s.inlines
  settled k hk := by cases hk
  unowned i t ht hanonymous := by
    have hle := ((Arena.WellFormed.ofDeclared (declared s)).anonymous_iff ht).1 hanonymous
    have hlt := Arena.lt_length_of_slot? ht
    rw [Arena.ofDeclared, List.length_map] at hlt
    omega

/-- Induction over the rounds of a schema. -/
theorem declarationPass_rounds {I : List (TypeName × Definition) → Arena → Prop}
    {Q : TypeName × Definition → List Fault → Prop}
    (first : I [] (Arena.ofDeclared (declared s)))
    (agrees : ∀ {before a b}, a.Valid c.digest (declared s) s.inlines →
      a.Agrees (declared s) b → I before a → I before b)
    (round : ∀ {before e rest a}, s.accepted = before ++ e :: rest →
      c.Between (declared s) s.inlines (e :: rest) a → I before a →
        I (before ++ [e]) ((c.scope (declared s) e.1).compile 0 e.2 a).2 ∧
          Q e ((c.scope (declared s) e.1).compile 0 e.2 a).1.faults) :
    I s.accepted (c.declarationPass s).2 ∧
      List.Forall₂ (fun e r => r.1 = e.1 ∧ Q e r.2) s.accepted (c.declarationPass s).1 := by
  have hlength : 0 + s.accepted.length ≤ (declared s).length := by
    rw [Nat.zero_add, declared, List.length_map]
  exact declarations_rounds (I := I) (Q := Q) agrees round Schema.inlines_subset_of_accepted []
    s.accepted rfl s.nodup_accepted 0 hlength _ (c.between_ofDeclared s) first

/-- Induction over the rounds of a schema with which nothing is wrong by itself. -/
theorem declarationPass_sound_rounds {I : List (TypeName × Definition) → Arena → Prop}
    (first : I [] (Arena.ofDeclared (declared s)))
    (round : ∀ {before e rest a}, before.length < (declared s).length → e.2.inlines ⊆ s.inlines →
      c.Between (declared s) s.inlines (e :: rest) a → I before a →
        ((c.scope (declared s) e.1).compile 0 e.2 a).1.faults = [] →
          I (before ++ [e]) (((c.scope (declared s) e.1).compile 0 e.2 a).2.modify before.length
            fun slot => { slot with body := ((c.scope (declared s) e.1).compile 0 e.2 a).1.value }))
    (hpass : ∀ r ∈ (c.declarationPass s).1, r.2 = []) :
    I s.accepted (c.declarationPass s).2 := by
  have hlength : ([] : List (TypeName × Definition)).length + s.accepted.length ≤
      (declared s).length := by
    rw [List.length_nil, Nat.zero_add, declared, List.length_map]
  exact declarations_sound_rounds (I := I) round Schema.inlines_subset_of_accepted [] s.accepted rfl
    s.nodup_accepted hlength _ (c.between_ofDeclared s) first hpass

/-! ## Errors by name -/

theorem filter_charged (name owner : TypeName) (faults : List Fault) :
    (faults.map (CompileError.charged owner)).filter (fun e => e.typeName = name) =
      if owner = name then faults.map (CompileError.charged owner) else [] := by
  split
  · next h =>
    refine List.filter_eq_self.2 fun e he => ?_
    obtain ⟨fault, -, rfl⟩ := List.mem_map.1 he
    exact decide_eq_true h
  · next h =>
    refine List.filter_eq_nil_iff.2 fun e he => ?_
    obtain ⟨fault, -, rfl⟩ := List.mem_map.1 he
    rw [CompileError.typeName, decide_eq_true_eq]
    exact h

theorem filter_declarationErrors_of_notMem {name : TypeName}
    {results : List (TypeName × List Fault)} (h : name ∉ results.map Prod.fst) :
    (declarationErrors results).filter (fun e => e.typeName = name) = [] := by
  refine List.filter_eq_nil_iff.2 fun e he => ?_
  obtain ⟨⟨owner, faults⟩, hmem, he⟩ := List.mem_flatMap.1 he
  obtain ⟨fault, -, rfl⟩ := List.mem_map.1 he
  have hne : owner ≠ name := by
    rintro rfl
    exact h (List.mem_map_of_mem (f := Prod.fst) hmem)
  rw [CompileError.typeName, decide_eq_true_eq]
  exact hne

/-- The errors about a type are the faults of its round. -/
theorem filter_declarationErrors {Q : TypeName × Definition → List Fault → Prop}
    {ds : List (TypeName × Definition)} {results : List (TypeName × List Fault)}
    (h : List.Forall₂ (fun e r => r.1 = e.1 ∧ Q e r.2) ds results)
    (hnodup : (ds.map Prod.fst).Nodup) {e : TypeName × Definition} (he : e ∈ ds) :
    ∃ faults, Q e faults ∧ (declarationErrors results).filter (fun f => f.typeName = e.1) =
      faults.map (CompileError.charged e.1) := by
  induction h with
  | nil => cases he
  | @cons f r ds results hfirst hrest ih =>
    obtain ⟨name, faults⟩ := r
    obtain ⟨rfl, hQ⟩ := hfirst
    rw [List.map_cons, List.nodup_cons] at hnodup
    have hnames : results.map Prod.fst = ds.map Prod.fst := by
      clear ih hnodup he
      induction hrest with
      | nil => rfl
      | cons hfirst _ ih => rw [List.map_cons, List.map_cons, hfirst.1, ih]
    rw [declarationErrors, List.flatMap_cons, List.filter_append, filter_charged]
    rcases List.mem_cons.1 he with rfl | he
    · refine ⟨faults, hQ, ?_⟩
      rw [if_pos rfl]
      have hothers := filter_declarationErrors_of_notMem (hnames ▸ hnodup.1)
      rw [declarationErrors] at hothers
      rw [hothers, List.append_nil]
    · have hne : f.1 ≠ e.1 := by
        intro heq
        exact hnodup.1 (heq ▸ List.mem_map_of_mem he)
      rw [if_neg hne, List.nil_append]
      exact ih hnodup.2 he

end Compiler
end WireSchema
