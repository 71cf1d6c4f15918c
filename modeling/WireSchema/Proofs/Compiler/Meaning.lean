import WireSchema.Proofs.Compiler.Outcome
import WireSchema.Proofs.Declaration.Finite

/-!
# Compiling preserves meaning

A compiled schema is a row of types: the declared ones in the order of the document, then
one for every different definition in place, in the order in which a reader of the document
first meets them.  Every reference of the schema has a place in the row, the same for equal
references, and the type at the place of a definition has the definition's content:

* the sort of the definition, and its fields, members and flags in their order,
* the representation that its translator makes of the declared one,
* its references, in their order, each replaced by its place.

`TypeSystem.Represents` is this statement and `Compiler.compile_represents` the theorem.

## What digests are needed for

Definitions in place are one type when their digests agree.  The theorem asks that digests
tell the canonical texts of the schema's own definitions apart, and nothing else of them.

## Implicit values that are no numbers

A text cannot tell implicit values apart that are not finite, as all are written as null.
Definitions in place that differ in nothing else are one type, which has the content of one of
them: what `TypeSystem.Represents` says of contents, it says of how they are written.  A
definition with finite implicit values (`Definition.FiniteImplicits`), which is every one that a
document can hold, has its own content.  One with an infinity may not
(`Compiler.not_content_infinities`).
-/

namespace WireSchema

/-! ## The statement -/

/-- The canonical texts of the definitions in place of a schema, in the order of the
document. -/
def Schema.inlineTexts (s : Schema) : List String :=
  s.inlines.map fun d => d.canonical.text

/-- A type system says what a schema says, with every reference of the schema at a
place. -/
structure TypeSystem.Represents (ts : TypeSystem) (s : Schema) (place : Reference → TypeId) :
    Prop where
  /-- There is one type for every declaration and for every different definition in
  place. -/
  size : ts.size = s.types.size + (firsts s.inlineTexts).length
  /-- The declared types come first, in order, and each has the content of its
  declaration. -/
  declared : ∀ (i : Nat) name d, s.types.toList[i]? = some (name, d) →
    ∃ b, ts.types[i]? = some ⟨name, false, b⟩ ∧ d.linked place = some b
  /-- All others are anonymous. -/
  anonymous : ∀ (i : Nat) t, s.types.size ≤ i → ts.types[i]? = some t → t.anonymous = true
  /-- A name is at the type that is declared under it. -/
  named : ∀ name ∈ s.types.keys, ∃ d, s.types.toList[place (.named name)]? = some (name, d)
  /-- Every name that a declaration or a definition in place refers to is declared. -/
  resolved : ∀ d, d ∈ s.types.values ∨ d ∈ s.inlines →
    ∀ name, .named name ∈ d.references → name ∈ s.types.keys
  /-- The definitions in place are in the order in which a reader first meets them. -/
  inline : ∀ d ∈ s.inlines,
    place (.inline d) = s.types.size + (firsts s.inlineTexts).idxOf d.canonical.text
  /-- The type at the place of a definition has the content of the definition, as written. -/
  content : ∀ d ∈ s.inlines, ∃ t b, ts.types[place (.inline d)]? = some t ∧
    t.anonymous = true ∧ d.linked place = some b ∧ t.body.asWritten = b.asWritten

/-- A definition with finite implicit values has its own content. -/
theorem TypeSystem.Represents.linked_of_finite {ts : TypeSystem} {s : Schema}
    {place : Reference → TypeId} (h : ts.Represents s place) {d : Definition} (hd : d ∈ s.inlines)
    (hfinite : d.FiniteImplicits) :
    ∃ t, ts.types[place (.inline d)]? = some t ∧ d.linked place = some t.body := by
  obtain ⟨t, b, ht, -, hb, hwritten⟩ := h.content d hd
  exact ⟨t, ht, hfinite.eq_of_asWritten hb hwritten ▸ hb⟩

namespace TypeSystem

/-- The contents of the anonymous types, in their order. -/
def anonymousBodies (ts : TypeSystem) : List Body :=
  (ts.types.filter CompiledType.anonymous).map CompiledType.body

theorem body_mem_anonymousBodies {ts : TypeSystem} {id : TypeId} {t : CompiledType}
    (ht : ts.type? id = some t) (hanonymous : t.anonymous = true) :
    t.body ∈ ts.anonymousBodies :=
  List.mem_map_of_mem (List.mem_filter.2 ⟨List.mem_of_getElem? ht, hanonymous⟩)

end TypeSystem

/-! ## Digests and texts -/

namespace Schema

variable {s : Schema} {digest : String → String}

theorem digest_inj_of_separates (h : Separates digest s.inlines) :
    ∀ x ∈ s.inlineTexts, ∀ y ∈ s.inlineTexts, digest x = digest y → x = y := by
  intro x hx y hy heq
  obtain ⟨d, hd, rfl⟩ := List.mem_map.1 hx
  obtain ⟨e, he, rfl⟩ := List.mem_map.1 hy
  exact h d hd e he heq

theorem firsts_digests (h : Separates digest s.inlines) :
    firsts (s.inlines.map fun d => digest d.canonical.text) =
      (firsts s.inlineTexts).map digest := by
  have hmap : s.inlines.map (fun d => digest d.canonical.text) = s.inlineTexts.map digest := by
    rw [inlineTexts, List.map_map]
    rfl
  rw [hmap]
  exact firstsAfter_map s.inlineTexts [] (by simpa using digest_inj_of_separates h)

theorem mem_firsts_inlineTexts {d : Definition} (hd : d ∈ s.inlines) :
    d.canonical.text ∈ firsts s.inlineTexts :=
  mem_firstsAfter.2 ⟨List.mem_map_of_mem hd, List.not_mem_nil⟩

theorem idxOf_firsts_digests (h : Separates digest s.inlines) {d : Definition}
    (hd : d ∈ s.inlines) :
    (firsts (s.inlines.map fun e => digest e.canonical.text)).idxOf (digest d.canonical.text) =
      (firsts s.inlineTexts).idxOf d.canonical.text := by
  rw [firsts_digests h]
  refine idxOf_map_of_inj fun y hy heq => ?_
  exact digest_inj_of_separates h y (mem_firstsAfter.1 hy).1 _ (List.mem_map_of_mem hd) heq

end Schema

/-! ## The theorem -/

namespace Compiler

variable {c : Compiler} {s : Schema} {ts : TypeSystem}

theorem declared_of_compile (h : c.compile s = .ok ts) : declared s = s.types.keys :=
  declared_of_nodup (pass_of_compile h).1

theorem length_declared (h : c.compile s = .ok ts) : (declared s).length = s.types.size := by
  rw [declared_of_compile h, Entries.keys, List.length_map]
  rfl

/-- The type of a declaration stands where the declaration does, and has its content. -/
theorem type_of_declaration (h : c.compile s = .ok ts) {i : Nat} {name : TypeName}
    {d : Definition} (hi : s.types.toList[i]? = some (name, d)) :
    ∃ b, ts.types[i]? = some ⟨name, false, b⟩ ∧
      (c.declarationPass s).2.Links c.digest (declared s) d b := by
  obtain ⟨hnodup, hfaults, -⟩ := pass_of_compile h
  obtain ⟨hvalid, hdeclares⟩ := c.declarationPass_links s
  rw [Schema.accepted_of_nodup hnodup] at hdeclares
  obtain ⟨faults, slot, hmem, hslot, hcontent⟩ := hdeclares _ (List.mem_of_getElem? hi)
  have hkey : (declared s)[i]? = some name := by
    rw [declared_of_compile h, Entries.keys, List.getElem?_map, hi]
    rfl
  have hposition : (declared s).idxOf name = i := by
    obtain ⟨hlt, hname⟩ := List.getElem?_eq_some_iff.1 hkey
    rw [← hname, s.nodup_accepted.idxOf_getElem]
  rw [hposition] at hslot
  obtain ⟨slot', hslot', hname, -, hanonymous⟩ := hvalid.declaredSlots i name hkey
  obtain rfl := Option.some.inj (hslot.symm.trans hslot')
  rcases hcontent with ⟨hne, -⟩ | ⟨-, b, hb, hlinks⟩
  · exact absurd (hfaults _ hmem) hne
  · refine ⟨b, ?_, hlinks⟩
    rw [← type_of_slot h i, hslot, Option.bind_some, typeOf, hb, hname, hanonymous]
    rfl

/-- The arena of a successful compile has met the definitions in place in their order, and
nothing in it is empty. -/
theorem met_of_compile (hseparates : Separates c.digest s.inlines) (h : c.compile s = .ok ts) :
    (c.declarationPass s).2.met = firsts (s.inlines.map fun d => c.digest d.canonical.text) ∧
      (c.declarationPass s).2.Complete := by
  obtain ⟨hnodup, hfaults, -⟩ := pass_of_compile h
  obtain ⟨hcomplete, hmet⟩ := declarations_meets (c := c) hseparates s.accepted []
    (Arena.ofDeclared (declared s)) rfl Schema.inlines_subset_of_accepted
    (Arena.valid_ofDeclared c.digest (declared s) s.inlines)
    (Arena.complete_ofDeclared (declared s)) hfaults
  refine ⟨hmet.trans ?_, hcomplete⟩
  rw [Schema.accepted_of_nodup hnodup]
  rfl

/-- The slot of a definition in place, in the arena of a successful compile. -/
theorem slot_of_compile (hseparates : Separates c.digest s.inlines) (h : c.compile s = .ok ts)
    {d : Definition} (hd : d ∈ s.inlines) :
    ∃ id, (c.declarationPass s).2.state? (c.digest d.canonical.text) = some (.finished id) ∧
      id = s.types.size + (firsts s.inlineTexts).idxOf d.canonical.text := by
  have hvalid := (c.declarationPass_links s).1
  obtain ⟨hmet, -⟩ := met_of_compile hseparates h
  have hmem : c.digest d.canonical.text ∈ (c.declarationPass s).2.met := by
    rw [hmet]
    exact mem_firstsAfter.2 ⟨List.mem_map_of_mem (f := fun e : Definition =>
      c.digest e.canonical.text) hd, List.not_mem_nil⟩
  cases hstate : (c.declarationPass s).2.state? (c.digest d.canonical.text) with
  | none => exact absurd hstate ((hvalid.known _).1 hmem)
  | some state =>
    cases state with
    | inProgress => exact absurd hstate (c.declarationPass_settled s _)
    | finished id =>
      refine ⟨id, rfl, ?_⟩
      rw [hvalid.finished _ _ hstate, hmet, Schema.idxOf_firsts_digests hseparates hd,
        length_declared h]

/-- The type of a definition in place is an anonymous one, and its content serves the
definition. -/
theorem type_of_inline (hseparates : Separates c.digest s.inlines) (h : c.compile s = .ok ts)
    {d : Definition} (hd : d ∈ s.inlines) :
    ∃ t, ts.types[(c.declarationPass s).2.locate c.digest (declared s) (.inline d)]? = some t ∧
      t.anonymous = true ∧ (c.declarationPass s).2.Realises c.digest (declared s) d t.body := by
  have hvalid := (c.declarationPass_links s).1
  obtain ⟨-, hcomplete⟩ := met_of_compile hseparates h
  obtain ⟨id, hid, -⟩ := slot_of_compile hseparates h hd
  obtain ⟨slot, hslot, -, hbody⟩ := hvalid.realises hseparates hd hid
  obtain ⟨b, hb⟩ := Option.ne_none_iff_exists'.1 (hcomplete _ id slot hid hslot)
  refine ⟨⟨slot.name, slot.anonymous, b⟩, ?_, ?_, (hbody b hb).2⟩
  · rw [Arena.locate, Reference.locate, Arena.positionOf_of_finished hid, ← type_of_slot h id,
      hslot, Option.bind_some, typeOf, hb]
    rfl
  · exact hvalid.anonymousSlots id slot (hvalid.declared_le hid) hslot

/-- Nothing in a schema that compiles has a local fault. -/
theorem not_localFault_of_compile (hseparates : Separates c.digest s.inlines)
    (h : c.compile s = .ok ts) {d : Definition} (hd : d ∈ s.types.values ∨ d ∈ s.inlines) :
    ¬ d.LocalFault s.types.keys := by
  rw [← declared_of_compile h]
  rcases hd with hd | hd
  · obtain ⟨⟨name, d'⟩, he, rfl⟩ := List.mem_map.1 hd
    obtain ⟨i, hi⟩ := List.getElem?_of_mem he
    obtain ⟨_, -, hlinks⟩ := type_of_declaration h hi
    exact hlinks.sound
  · obtain ⟨_, -, -, hrealises⟩ := type_of_inline hseparates h hd
    exact hrealises.sound

/-- There are as many types as declarations and different definitions in place. -/
theorem size_of_compile (hseparates : Separates c.digest s.inlines) (h : c.compile s = .ok ts) :
    ts.size = s.types.size + (firsts s.inlineTexts).length := by
  obtain ⟨hmet, -⟩ := met_of_compile hseparates h
  have hlength := (c.declarationPass_links s).1.length
  rw [length_declared h, hmet, Schema.firsts_digests hseparates, List.length_map] at hlength
  have htypes := congrArg List.length (pass_of_compile h).2.2
  rw [List.length_map, List.length_map] at htypes
  exact htypes.symm.trans hlength

/-- The compiled types represent the schema, with references at the places where the arena
of the declaration pass locates them. -/
theorem represents_locate (hseparates : Separates c.digest s.inlines)
    (h : c.compile s = .ok ts) :
    ts.Represents s ((c.declarationPass s).2.locate c.digest (declared s)) := by
  have hvalid := (c.declarationPass_links s).1
  constructor
  case size => exact size_of_compile hseparates h
  case declared =>
    intro i name d hi
    obtain ⟨b, htype, hlinks⟩ := type_of_declaration h hi
    exact ⟨b, htype, hlinks.linked⟩
  case anonymous =>
    intro i t hi ht
    rw [← type_of_slot h i] at ht
    obtain ⟨slot, hslot, htype⟩ := Option.bind_eq_some_iff.1 ht
    obtain ⟨b, -, rfl⟩ := Option.map_eq_some_iff.1 htype
    exact hvalid.anonymousSlots i slot (length_declared h ▸ hi) hslot
  case named =>
    intro name hname
    have hlt := List.idxOf_lt_length_of_mem hname
    have hget := List.getElem?_eq_getElem hlt
    rw [List.getElem_idxOf hlt, Entries.keys, List.getElem?_map] at hget
    obtain ⟨e, he, hename⟩ := Option.map_eq_some_iff.1 hget
    refine ⟨e.2, ?_⟩
    rw [Arena.locate, Reference.locate, declared_of_compile h, Entries.keys, he, ← hename]
  case resolved =>
    intro d hd name hname
    by_contra hmissing
    exact not_localFault_of_compile hseparates h hd (.undeclared name hname hmissing)
  case inline =>
    intro d hd
    obtain ⟨id, hid, hposition⟩ := slot_of_compile hseparates h hd
    rw [Arena.locate, Reference.locate, Arena.positionOf_of_finished hid, hposition]
  case content =>
    intro d hd
    obtain ⟨t, htype, hanonymous, hrealises⟩ := type_of_inline hseparates h hd
    obtain ⟨b, hb, hwritten⟩ := Option.map_eq_some_iff.1 hrealises.linked
    exact ⟨t, b, htype, hanonymous, hb, hwritten.symm⟩

/-- **Compilation preserves the meaning of a schema.**  If digests tell the canonical texts
of the definitions in place of a schema apart, and the schema compiles, then the compiled
types represent it: every reference of the schema has a place, and the type at the place
of a definition has the content of the definition with its references at their places.  An
implicit value that is not finite may be another one there; a definition in place that has none
of these has its content as it is. -/
theorem compile_represents (hseparates : Separates c.digest s.inlines)
    (h : c.compile s = .ok ts) :
    ∃ place, ts.Represents s place ∧ ∀ d ∈ s.inlines, d.FiniteImplicits →
      ∃ t, ts.types[place (.inline d)]? = some t ∧ d.linked place = some t.body := by
  have hrepresents := represents_locate hseparates h
  exact ⟨_, hrepresents, fun d hd hfinite => hrepresents.linked_of_finite hd hfinite⟩

/-- A struct with two fields of one anonymous type. -/
def twins : Schema :=
  ⟨⟨[("S", .string),
    ("P", .struct
      [.mk "a" (.inline (.list (.named "S") false)) false false,
        .mk "b" (.inline (.list (.named "S") false)) true false] .standard)]⟩⟩

theorem compile_represents_twins :
    Separates id twins.inlines ∧ ∃ ts, compile ⟨.standard, id⟩ twins = .ok ts ∧
      ∃ place, ts.Represents twins place ∧ ∀ d ∈ twins.inlines, d.FiniteImplicits →
        ∃ t, ts.types[place (.inline d)]? = some t ∧ d.linked place = some t.body := by
  have hseparates : Separates id twins.inlines := fun _ _ _ _ h => h
  obtain ⟨ts, h⟩ : ∃ ts, compile ⟨.standard, id⟩ twins = .ok ts := ⟨_, rfl⟩
  exact ⟨hseparates, ts, h, compile_represents hseparates h⟩

/-! ## Infinite implicit values -/

theorem exists_of_map_compile {α : Type} {f : TypeSystem → α} {x : α}
    (h : (c.compile s).map f = .ok x) : ∃ ts, c.compile s = .ok ts ∧ f ts = x := by
  cases hcompile : c.compile s with
  | error errors =>
    rw [hcompile] at h
    cases h
  | ok ts =>
    rw [hcompile] at h
    exact ⟨ts, rfl, Except.ok.inj h⟩

/-- A struct with a field that is infinite if it is absent. -/
def infinite (negative : Bool) : Definition :=
  .struct [.mk "x" (.named "F") false false] (.map (some ⟨[("x", ⟨none, some (.float
    ⟨if negative then 0xfff0000000000000 else 0x7ff0000000000000⟩)⟩)]⟩))

/-- A list of structs for either sign. -/
def infinities : Schema :=
  ⟨⟨[("F", .float), ("A", .list (.inline (infinite false)) false),
    ("B", .list (.inline (infinite true)) false)]⟩⟩

/-- The two structs are one type, which has the content of the first and not of the second. -/
theorem not_content_infinities :
    ¬ ∀ (c : Compiler) (s : Schema) (ts : TypeSystem), Separates c.digest s.inlines →
      c.compile s = .ok ts → ∃ place : Reference → TypeId, ∀ d ∈ s.inlines,
        ∃ t, ts.types[place (.inline d)]? = some t ∧ t.anonymous = true ∧
          d.linked place = some t.body := by
  intro hall
  have hbodies : (compile ⟨.standard, id⟩ infinities).map TypeSystem.anonymousBodies =
      .ok ((infinite false).linked fun _ => 0).toList := by decide +kernel
  obtain ⟨ts, h, hts⟩ := exists_of_map_compile hbodies
  obtain ⟨place, hplace⟩ := hall _ _ ts (fun _ _ _ _ h => h) h
  have hmem : infinite true ∈ [infinite false, infinite true] := by simp
  obtain ⟨t, ht, hanonymous, hlinked⟩ := hplace _ hmem
  have hbody := TypeSystem.body_mem_anonymousBodies ht hanonymous
  rw [hts, Option.mem_toList, ← hlinked] at hbody
  cases (Body.struct.inj (Option.some.inj hbody)).2

end Compiler
end WireSchema
