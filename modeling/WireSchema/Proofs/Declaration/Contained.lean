import Mathlib.Tactic.Common
import WireSchema.Declaration.Basic

/-!
# What a definition contains

The references of a definition are the target of a link, the key and value types of a map,
the value type of a list, the types of a struct's fields and the members of a union.  A
definition in place at one of these positions is contained in it, and so is what that one
contains.

`Definition.inlines` lists the contained definitions in the order in which a reader meets
them, repetitions included.  Its length is the size by which statements about definitions
are proved: what is contained is smaller (`Definition.length_inlines_lt`), and so a
statement that passes from the references of a definition to the definition holds of all
(`Definition.reference_induction`).  What is said of the contained definitions one by one
is said along references as well (`Definition.forall_mem_inlines`).
-/

namespace WireSchema

/-! ## References -/

/-- The references of a definition, in the order of the declaration. -/
def Definition.references : Definition → List Reference
  | .link target => target.toList
  | .map key value _ _ => [key, value]
  | .list value _ => [value]
  | .struct fields _ => fields.map Field.type
  | .union members _ => members
  | _ => []

/-- The references that may be definitions in place: not the key type of a map, and not
the members of a union. -/
def Definition.openReferences : Definition → List Reference
  | .link target => target.toList
  | .map _ value _ _ => [value]
  | .list value _ => [value]
  | .struct fields _ => fields.map Field.type
  | _ => []

/-- The references that have to be names: the key type of a map and the members of a
union. -/
def Definition.closedReferences : Definition → List Reference
  | .map key _ _ _ => [key]
  | .union members _ => members
  | _ => []

theorem Definition.references_eq_append (d : Definition) :
    d.references = d.closedReferences ++ d.openReferences := by
  cases d <;> simp [references, closedReferences, openReferences]

theorem Definition.mem_references {r : Reference} {d : Definition} :
    r ∈ d.references ↔ r ∈ d.closedReferences ∨ r ∈ d.openReferences := by
  rw [references_eq_append, List.mem_append]

/-! ## Contained definitions -/

mutual

/-- The definition in place that a reference is, and those contained in it. -/
def Reference.inlines : Reference → List Definition
  | .named _ => []
  | .inline d => d :: d.inlines

/-- The definitions in place that a definition contains, each before what it contains
itself. -/
def Definition.inlines : Definition → List Definition
  | .link (some target) => target.inlines
  | .map key value _ _ => key.inlines ++ value.inlines
  | .list value _ => value.inlines
  | .struct fields _ => fieldInlines fields
  | .union members _ => referenceInlines members
  | _ => []

/-- The definitions in place in the types of fields. -/
def fieldInlines : List Field → List Definition
  | [] => []
  | .mk _ type _ _ :: rest => type.inlines ++ fieldInlines rest

/-- The definitions in place in references. -/
def referenceInlines : List Reference → List Definition
  | [] => []
  | r :: rest => r.inlines ++ referenceInlines rest

end

theorem fieldInlines_eq_flatMap (fields : List Field) :
    fieldInlines fields = (fields.map Field.type).flatMap Reference.inlines := by
  induction fields with
  | nil => rw [fieldInlines, List.map_nil, List.flatMap_nil]
  | cons f rest ih =>
    obtain ⟨name, type, optional, nullable⟩ := f
    rw [fieldInlines, ih, List.map_cons, List.flatMap_cons, Field.type]

theorem referenceInlines_eq_flatMap (rs : List Reference) :
    referenceInlines rs = rs.flatMap Reference.inlines := by
  induction rs with
  | nil => rw [referenceInlines, List.flatMap_nil]
  | cons r rest ih => rw [referenceInlines, ih, List.flatMap_cons]

/-- What a definition contains is what its references contain. -/
theorem Definition.inlines_eq_flatMap (d : Definition) :
    d.inlines = d.references.flatMap Reference.inlines := by
  cases d with
  | link target => cases target <;> simp [inlines, references]
  | map key value _ _ => simp [inlines, references]
  | list value _ => simp [inlines, references]
  | struct fields _ => rw [inlines, references, fieldInlines_eq_flatMap]
  | union members _ => rw [inlines, references, referenceInlines_eq_flatMap]
  | _ => rfl

/-- What a definition contains is a definition in place among its references, or contained
in one. -/
theorem Definition.mem_inlines {d e : Definition} :
    e ∈ d.inlines ↔ ∃ f, .inline f ∈ d.references ∧ e ∈ f :: f.inlines := by
  rw [inlines_eq_flatMap, List.mem_flatMap]
  constructor
  · rintro ⟨r, hr, hmem⟩
    cases r with
    | named name =>
      rw [Reference.inlines] at hmem
      cases hmem
    | inline f =>
      rw [Reference.inlines] at hmem
      exact ⟨f, hr, hmem⟩
  · rintro ⟨f, hf, hmem⟩
    refine ⟨.inline f, hf, ?_⟩
    rw [Reference.inlines]
    exact hmem

theorem Definition.mem_inlines_of_mem_references {d e : Definition}
    (h : .inline e ∈ d.references) : e ∈ d.inlines :=
  mem_inlines.2 ⟨e, h, List.mem_cons_self ..⟩

theorem Definition.sublist_inlines_of_mem_references {d e : Definition}
    (h : .inline e ∈ d.references) : (e :: e.inlines).Sublist d.inlines := by
  have hsublist := List.sublist_flatten_of_mem (List.mem_map_of_mem (f := Reference.inlines) h)
  rwa [← List.flatMap_def, ← inlines_eq_flatMap, Reference.inlines] at hsublist

/-- What is contained directly is smaller. -/
theorem Definition.length_inlines_lt {d e : Definition} (h : .inline e ∈ d.references) :
    e.inlines.length < d.inlines.length := by
  have hlength := (sublist_inlines_of_mem_references h).length_le
  rw [List.length_cons] at hlength
  exact hlength

/-- **Induction along references.**  A statement holds of every definition if it holds of
each one whose definitions in place satisfy it. -/
theorem Definition.reference_induction {P : Definition → Prop}
    (step : ∀ d : Definition, (∀ e, .inline e ∈ d.references → P e) → P d) (d : Definition) :
    P d := by
  generalize hsize : d.inlines.length = size
  induction size using Nat.strongRecOn generalizing d with
  | ind size ih =>
    refine step d fun e he => ih e.inlines.length ?_ e rfl
    rw [← hsize]
    exact length_inlines_lt he

/-- What is contained in a definition is reached from its references, step by step: a
statement holds of all of it if it holds of the definitions in place among the references
and is handed on from each definition to those among its own. -/
theorem Definition.forall_mem_inlines {P : Definition → Prop} {d : Definition}
    (direct : ∀ f, .inline f ∈ d.references → P f)
    (within : ∀ e ∈ d.inlines, P e → ∀ f, .inline f ∈ e.references → P f) :
    ∀ e ∈ d.inlines, P e := by
  induction d using reference_induction with
  | step d ih =>
    intro e he
    obtain ⟨f, hf, hmem⟩ := mem_inlines.1 he
    have hsublist := sublist_inlines_of_mem_references hf
    rcases List.mem_cons.1 hmem with rfl | hmem
    · exact direct e hf
    · refine ih f hf ?_ ?_ e hmem
      · exact within f (hsublist.subset (List.mem_cons_self ..)) (direct f hf)
      · exact fun g hg => within g (hsublist.subset (List.mem_cons_of_mem _ hg))

/-- What is contained in something contained is contained. -/
theorem Definition.inlines_subset {d e : Definition} (h : e ∈ d.inlines) :
    e.inlines ⊆ d.inlines := by
  have hall : ∀ e ∈ d.inlines, e.inlines ⊆ d.inlines := by
    refine forall_mem_inlines (fun f hf g hg => ?_) fun e _ he f hf g hg => ?_
    · exact (sublist_inlines_of_mem_references hf).subset (List.mem_cons_of_mem _ hg)
    · have hsublist := sublist_inlines_of_mem_references hf
      exact he (hsublist.subset (List.mem_cons_of_mem _ hg))
  exact hall e h

theorem Definition.inlines_subset_cons {d e : Definition} (h : e ∈ d :: d.inlines) :
    e.inlines ⊆ d :: d.inlines := by
  intro f hf
  rcases List.mem_cons.1 h with rfl | h
  · exact List.mem_cons_of_mem _ hf
  · exact List.mem_cons_of_mem _ (inlines_subset h hf)

/-! ## Nesting -/

mutual

/-- How many definitions in place there are inside each other in a reference. -/
def Reference.nesting : Reference → Nat
  | .named _ => 0
  | .inline d => d.nesting + 1

/-- How many definitions in place there are inside each other in a definition, at
positions that may hold one. -/
def Definition.nesting : Definition → Nat
  | .link (some target) => target.nesting
  | .map _ value _ _ => value.nesting
  | .list value _ => value.nesting
  | .struct fields _ => fieldNesting fields
  | _ => 0

/-- How many definitions in place there are inside each other in the types of fields. -/
def fieldNesting : List Field → Nat
  | [] => 0
  | .mk _ type _ _ :: rest => max type.nesting (fieldNesting rest)

end

theorem nesting_le_fieldNesting {r : Reference} {fields : List Field}
    (h : r ∈ fields.map Field.type) : r.nesting ≤ fieldNesting fields := by
  induction fields with
  | nil => cases h
  | cons f rest ih =>
    obtain ⟨name, type, optional, nullable⟩ := f
    rw [fieldNesting]
    rcases List.mem_cons.1 h with rfl | h
    · exact Nat.le_max_left _ _
    · exact Nat.le_trans (ih h) (Nat.le_max_right _ _)

theorem Definition.nesting_le {d : Definition} {r : Reference} (h : r ∈ d.openReferences) :
    r.nesting ≤ d.nesting := by
  cases d with
  | link target =>
    cases target with
    | none => cases h
    | some target =>
      exact Nat.le_of_eq (by rw [List.mem_singleton.1 h, nesting])
  | map key value _ _ =>
    exact Nat.le_of_eq (by rw [List.mem_singleton.1 h, nesting])
  | list value _ =>
    exact Nat.le_of_eq (by rw [List.mem_singleton.1 h, nesting])
  | struct fields _ =>
    rw [nesting]
    exact nesting_le_fieldNesting h
  | _ => cases h

/-! ## Schemas -/

namespace Schema

/-- The definitions in place of a schema, in the order of the document. -/
def inlines (s : Schema) : List Definition :=
  s.types.toList.flatMap fun e => e.2.inlines

theorem mem_inlines {s : Schema} {e : Definition} :
    e ∈ s.inlines ↔ ∃ t ∈ s.types.toList, e ∈ t.2.inlines :=
  List.mem_flatMap

theorem inlines_subset {s : Schema} {d e : Definition} (hd : d ∈ s.inlines)
    (he : e ∈ d.inlines) : e ∈ s.inlines := by
  obtain ⟨t, ht, hmem⟩ := mem_inlines.1 hd
  exact mem_inlines.2 ⟨t, ht, Definition.inlines_subset hmem he⟩

end Schema
end WireSchema
