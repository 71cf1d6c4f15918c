import WireSchema.Proofs.Resolution.Places

/-!
# Each form once

Definitions in place with one canonical text are one type, and their faults are told once to
each declared type.  `firstForms` keeps the first definition of each canonical text, apart
from those met before, and `Scope.freshFaults` are the faults of what it keeps.

Which of several definitions with one canonical text is kept does not matter, as they have
the same faults (`Scope.freshFaults_of_alike`); nor does it matter whether a definition
without faults has been met before (`Scope.freshFaults_congr`).
-/

namespace WireSchema

/-- The first definition of each canonical text, apart from those that have occurred
before. -/
def firstForms (before : List String) : List Definition → List Definition
  | [] => []
  | d :: ds =>
    if d.canonical.text ∈ before then firstForms before ds
    else d :: firstForms (d.canonical.text :: before) ds

/-- The canonical texts of definitions. -/
def texts (ds : List Definition) : List String :=
  ds.map fun d => d.canonical.text

@[simp] theorem texts_cons (d : Definition) (ds : List Definition) :
    texts (d :: ds) = d.canonical.text :: texts ds := rfl

theorem mem_texts {text : String} {ds : List Definition} :
    text ∈ texts ds ↔ ∃ d ∈ ds, d.canonical.text = text :=
  List.mem_map

theorem mem_texts_of_mem {d : Definition} {ds : List Definition} (h : d ∈ ds) :
    d.canonical.text ∈ texts ds :=
  mem_texts.2 ⟨d, h, rfl⟩

theorem texts_of_alike {ds es : List Definition} (h : List.Forall₂ Definition.Alike ds es) :
    texts ds = texts es := by
  induction h with
  | nil => rfl
  | cons hxy _ ih => rw [texts_cons, texts_cons, hxy, ih]

/-- Definitions with one canonical text contain definitions with the same ones. -/
theorem Definition.Alike.texts_placed {d e : Definition} (h : d.Alike e) :
    texts d.placed = texts e.placed :=
  texts_of_alike h.placed

/-- A definition with a like inside another one has nothing but what the other has. -/
theorem Definition.texts_placed_subset {d e : Definition} (h : d.canonical.text ∈ texts e.placed) :
    texts (d :: d.placed) ⊆ texts e.placed := by
  obtain ⟨f, hf, hfd⟩ := mem_texts.1 h
  have halike : d.Alike f := hfd.symm
  intro text htext
  rw [texts_cons, halike.texts_placed] at htext
  rcases List.mem_cons.1 htext with rfl | htext
  · exact h
  · obtain ⟨g, hg, rfl⟩ := mem_texts.1 htext
    exact mem_texts_of_mem (placed_subset hf hg)

namespace Scope

variable (scope : Scope)

/-- What is wrong with definitions that have not been met before. -/
def freshFaults (before : List String) (ds : List Definition) : List Fault :=
  (firstForms before ds).flatMap scope.ownFaults

theorem freshFaults_nil (before : List String) : scope.freshFaults before [] = [] := rfl

theorem freshFaults_cons_of_mem {before : List String} {d : Definition} (ds : List Definition)
    (h : d.canonical.text ∈ before) :
    scope.freshFaults before (d :: ds) = scope.freshFaults before ds := by
  rw [freshFaults, firstForms, if_pos h, freshFaults]

theorem freshFaults_cons_of_notMem {before : List String} {d : Definition} (ds : List Definition)
    (h : d.canonical.text ∉ before) :
    scope.freshFaults before (d :: ds) =
      scope.ownFaults d ++ scope.freshFaults (d.canonical.text :: before) ds := by
  rw [freshFaults, firstForms, if_neg h, List.flatMap_cons, freshFaults]

/-- It makes no difference whether a definition without faults has been met. -/
theorem freshFaults_congr {before before' : List String} {ds : List Definition}
    (h : ∀ d ∈ ds, scope.ownFaults d ≠ [] →
      (d.canonical.text ∈ before ↔ d.canonical.text ∈ before')) :
    scope.freshFaults before ds = scope.freshFaults before' ds := by
  induction ds generalizing before before' with
  | nil => rfl
  | cons d ds ih =>
    -- Both sides may take note of the definition if one does.
    have hextend : ∀ e ∈ ds, scope.ownFaults e ≠ [] →
        (e.canonical.text ∈ d.canonical.text :: before ↔
          e.canonical.text ∈ d.canonical.text :: before') := by
      intro e he hne
      rw [List.mem_cons, List.mem_cons, h e (List.mem_cons_of_mem _ he) hne]
    by_cases hnil : scope.ownFaults d = []
    · have hsame : ∀ bs, scope.freshFaults bs (d :: ds) = scope.freshFaults bs ds := by
        intro bs
        by_cases hmem : d.canonical.text ∈ bs
        · exact scope.freshFaults_cons_of_mem ds hmem
        · rw [scope.freshFaults_cons_of_notMem ds hmem, hnil, List.nil_append]
          refine ih fun e _ hne => ?_
          have hother : e.canonical.text ≠ d.canonical.text := by
            intro htext
            have halike : e.Alike d := htext
            exact hne ((halike.ownFaults scope).trans hnil)
          rw [List.mem_cons, or_iff_right hother]
      rw [hsame, hsame]
      exact ih fun e he => h e (List.mem_cons_of_mem _ he)
    · have hiff := h d (List.mem_cons_self ..) hnil
      by_cases hmem : d.canonical.text ∈ before
      · rw [scope.freshFaults_cons_of_mem ds hmem, scope.freshFaults_cons_of_mem ds (hiff.1 hmem)]
        exact ih fun e he => h e (List.mem_cons_of_mem _ he)
      · rw [scope.freshFaults_cons_of_notMem ds hmem,
          scope.freshFaults_cons_of_notMem ds fun hmem' => hmem (hiff.2 hmem'),
          ih hextend]

theorem freshFaults_append (before : List String) (ds es : List Definition) :
    scope.freshFaults before (ds ++ es) =
      scope.freshFaults before ds ++ scope.freshFaults (before ++ texts ds) es := by
  induction ds generalizing before with
  | nil => rw [List.nil_append, texts, List.map_nil, List.append_nil, freshFaults_nil,
      List.nil_append]
  | cons d ds ih =>
    rw [List.cons_append]
    by_cases hmem : d.canonical.text ∈ before
    · rw [scope.freshFaults_cons_of_mem _ hmem, scope.freshFaults_cons_of_mem _ hmem, ih]
      congr 1
      refine scope.freshFaults_congr fun e _ _ => ?_
      rw [texts_cons, List.mem_append, List.mem_append, List.mem_cons]
      constructor
      · exact fun h => h.imp_right Or.inr
      · rintro (h | htext | h)
        · exact Or.inl h
        · exact Or.inl (htext ▸ hmem)
        · exact Or.inr h
    · rw [scope.freshFaults_cons_of_notMem _ hmem, scope.freshFaults_cons_of_notMem _ hmem, ih,
        List.append_assoc]
      congr 2
      refine scope.freshFaults_congr fun e _ _ => ?_
      simp only [texts_cons, List.mem_append, List.mem_cons]
      tauto

/-- Nothing is told of definitions that have been met or have no faults. -/
theorem freshFaults_eq_nil {before : List String} {ds : List Definition}
    (h : ∀ d ∈ ds, d.canonical.text ∈ before ∨ scope.ownFaults d = []) :
    scope.freshFaults before ds = [] := by
  induction ds generalizing before with
  | nil => rfl
  | cons d ds ih =>
    by_cases hmem : d.canonical.text ∈ before
    · rw [scope.freshFaults_cons_of_mem ds hmem]
      exact ih fun e he => h e (List.mem_cons_of_mem _ he)
    · rw [scope.freshFaults_cons_of_notMem ds hmem, (h d (List.mem_cons_self ..)).resolve_left hmem,
        List.nil_append]
      exact ih fun e he => (h e (List.mem_cons_of_mem _ he)).imp_left (List.mem_cons_of_mem _)

/-- Nothing is told of a sound definition and of what is inside it. -/
theorem freshFaults_of_not_faulty {before : List String} {d : Definition}
    (h : ¬ d.Faulty scope.declared) : scope.freshFaults before (d :: d.placed) = [] := by
  refine scope.freshFaults_eq_nil fun f hf => Or.inr (scope.ownFaults_of_not_faulty ?_)
  rcases List.mem_cons.1 hf with rfl | hf
  · exact h
  · exact Definition.not_faulty_of_mem_inlines h (Definition.mem_inlines_of_mem_placed hf)

/-- If nothing is told of definitions, they have been met or have no faults. -/
theorem of_freshFaults_eq_nil {before : List String} {ds : List Definition}
    (h : scope.freshFaults before ds = []) :
    ∀ d ∈ ds, d.canonical.text ∈ before ∨ scope.ownFaults d = [] := by
  induction ds generalizing before with
  | nil => exact fun _ hd => by cases hd
  | cons d ds ih =>
    intro e he
    by_cases hmem : d.canonical.text ∈ before
    · rw [scope.freshFaults_cons_of_mem ds hmem] at h
      rcases List.mem_cons.1 he with rfl | he
      · exact Or.inl hmem
      · exact ih h e he
    · rw [scope.freshFaults_cons_of_notMem ds hmem] at h
      obtain ⟨hnil, hrest⟩ := List.append_eq_nil_iff.1 h
      rcases List.mem_cons.1 he with rfl | he
      · exact Or.inr hnil
      · rcases ih hrest e he with hbefore | hfaults
        · rcases List.mem_cons.1 hbefore with htext | hbefore
          · have halike : e.Alike d := htext
            exact Or.inr ((halike.ownFaults scope).trans hnil)
          · exact Or.inl hbefore
        · exact Or.inr hfaults

/-- **The same is told of definitions with the same canonical texts.** -/
theorem freshFaults_of_alike {ds es : List Definition}
    (h : List.Forall₂ Definition.Alike ds es) (before : List String) :
    scope.freshFaults before ds = scope.freshFaults before es := by
  induction h generalizing before with
  | nil => rfl
  | @cons d e ds es halike _ ih =>
    have htext : d.canonical.text = e.canonical.text := halike
    by_cases hmem : d.canonical.text ∈ before
    · rw [scope.freshFaults_cons_of_mem ds hmem,
        scope.freshFaults_cons_of_mem es (htext ▸ hmem), ih]
    · rw [scope.freshFaults_cons_of_notMem ds hmem,
        scope.freshFaults_cons_of_notMem es (htext ▸ hmem), ih, halike.ownFaults scope, htext]

end Scope
end WireSchema
