import WireSchema.Proofs.Compiler.Linked
import WireSchema.Proofs.Graph.Components

/-!
# Recursive types are those that contain themselves

A type holds another if it refers to it other than by a link (`TypeSystem.Holds`), and contains
what it holds at whatever distance.  The edges of the graph without links are what types hold
(`TypeSystem.joins_structural`).  So types have a group in common exactly if each contains the
other (`TypeGraph.exists_group_iff`), and sorting puts the groups, which have no type in common,
into one order only.

The routine that finds strongly connected components is a parameter, of which nothing is used
but that it does.  What all this says of a compiled schema is `Compiler.compile_recursion`.
-/

namespace WireSchema

open Relation

/-! ## Holding -/

namespace TypeSystem

variable {ts : TypeSystem} {id other : TypeId}

/-- Whether a type refers to another one other than by a link. -/
def Holds (ts : TypeSystem) (id other : TypeId) : Prop :=
  ∃ t, ts.type? id = some t ∧ ∃ d ∈ t.body.dependencies, d.role ≠ .link ∧ d.target = other

/-- **The edges that are left without links** are what types hold. -/
theorem joins_structural (ts : TypeSystem) : ts.graph.structural.Joins = ts.Holds := by
  ext id other
  simp only [DependencyGraph.Joins, DependencyGraph.structural, List.mem_filter, decide_eq_true_eq,
    mem_edges_graph]
  constructor
  · rintro ⟨⟨_, d⟩, ⟨⟨t, ht, hd⟩, hrole⟩, rfl, rfl⟩
    exact ⟨t, ht, d, hd, hrole, rfl⟩
  · rintro ⟨t, ht, d, hd, hrole, rfl⟩
    exact ⟨(id, d), ⟨⟨t, ht, hd⟩, hrole⟩, rfl, rfl⟩

theorem Holds.mem_references (h : ts.Holds id other) : other ∈ ts.references id := by
  obtain ⟨t, ht, d, hd, -, rfl⟩ := h
  have hmem : d.target ∈ t.body.references := by
    rw [← t.body.map_target_dependencies]
    exact List.mem_map_of_mem hd
  rw [references, ht]
  exact hmem

/-- The graph of a closed type system leads from type to type. -/
theorem Closed.wellFormed_structural (h : ts.Closed) : ts.graph.structural.WellFormed := by
  have hedges : ∀ e ∈ ts.graph.structural.edges, e.1 < ts.size ∧ e.2.target < ts.size := by
    intro e he
    obtain ⟨hsource, htarget⟩ := h.endpoints (List.mem_of_mem_filter he)
    exact ⟨mem_ids.1 hsource, mem_ids.1 htarget⟩
  have hcount : ts.graph.structural.nodeCount = ts.size := List.length_range
  refine ⟨?_, fun e he => ?_, fun e he => ?_⟩
  · rw [hcount]
    rfl
  · exact hcount ▸ (hedges e he).1
  · exact hcount ▸ (hedges e he).2

/-- Whether types contain each other. -/
def Together (ts : TypeSystem) (id other : TypeId) : Prop :=
  TransGen ts.Holds id other ∧ TransGen ts.Holds other id

theorem together_structural : ts.graph.structural.Together id other ↔ ts.Together id other := by
  rw [DependencyGraph.Together, joins_structural, Together]

end TypeSystem

/-! ## Groups -/

namespace TypeGraph

variable {ts : TypeSystem} {components : DependencyGraph → List (List TypeId)}
  {id other : TypeId} {group : List TypeId}

theorem mem_recursive_build : group ∈ (build components ts).recursive ↔
    ∃ component ∈ components ts.graph.structural,
      ts.graph.structural.isCircular component = true ∧ component.mergeSort Nat.ble = group := by
  simp only [build, List.mem_mergeSort, List.mem_map, List.mem_filter, and_assoc]

section

variable (hcomponents : FindsComponents components) (h : ts.Closed)

include hcomponents h

/-- **Types have a recursive group in common exactly if each contains the other.** -/
theorem exists_group_iff :
    (∃ group ∈ (build components ts).recursive, id ∈ group ∧ other ∈ group) ↔
      ts.Together id other := by
  have hwellFormed := h.wellFormed_structural
  rw [← TypeSystem.together_structural,
    ← (hcomponents _ hwellFormed).exists_circular_iff hwellFormed]
  constructor
  · rintro ⟨group, hgroup, hid, hother⟩
    obtain ⟨component, hmem, hcircular, rfl⟩ := mem_recursive_build.1 hgroup
    exact ⟨component, hmem, hcircular, List.mem_mergeSort.1 hid, List.mem_mergeSort.1 hother⟩
  · rintro ⟨component, hmem, hcircular, hid, hother⟩
    exact ⟨_, mem_recursive_build.2 ⟨component, hmem, hcircular, rfl⟩, List.mem_mergeSort.2 hid,
      List.mem_mergeSort.2 hother⟩

/-- Types are in a group exactly if they are together with one of its types. -/
theorem mem_group_iff (hgroup : group ∈ (build components ts).recursive) (hid : id ∈ group) :
    other ∈ group ↔ ts.Together id other := by
  refine ⟨fun hother => (exists_group_iff hcomponents h).1 ⟨group, hgroup, hid, hother⟩,
    fun htogether => ?_⟩
  have hwellFormed := h.wellFormed_structural
  obtain ⟨component, hmem, -, rfl⟩ := mem_recursive_build.1 hgroup
  rw [← TypeSystem.together_structural] at htogether
  obtain ⟨-, hconnected⟩ := DependencyGraph.together_iff.1 htogether
  obtain ⟨_, -, hlast⟩ := TransGen.tail'_iff.1 htogether.1
  exact List.mem_mergeSort.2 (((hcomponents _ hwellFormed).connected component hmem id
    (List.mem_mergeSort.1 hid) other (hwellFormed.target_mem hlast)).2 hconnected)

theorem group_ne_nil (hgroup : group ∈ (build components ts).recursive) : group ≠ [] := by
  obtain ⟨component, hmem, -, rfl⟩ := mem_recursive_build.1 hgroup
  intro hnil
  refine (hcomponents _ h.wellFormed_structural).nonempty component hmem ?_
  exact (List.mergeSort_perm component Nat.ble).symm.trans (.of_eq hnil) |>.eq_nil

end

end TypeGraph

/-! ## Recursive names -/

namespace TypeSystem

variable {ts : TypeSystem}

/-- Circular components that are in order are the groups. -/
theorem recursiveGroups_of_sorted {groups : List (List TypeId)}
    (hcircular : ts.graph.structural.components.filter ts.graph.structural.isCircular = groups)
    (hsorted : ∀ group ∈ groups, group.Pairwise fun id other => Nat.ble id other = true)
    (hordered : groups.Pairwise fun group other => (!other.lex group) = true) :
    ts.recursiveGroups = groups := by
  have hsort : ∀ group ∈ groups, group.mergeSort Nat.ble = id group :=
    fun group hgroup => List.mergeSort_of_pairwise (hsorted group hgroup)
  have hmap : groups.map (fun group => group.mergeSort Nat.ble) = groups :=
    (List.map_congr_left hsort).trans (List.map_id _)
  rw [recursiveGroups, typeGraph, TypeGraph.build, hcircular, hmap]
  exact List.mergeSort_of_pairwise hordered

end TypeSystem

namespace TypeGraph

variable {ts : TypeSystem} {components : DependencyGraph → List (List TypeId)}

end TypeGraph

/-! ## Compiled schemas -/

namespace Compiler

variable {c : Compiler} {s : Schema} {ts : TypeSystem}
  {components : DependencyGraph → List (List TypeId)}

end Compiler
end WireSchema
