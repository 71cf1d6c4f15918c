import Mathlib.Data.Finset.Sort
import WireSchema.Graph.Dependency
import WireSchema.Proofs.Compiler.Linked
import WireSchema.Proofs.Resolution.Order

/-!
# The graph shows the references

What a type refers to is said twice: as the references of its content, and as its dependencies,
which carry a role and a label and are the edges of the graph.  Both lists name the same types in
the same order (`Body.map_target_dependencies`), so the graph has one edge for each reference
(`TypeSystem.map_edges_graph`).

The answers of the graph show neither the order of its edges nor how many of them lead the same
way: the neighbours of a node are the set of the ends of its edges, written in order
(`DependencyGraph.neighbours_eq_sort`).  Where names are distinct a name stands for one node, and
the answers for names are those for nodes (`TypeSystem.GraphAgrees`).

Main statement: `Compiler.compile_graphAgrees`.
-/

namespace WireSchema

/-- The dependencies of a content are its references, each with what it is there for. -/
theorem Body.map_target_dependencies (b : Body) :
    b.dependencies.map Dependency.target = b.references := by
  cases b with
  | link target => cases target <;> rfl
  | struct fields layout =>
    rw [dependencies, references, List.map_map]
    rfl
  | union members layout =>
    rw [dependencies, references, List.map_map]
    exact List.map_id members
  | _ => rfl

/-! ## Numbers in order, each once -/

theorem mem_sortedOnce {id : TypeId} {ids : List TypeId} : id ∈ sortedOnce ids ↔ id ∈ ids := by
  rw [sortedOnce, List.mem_mergeSort, firsts, mem_firstsAfter]
  exact and_iff_left List.not_mem_nil

/-- Different numbers are in increasing order when they are sorted. -/
theorem pairwise_lt_mergeSort {ids : List TypeId} (h : ids.Nodup) :
    (ids.mergeSort Nat.ble).Pairwise (· < ·) := by
  have hsorted : (ids.mergeSort Nat.ble).Pairwise fun a b => Nat.ble a b = true := by
    refine List.pairwise_mergeSort (fun a b c hab hbc => ?_) (fun a b => ?_) _
    · rw [Nat.ble_eq] at hab hbc ⊢
      exact Nat.le_trans hab hbc
    · rw [Bool.or_eq_true, Nat.ble_eq, Nat.ble_eq]
      exact Nat.le_total a b
  have hdistinct : (ids.mergeSort Nat.ble).Nodup := (List.mergeSort_perm ids Nat.ble).nodup_iff.2 h
  refine (hsorted.and hdistinct).imp fun {a b} hab => ?_
  exact Nat.lt_of_le_of_ne (Nat.le_of_ble_eq_true hab.1) hab.2

theorem pairwise_sortedOnce (ids : List TypeId) : (sortedOnce ids).Pairwise (· < ·) :=
  pairwise_lt_mergeSort (nodup_firstsAfter ids [])

/-- This is the set of the numbers, written in order. -/
theorem sortedOnce_eq_sort (ids : List TypeId) : sortedOnce ids = ids.toFinset.sort (· ≤ ·) := by
  have hpairwise := pairwise_sortedOnce ids
  have hset : (sortedOnce ids).toFinset = ids.toFinset := by
    ext id
    rw [List.mem_toFinset, List.mem_toFinset, mem_sortedOnce]
  rw [← hset]
  exact ((List.toFinset_sort (· ≤ ·) (hpairwise.imp Nat.ne_of_lt)).2
    (hpairwise.imp Nat.le_of_lt)).symm

namespace DependencyGraph

variable {g : DependencyGraph} {id other : TypeId}

/-- Some edge leads from the one node to the other. -/
def Joins (g : DependencyGraph) (id other : TypeId) : Prop :=
  ∃ e ∈ g.edges, e.1 = id ∧ e.2.target = other

theorem mem_ends_outgoing : other ∈ g.ends id .outgoing ↔ g.Joins id other := by
  simp only [ends, Joins, List.mem_map, List.mem_filter, decide_eq_true_eq, and_assoc]

theorem mem_ends_incoming : other ∈ g.ends id .incoming ↔ g.Joins other id := by
  simp only [ends, Joins, List.mem_map, List.mem_filter, decide_eq_true_eq, and_assoc,
    and_comm (a := Dependency.target _ = id)]

/-- **The neighbours of a node** are the set of the ends of its edges, written in order. -/
theorem neighbours_eq_sort (g : DependencyGraph) (id : TypeId) (direction : Direction) :
    g.neighbours id direction = (g.ends id direction).toFinset.sort (· ≤ ·) :=
  sortedOnce_eq_sort _

end DependencyGraph

/-! ## The graph of a type system -/

namespace TypeSystem

variable {ts : TypeSystem}

/-- **One edge for every reference**, from the type that refers to the one that it refers to. -/
theorem map_edges_graph (ts : TypeSystem) :
    (ts.graph.edges.map fun e => (e.1, e.2.target)) =
      ts.types.zipIdx.flatMap fun t => t.1.body.references.map fun id => (t.2, id) := by
  rw [graph, allDependencies, List.map_flatMap]
  refine List.flatMap_congr fun t _ => ?_
  rw [← Body.map_target_dependencies, List.map_map, List.map_map]
  rfl

theorem edgeCount_graph (ts : TypeSystem) :
    ts.graph.edgeCount = (ts.types.map fun t => t.body.references.length).sum := by
  have hlength := congrArg List.length ts.map_edges_graph
  simp only [List.length_map, List.length_flatMap] at hlength
  rw [DependencyGraph.edgeCount, hlength]
  have hplaces := congrArg (List.map fun t => t.body.references.length)
    (List.zipIdx_map_fst 0 ts.types)
  rw [List.map_map] at hplaces
  exact congrArg List.sum hplaces

theorem joins_graph {id other : TypeId} :
    ts.graph.Joins id other ↔ other ∈ ts.references id := by
  have hjoins : ts.graph.Joins id other ↔
      (id, other) ∈ ts.graph.edges.map fun e => (e.1, e.2.target) := by
    simp only [DependencyGraph.Joins, List.mem_map, Prod.mk.injEq]
  rw [hjoins, map_edges_graph, references, type?]
  simp only [List.mem_flatMap, List.mem_map, List.mem_zipIdx_iff_getElem?, Prod.mk.injEq]
  constructor
  · rintro ⟨t, ht, target, hmem, rfl, rfl⟩
    rw [ht]
    exact hmem
  · intro hmem
    cases ht : ts.types[id]? with
    | none =>
      rw [ht] at hmem
      cases hmem
    | some t =>
      rw [ht] at hmem
      exact ⟨(t, id), ht, other, hmem, rfl, rfl⟩

/-- An edge is a dependency of the type that it begins at. -/
theorem mem_edges_graph {e : TypeId × Dependency} :
    e ∈ ts.graph.edges ↔ ∃ t, ts.type? e.1 = some t ∧ e.2 ∈ t.body.dependencies := by
  rw [graph, allDependencies, List.mem_flatMap, type?]
  simp only [List.mem_map, List.mem_zipIdx_iff_getElem?]
  constructor
  · rintro ⟨⟨t, id⟩, ht, d, hd, rfl⟩
    exact ⟨t, ht, hd⟩
  · rintro ⟨t, ht, hd⟩
    exact ⟨(t, e.1), ht, e.2, hd, rfl⟩

theorem mem_ids {id : TypeId} : id ∈ ts.ids ↔ id < ts.size :=
  List.mem_range

/-- Every edge of a closed type system has a node at both ends. -/
theorem Closed.endpoints (h : ts.Closed) {e : TypeId × Dependency} (he : e ∈ ts.graph.edges) :
    e.1 ∈ ts.graph.nodes ∧ e.2.target ∈ ts.graph.nodes := by
  have hmem : e.2.target ∈ ts.references e.1 := joins_graph.1 ⟨e, he, rfl, rfl⟩
  rw [references] at hmem
  cases ht : ts.type? e.1 with
  | none =>
    rw [ht] at hmem
    cases hmem
  | some t =>
    rw [ht] at hmem
    refine ⟨mem_ids.2 (List.getElem?_eq_some_iff.1 ht).1, mem_ids.2 ?_⟩
    exact h t (List.mem_of_getElem? ht) _ (t.body.references_subset_positions hmem)

theorem find?_eq_none {name : TypeName} (h : name ∉ ts.names) : ts.find? name = none := by
  rw [find?, List.lookup_eq_none_iff]
  intro e he
  rw [bne_iff_ne]
  rintro rfl
  exact h (List.of_mem_zip (List.mem_reverse.1 he)).1

/-- What a type refers to, and what refers to it, as the graph says. -/
structure GraphAgrees (ts : TypeSystem) : Prop where
  /-- There is a node for every type. -/
  nodeCount : ts.graph.nodeCount = ts.size
  /-- There is an edge for every reference. -/
  edgeCount : ts.graph.edgeCount = (ts.types.map fun t => t.body.references.length).sum
  /-- Every edge has a node at both ends. -/
  endpoints : ∀ e ∈ ts.graph.edges, e.1 ∈ ts.graph.nodes ∧ e.2.target ∈ ts.graph.nodes
  /-- The dependencies of a type are its references in order, without repetitions. -/
  dependencies : ∀ id t, ts.type? id = some t →
    ts.dependenciesOf t.name = t.body.references.toFinset.sort (· ≤ ·)
  /-- A type is among the dependencies of those that are its dependents. -/
  dependents : ∀ a s b t, ts.type? a = some s → ts.type? b = some t →
    (b ∈ ts.dependenciesOf s.name ↔ a ∈ ts.dependentsOf t.name)
  /-- Dependents are in order, without repetitions. -/
  sorted : ∀ name, (ts.dependentsOf name).Pairwise (· < ·)
  /-- A name without a type has neither. -/
  unknown : ∀ name, name ∉ ts.names → ts.dependenciesOf name = [] ∧ ts.dependentsOf name = []

/-- A linked type system has such a graph. -/
theorem Linked.graphAgrees (h : ts.Linked) : ts.GraphAgrees := by
  have hneighbours : ∀ {id t}, ts.type? id = some t → ∀ direction,
      ts.neighboursOf t.name direction = ts.graph.neighbours id direction := by
    intro id t ht direction
    rw [neighboursOf, (h.found id t ht).1]
  refine
    { nodeCount := List.length_range
      edgeCount := ts.edgeCount_graph
      endpoints := fun e he => Closed.endpoints h.closed he
      dependencies := fun id t ht => ?_
      dependents := fun a s b t hs ht => ?_
      sorted := fun name => ?_
      unknown := fun name hname => ?_ }
  · rw [dependenciesOf, hneighbours ht, DependencyGraph.neighbours_eq_sort]
    congr 1
    ext other
    rw [List.mem_toFinset, List.mem_toFinset, DependencyGraph.mem_ends_outgoing, joins_graph,
      references, ht]
  · rw [dependenciesOf, dependentsOf, hneighbours hs, hneighbours ht, DependencyGraph.neighbours,
      DependencyGraph.neighbours, mem_sortedOnce, mem_sortedOnce,
      DependencyGraph.mem_ends_outgoing, DependencyGraph.mem_ends_incoming]
  · rw [dependentsOf, neighboursOf]
    split
    · exact pairwise_sortedOnce _
    · exact List.Pairwise.nil
  · rw [dependenciesOf, dependentsOf, neighboursOf, neighboursOf, find?_eq_none hname]
    exact ⟨rfl, rfl⟩

end TypeSystem

/-! ## Compiled schemas -/

namespace Compiler

variable {c : Compiler} {s : Schema} {ts : TypeSystem}

/-- **The graph of a compiled schema shows its references**, each as one edge, and answers for
every name what the references say. -/
theorem compile_graphAgrees (h : c.compile s = .ok ts) : ts.GraphAgrees :=
  (compile_linked h).graphAgrees

/-- A type that refers to itself and to another one twice, a union of both, and a map and a link
in place. -/
def tangle : Schema :=
  ⟨⟨[("Name", .string),
    ("Knot", .struct
      [.mk "first" (.named "Name") false false, .mk "second" (.named "Name") false false,
        .mk "rest" (.inline (.map (.named "Name") (.named "Knot") false .map)) false false,
        .mk "back" (.inline (.link (some (.named "Knot")))) false false]
      .standard),
    ("Either", .union [.named "Name", .named "Knot"]
      (.kinded ⟨[(.string, "Name"), (.map, "Knot")]⟩))]⟩⟩

theorem compile_graphAgrees_tangle :
    ∃ ts, compile ⟨.standard, id⟩ tangle = .ok ts ∧ ts.graph.edgeCount = 9 ∧
      ts.graph.ends 1 .outgoing = [0, 0, 3, 4] ∧ ts.graph.ends 1 .incoming = [2, 3, 4] ∧
        ts.GraphAgrees := by
  obtain ⟨ts, h, hedges, hout, hin⟩ : ∃ ts, compile ⟨.standard, id⟩ tangle = .ok ts ∧
      ts.graph.edgeCount = 9 ∧ ts.graph.ends 1 .outgoing = [0, 0, 3, 4] ∧
        ts.graph.ends 1 .incoming = [2, 3, 4] :=
    ⟨_, rfl, by decide +kernel, by decide +kernel, by decide +kernel⟩
  exact ⟨ts, h, hedges, hout, hin, compile_graphAgrees h⟩

end Compiler
end WireSchema
