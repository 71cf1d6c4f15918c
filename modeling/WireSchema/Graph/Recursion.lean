import WireSchema.Graph.Dependency

/-!
# Recursive types

A type is recursive if it contains itself, at whatever distance.  A link is an
address and contains nothing, so a path that goes through a link does not count.
Recursive types that contain each other form a group.

The groups are read off the strongly connected components of the graph without
links.  Which routine finds the components is left open (`TypeGraph.build`): the
order in which it gives them, and their nodes, does not show in the groups, as
these are sorted.

The routine that runs (`DependencyGraph.components`) searches forwards and backwards
from each node.  A search keeps a mark for every node.  It marks no node twice, and
every edge is looked at only when the node at its end is marked, so the number of
edges bounds it.
-/

namespace WireSchema

/-- The marks when everything has one that can be reached from `todo`, itself
included, other than through what is marked already.  Each round takes an id off the
list, and puts its successors there if it has no mark yet.  An id that no mark is
kept for counts as marked. -/
def explore (next : TypeId → List TypeId) :
    (fuel : Nat) → (todo : List TypeId) → (marks : Array Bool) → Array Bool
  | 0, _, marks => marks
  | _ + 1, [], marks => marks
  | fuel + 1, id :: todo, marks =>
    if marks.getD id true then explore next fuel todo marks
    else explore next fuel (next id ++ todo) (marks.setIfInBounds id true)

/-! ## Components -/

namespace DependencyGraph

/-- The graph without its links. -/
def structural (g : DependencyGraph) : DependencyGraph :=
  { g with edges := g.edges.filter fun e => e.2.role ≠ .link }

/-- Whether an edge leads from one node to another. -/
def hasEdge (g : DependencyGraph) (id other : TypeId) : Bool :=
  g.edges.any fun e => e.1 = id ∧ e.2.target = other

/-- For every node the other ends of its edges. -/
def adjacency (g : DependencyGraph) (direction : Direction) : Array (List TypeId) :=
  (g.nodes.map fun id => g.ends id direction).toArray

/-- A mark for every node that can be reached from one, itself included. -/
def reach (g : DependencyGraph) (next : Array (List TypeId)) (id : TypeId) : Array Bool :=
  explore (fun id => next.getD id []) (g.edgeCount + 2) [id] (Array.replicate g.nodeCount false)

/-- The nodes to which there is a way from a node and back, itself included. -/
def componentOf (g : DependencyGraph) (forwards backwards : Array (List TypeId)) (id : TypeId) :
    List TypeId :=
  let ahead := g.reach forwards id
  let behind := g.reach backwards id
  g.nodes.filter fun other => ahead.getD other false && behind.getD other false

/-- The strongly connected components, each where its first node stands. -/
def components (g : DependencyGraph) : List (List TypeId) :=
  let forwards := g.adjacency .outgoing
  let backwards := g.adjacency .incoming
  g.nodes.filterMap fun id =>
    let component := g.componentOf forwards backwards id
    if component.head? = some id then some component else none

/-- Whether the nodes of a component lie on circles: there are several, or there is
one with an edge to itself. -/
def isCircular (g : DependencyGraph) (component : List TypeId) : Bool :=
  1 < component.length || component.head?.any fun id => g.hasEdge id id

end DependencyGraph

/-! ## Groups -/

/-- The graph of a type system, with its recursive types. -/
structure TypeGraph where
  types : TypeSystem
  graph : DependencyGraph
  /-- The groups of recursive types. -/
  recursive : List (List TypeId)

namespace TypeGraph

/-- The graph of a type system.  Each component of what is left without links is a
group if it makes its types recursive; the types of a group are in order, and so are
the groups. -/
def build (components : DependencyGraph → List (List TypeId)) (ts : TypeSystem) : TypeGraph :=
  let structural := ts.graph.structural
  let groups := ((components structural).filter structural.isCircular).map fun component =>
    component.mergeSort Nat.ble
  ⟨ts, ts.graph, groups.mergeSort fun group other => !other.lex group⟩

/-- Whether the type of a name is in a group. -/
def isRecursive (g : TypeGraph) (name : TypeName) : Bool :=
  match g.types.find? name with
  | some id => g.recursive.any fun group => group.contains id
  | none => false

end TypeGraph

namespace TypeSystem

/-- The graph of a type system, with the routine for components that runs. -/
def typeGraph (ts : TypeSystem) : TypeGraph :=
  TypeGraph.build DependencyGraph.components ts

/-- The groups of recursive types. -/
def recursiveGroups (ts : TypeSystem) : List (List TypeId) :=
  ts.typeGraph.recursive

/-- Whether the type of a name contains itself. -/
def isRecursive (ts : TypeSystem) (name : TypeName) : Bool :=
  ts.typeGraph.isRecursive name

end TypeSystem
end WireSchema
