import WireSchema.Layout.Struct
import WireSchema.TypeSystem.Basic

/-!
# Dependencies between types

Every reference from one type to another is a dependency, with the role the target
plays and a label that says where the reference stands.  A type that refers to
another twice depends on it twice.

The graph of a type system has a node for every type and an edge for every
dependency.  Questions about a type are answered along the edges at its node, seen
from either end: the order of the edges does not matter, and parallel ones count
once.
-/

namespace WireSchema

/-- The role of a type in another that refers to it. -/
inductive Role where
  /-- The target of a link. -/
  | link
  /-- The key type of a map. -/
  | key
  /-- The value type of a map or list. -/
  | value
  /-- The type of a struct field. -/
  | field
  /-- A member of a union. -/
  | member
  deriving DecidableEq

/-- A reference to a type. -/
structure Dependency where
  target : TypeId
  role : Role
  label : String
  deriving DecidableEq

namespace UnionLayout

/-- The discriminants of a member, in the order of the table. -/
def discriminantsOf (layout : UnionLayout) (member : TypeId) : List String :=
  let keysIn (table : Table String TypeId) : List String :=
    (table.toList.filter fun e => e.2 = member).map Prod.fst
  match layout with
  | .keyed table => keysIn table
  | .envelope _ _ table => keysIn table
  | .inline _ table => keysIn table
  | .stringPrefix table => keysIn table
  | .kinded table => (table.toList.filter fun e => e.2 = member).map fun e => e.1.name
  | .bytePrefix table => ((table.get? member).map fun byte => toString byte.toNat).toList

end UnionLayout

/-- The references in a content, in the order of the declaration. -/
def Body.dependencies : Body → List Dependency
  | .link none => []
  | .link (some target) => [⟨target, .link, "&"⟩]
  | .map key value _ _ => [⟨key, .key, "key"⟩, ⟨value, .value, "value"⟩]
  | .list value _ => [⟨value, .value, "[]"⟩]
  | .struct fields _ => fields.map fun f => ⟨f.type, .field, f.name⟩
  | .union members layout => members.map fun id =>
      ⟨id, .member, "|".intercalate (layout.discriminantsOf id)⟩
  | _ => []

/-! ## The graph -/

/-- The numbers of a list in increasing order, each once. -/
def sortedOnce (ids : List TypeId) : List TypeId :=
  (firsts ids).mergeSort Nat.ble

/-- The way in which an edge is followed from a node. -/
inductive Direction where
  /-- From a type to those it refers to. -/
  | outgoing
  /-- From a type to those that refer to it. -/
  | incoming
  deriving DecidableEq

/-- A graph of dependencies.  Each edge is a dependency with the node that has it;
two nodes may have several edges between them, and a node one to itself. -/
structure DependencyGraph where
  nodes : List TypeId
  edges : List (TypeId × Dependency)

namespace DependencyGraph

/-- How many nodes there are. -/
def nodeCount (g : DependencyGraph) : Nat :=
  g.nodes.length

/-- How many edges there are, parallel ones included. -/
def edgeCount (g : DependencyGraph) : Nat :=
  g.edges.length

/-- The other ends of the edges at a node, once for every edge. -/
def ends (g : DependencyGraph) (id : TypeId) : Direction → List TypeId
  | .outgoing => (g.edges.filter fun e => e.1 = id).map fun e => e.2.target
  | .incoming => (g.edges.filter fun e => e.2.target = id).map Prod.fst

/-- The neighbours of a node in a direction, in order and each once. -/
def neighbours (g : DependencyGraph) (id : TypeId) (direction : Direction) : List TypeId :=
  sortedOnce (g.ends id direction)

end DependencyGraph

namespace TypeSystem

/-- All dependencies, each with the type that has it. -/
def allDependencies (ts : TypeSystem) : List (TypeId × Dependency) :=
  ts.types.zipIdx.flatMap fun t => t.1.body.dependencies.map fun d => (t.2, d)

/-- The graph of a type system. -/
def graph (ts : TypeSystem) : DependencyGraph :=
  ⟨ts.ids, ts.allDependencies⟩

/-- The neighbours of the type of a name; none if there is no such type. -/
def neighboursOf (ts : TypeSystem) (name : TypeName) (direction : Direction) : List TypeId :=
  match ts.find? name with
  | some id => ts.graph.neighbours id direction
  | none => []

/-- The types that the type of a name refers to, in order and each once. -/
def dependenciesOf (ts : TypeSystem) (name : TypeName) : List TypeId :=
  ts.neighboursOf name .outgoing

/-- The types that refer to the type of a name, in order and each once. -/
def dependentsOf (ts : TypeSystem) (name : TypeName) : List TypeId :=
  ts.neighboursOf name .incoming

end TypeSystem
end WireSchema
