import WireSchema.Graph.Dependency

/-!
# The graph as a drawing

The graph of a type system in the language of a drawing tool: a fixed header, a
statement for every type, and one for every dependency.  The sort of a type gives
its colour; anonymous types and links are dashed.
-/

namespace WireSchema

/-- The colour of a type's node. -/
def TypeKind.colour : TypeKind → String
  | .struct => "#00BCD4"
  | .union => "#9C27B0"
  | .enum => "#FF5722"
  | .map => "#4CAF50"
  | .list => "#4CAF50"
  | .link => "#2196F3"
  | .bool | .string | .bytes | .int | .float => "#B0BEC5"

/-- A label with a backslash in front of every quote. -/
def escapeQuotes (label : String) : String :=
  String.ofList (label.toList.flatMap fun c => if c = '"' then ['\\', '"'] else [c])

/-- Everything in front of the types. -/
def dotHeader : String :=
  "digraph TypeSystem \x7b\n" ++
  "  rankdir=LR;\n" ++
  "  node [shape=box, style=\"filled,rounded\", fontname=\"Helvetica\", fontsize=10];\n" ++
  "  edge [fontname=\"Helvetica\", fontsize=8, fontcolor=\"#606060\"];\n" ++
  "\n"

/-- The statement of a type. -/
def CompiledType.dotNode (t : CompiledType) : String :=
  "  \"" ++ t.name ++ "\" [label=\"" ++ t.name ++ "\\n" ++ t.body.kind.name ++
    "\", fillcolor=\"" ++ t.body.kind.colour ++ "\"" ++
    (if t.anonymous then ", style=\"filled,rounded,dashed\"" else "") ++ "];\n"

namespace TypeSystem

/-- The statement of a dependency of the type at a position. -/
def dotEdge (ts : TypeSystem) (source : TypeId) (d : Dependency) : String :=
  "  \"" ++ ts.nameOf source ++ "\" -> \"" ++ ts.nameOf d.target ++ "\" [label=\"" ++
    escapeQuotes d.label ++ "\"" ++ (if d.role = .link then ", style=dashed" else "") ++ "];\n"

/-- The whole drawing. -/
def dot (ts : TypeSystem) : String :=
  dotHeader ++ String.join (ts.types.map CompiledType.dotNode) ++ "\n" ++
    String.join (ts.graph.edges.map fun e => ts.dotEdge e.1 e.2) ++ "\x7d\n"

end TypeSystem
end WireSchema
