import WireSchema.Proofs.Graph.DotStatements
import WireSchema.Proofs.Graph.References

/-!
# A drawing shows the graph

The drawing of a type system is read as the fixed settings, a statement for each type and one for
each edge, in the order of the graph, and nothing else.  The writer puts labels of edges between
quotes with their quotes escaped, and names as they are, so this holds if the names and labels of
the type system can be written in that way (`TypeSystem.Drawable`), and only then: a name with a
quote in it, or a backslash at the end of a label, is enough to spoil the drawing
(`Compiler.readDrawing_quotedName`).

Main statement: `TypeSystem.drawing_shows_graph`.
-/

namespace WireSchema

/-! ## What is drawn -/

/-- The identifiers of the nodes that an edge joins. -/
def DotStatement.ends? : DotStatement → Option (String × String)
  | .edge source target _ => some (source, target)
  | _ => none

/-- What is said about all of the drawing, all nodes and all edges. -/
def dotSettings : List DotStatement :=
  [.setting "rankdir" "LR",
    .defaults "node"
      [("shape", "box"), ("style", "filled,rounded"), ("fontname", "Helvetica"),
        ("fontsize", "10")],
    .defaults "edge" [("fontname", "Helvetica"), ("fontsize", "8"), ("fontcolor", "#606060")]]

/-- The node of a type has its name for identifier. -/
def CompiledType.drawn (t : CompiledType) : DotStatement :=
  .node t.name
    ([("label", t.name ++ "\\n" ++ t.body.kind.name), ("fillcolor", t.body.kind.colour)] ++
      if t.anonymous then [("style", "filled,rounded,dashed")] else [])

namespace TypeSystem

/-- The edge of a dependency joins the names of two types and has the label of the dependency. -/
def drawn (ts : TypeSystem) (e : TypeId × Dependency) : DotStatement :=
  .edge (ts.nameOf e.1) (ts.nameOf e.2.target)
    (("label", e.2.label) :: if e.2.role = .link then [("style", "dashed")] else [])

/-- The statements that make up the drawing of a type system. -/
def drawing (ts : TypeSystem) : List DotStatement :=
  dotSettings ++ (ts.types.map CompiledType.drawn ++ ts.graph.edges.map ts.drawn)

/-- A type system whose names can be written as they are, and its labels with their quotes
escaped. -/
structure Drawable (ts : TypeSystem) : Prop where
  names : ∀ t ∈ ts.types, Verbatim t.name
  labels : ∀ e ∈ ts.graph.edges, backslashesPaired e.2.label.toList = true

end TypeSystem

/-! ## Nodes -/

namespace CompiledType

/-- The tokens of the statement of a node. -/
def clause (t : CompiledType) : List DotToken :=
  [.quoted t.name, .mark '[', .word "label", .mark '=',
    .quoted (t.name ++ "\\n" ++ t.body.kind.name), .mark ',', .word "fillcolor", .mark '=',
    .quoted t.body.kind.colour] ++
    if t.anonymous then [.mark ',', .word "style", .mark '=', .quoted "filled,rounded,dashed",
      .mark ']'] else [.mark ']']

theorem unmarked_clause (t : CompiledType) : Unmarked t.clause := by
  rw [Unmarked, clause]
  split <;> simp

theorem dotStatement_clause (t : CompiledType) : dotStatement t.clause = some t.drawn := by
  rw [clause, drawn]
  split <;> rfl

theorem toList_dotNode (t : CompiledType) :
    t.dotNode.toList = "  ".toList ++ (quotedChars t.name.toList ++ (" [label=".toList ++
      (quotedChars (t.name ++ "\\n" ++ t.body.kind.name).toList ++ (", fillcolor=".toList ++
        (quotedChars t.body.kind.colour.toList ++
          if t.anonymous then ", style=".toList ++ (quotedChars "filled,rounded,dashed".toList ++
            "];\n".toList) else "];\n".toList))))) := by
  unfold dotNode
  split <;> simp [quotedChars]

/-- The names and colours of kinds have neither quotes nor backslashes. -/
theorem verbatim_kind (k : TypeKind) : Verbatim k.name ∧ Verbatim k.colour := by
  cases k <;> exact ⟨⟨by decide, by decide⟩, by decide, by decide⟩

open DotMode

theorem reads_dotNode {t : CompiledType} (h : Verbatim t.name) :
    between.Reads t.dotNode.toList (t.clause ++ [.mark ';']) between := by
  have hkind := verbatim_kind t.body.kind
  have hlabel : Verbatim (t.name ++ "\\n" ++ t.body.kind.name) :=
    (h.append ⟨by decide, by decide⟩).append hkind.1
  have hindent : between.Reads "  ".toList [] between := rfl
  have hfirst : between.Reads " [label=".toList [.mark '[', .word "label", .mark '='] between := rfl
  have hsecond : between.Reads ", fillcolor=".toList [.mark ',', .word "fillcolor", .mark '=']
    between := rfl
  have hlast : between.Reads "];\n".toList [.mark ']', .mark ';'] between := rfl
  rw [toList_dotNode, clause, List.append_assoc]
  refine hindent.append ((reads_verbatim h).append (hfirst.append
    ((reads_verbatim hlabel).append (hsecond.append ((reads_verbatim hkind.2).append ?_)))))
  split
  · have hstyle : between.Reads ", style=".toList [.mark ',', .word "style", .mark '='] between :=
      rfl
    have hdashed : Verbatim "filled,rounded,dashed" := ⟨by decide, by decide⟩
    exact hstyle.append ((reads_verbatim hdashed).append hlast)
  · exact hlast

/-- **Nodes.**  The text of a node is read as its statement if the name is written as it is. -/
theorem readsAs_dotNode_iff (t : CompiledType) (rest : List Char)
    (statements : List DotStatement) :
    ReadsAs (t.dotNode.toList ++ rest) (t.drawn :: statements) ↔
      Verbatim t.name ∧ ReadsAs rest statements := by
  have hread : Verbatim t.name → (ReadsAs (t.dotNode.toList ++ rest) (t.drawn :: statements) ↔
      ReadsAs rest statements) := fun h =>
    readsAs_clause_iff (reads_dotNode h) t.unmarked_clause t.dotStatement_clause
  have hname : ReadsAs (t.dotNode.toList ++ rest) (t.drawn :: statements) → Verbatim t.name := by
    intro h
    rw [toList_dotNode, List.append_assoc, List.append_assoc] at h
    have hindent : between.Reads "  ".toList [] between := rfl
    obtain ⟨found, others, clause, htext, hstatement⟩ :=
      h.exists_quoted hindent (List.forall_mem_nil _)
    obtain rfl := eq_of_dotStatement_eq_node hstatement
    exact htext.verbatim
  exact ⟨fun h => ⟨hname h, (hread (hname h)).1 h⟩, fun h => (hread h.1).2 h.2⟩

end CompiledType

/-! ## Edges -/

namespace TypeSystem

open DotMode

variable {ts : TypeSystem} {e : TypeId × Dependency}

/-- The tokens of the statement of an edge. -/
def clause (ts : TypeSystem) (e : TypeId × Dependency) : List DotToken :=
  [.quoted (ts.nameOf e.1), .arrow, .quoted (ts.nameOf e.2.target), .mark '[', .word "label",
    .mark '=', .quoted e.2.label] ++
    if e.2.role = .link then [.mark ',', .word "style", .mark '=', .word "dashed", .mark ']']
    else [.mark ']']

theorem unmarked_clause (ts : TypeSystem) (e : TypeId × Dependency) : Unmarked (ts.clause e) := by
  rw [Unmarked, clause]
  split <;> simp

theorem dotStatement_clause (ts : TypeSystem) (e : TypeId × Dependency) :
    dotStatement (ts.clause e) = some (ts.drawn e) := by
  rw [clause, drawn]
  split <;> rfl

/-- An edge up to its label. -/
def edgeChars (ts : TypeSystem) (e : TypeId × Dependency) : List Char :=
  "  ".toList ++ (quotedChars (ts.nameOf e.1).toList ++ (" -> ".toList ++
    (quotedChars (ts.nameOf e.2.target).toList ++ " [label=".toList)))

theorem toList_dotEdge (ts : TypeSystem) (e : TypeId × Dependency) :
    (ts.dotEdge e.1 e.2).toList = ts.edgeChars e ++ (quotedChars (escapedChars e.2.label.toList) ++
      if e.2.role = .link then ", style=dashed];\n".toList else "];\n".toList) := by
  unfold dotEdge
  split <;> simp [edgeChars, quotedChars, escapeQuotes, escapedChars]

theorem reads_edgeChars (hsource : Verbatim (ts.nameOf e.1))
    (htarget : Verbatim (ts.nameOf e.2.target)) :
    between.Reads (ts.edgeChars e) [.quoted (ts.nameOf e.1), .arrow,
      .quoted (ts.nameOf e.2.target), .mark '[', .word "label", .mark '='] between := by
  have hindent : between.Reads "  ".toList [] between := rfl
  have harrow : between.Reads " -> ".toList [.arrow] between := rfl
  have hlabel : between.Reads " [label=".toList [.mark '[', .word "label", .mark '='] between := rfl
  exact hindent.append ((reads_verbatim hsource).append
    (harrow.append ((reads_verbatim htarget).append hlabel)))

theorem reads_dotEdge (hsource : Verbatim (ts.nameOf e.1))
    (htarget : Verbatim (ts.nameOf e.2.target))
    (hlabel : backslashesPaired e.2.label.toList = true) :
    between.Reads (ts.dotEdge e.1 e.2).toList (ts.clause e ++ [.mark ';']) between := by
  rw [toList_dotEdge, clause, List.append_assoc]
  refine (reads_edgeChars hsource htarget).append ((reads_escaped hlabel).append ?_)
  split <;> rfl

/-- **Edges.**  Between nodes whose names are written as they are, the text of an edge is read as
its statement if the backslashes of the label are paired. -/
theorem readsAs_dotEdge_iff (hsource : Verbatim (ts.nameOf e.1))
    (htarget : Verbatim (ts.nameOf e.2.target)) (rest : List Char)
    (statements : List DotStatement) :
    ReadsAs ((ts.dotEdge e.1 e.2).toList ++ rest) (ts.drawn e :: statements) ↔
      backslashesPaired e.2.label.toList = true ∧ ReadsAs rest statements := by
  have hread : backslashesPaired e.2.label.toList = true →
      (ReadsAs ((ts.dotEdge e.1 e.2).toList ++ rest) (ts.drawn e :: statements) ↔
        ReadsAs rest statements) := fun h =>
    readsAs_clause_iff (reads_dotEdge hsource htarget h) (ts.unmarked_clause e)
      (ts.dotStatement_clause e)
  have hlabel : ReadsAs ((ts.dotEdge e.1 e.2).toList ++ rest) (ts.drawn e :: statements) →
      backslashesPaired e.2.label.toList = true := by
    intro h
    rw [toList_dotEdge, List.append_assoc, List.append_assoc] at h
    obtain ⟨found, others, clause, htext, hstatement⟩ :=
      h.exists_quoted (reads_edgeChars hsource htarget) (by simp [Unmarked])
    obtain rfl := eq_of_dotStatement_eq_edge hstatement
    exact htext.backslashesPaired_of_escaped
  exact ⟨fun h => ⟨hlabel h, (hread (hlabel h)).1 h⟩, fun h => (hread h.1).2 h.2⟩

/-! ## The whole drawing -/

theorem verbatim_nameOf (h : ∀ t ∈ ts.types, Verbatim t.name) (id : TypeId) :
    Verbatim (ts.nameOf id) := by
  cases ht : ts.types[id]? with
  | none =>
    rw [nameOf, type?, ht]
    exact ⟨by decide, by decide⟩
  | some t =>
    rw [nameOf_eq ht]
    exact h t (List.mem_of_getElem? ht)

/-- The text behind the settings. -/
def bodyChars (ts : TypeSystem) : List Char :=
  (String.join (ts.types.map CompiledType.dotNode)).toList ++ ("\n".toList ++
    ((String.join (ts.graph.edges.map fun e => ts.dotEdge e.1 e.2)).toList ++ "\x7d\n".toList))

theorem readsAs_bodyChars_iff (ts : TypeSystem) :
    ReadsAs ts.bodyChars (ts.types.map CompiledType.drawn ++ ts.graph.edges.map ts.drawn) ↔
      ts.Drawable := by
  have hend : ReadsAs "\x7d\n".toList [] := ⟨[.mark '\x7d'], rfl, rfl⟩
  have hblank : between.Reads "\n".toList [] between := rfl
  have hedges : (∀ t ∈ ts.types, Verbatim t.name) →
      (ReadsAs ((String.join (ts.graph.edges.map fun e => ts.dotEdge e.1 e.2)).toList ++
        "\x7d\n".toList) (ts.graph.edges.map ts.drawn) ↔
          ∀ e ∈ ts.graph.edges, backslashesPaired e.2.label.toList = true) := by
    intro h
    have hstep := fun e (_ : e ∈ ts.graph.edges) =>
      readsAs_dotEdge_iff (verbatim_nameOf h e.1) (verbatim_nameOf h e.2.target)
    have hjoin := readsAs_join_iff hstep "\x7d\n".toList []
    rw [List.append_nil] at hjoin
    exact hjoin.trans (and_iff_left hend)
  rw [bodyChars, readsAs_join_iff fun t _ => t.readsAs_dotNode_iff, readsAs_blank_iff hblank]
  constructor
  · exact fun h => ⟨h.1, (hedges h.1).1 h.2⟩
  · exact fun h => ⟨h.names, (hedges h.names).2 h.labels⟩

/-- The text of the settings. -/
def settingsChars : List Char :=
  "  rankdir=LR;\n".toList ++ (
    "  node [shape=box, style=\"filled,rounded\", fontname=\"Helvetica\", fontsize=10];\n".toList ++
    "  edge [fontname=\"Helvetica\", fontsize=8, fontcolor=\"#606060\"];\n".toList)

theorem readsAs_settingsChars_iff (rest : List Char) (statements : List DotStatement) :
    ReadsAs (settingsChars ++ rest) (dotSettings ++ statements) ↔ ReadsAs rest statements := by
  have hdrawing : between.Reads "  rankdir=LR;\n".toList
      ([.word "rankdir", .mark '=', .word "LR"] ++ [.mark ';']) between := rfl
  have hnodes : between.Reads
      "  node [shape=box, style=\"filled,rounded\", fontname=\"Helvetica\", fontsize=10];\n".toList
      ([.word "node", .mark '[', .word "shape", .mark '=', .word "box", .mark ',',
        .word "style", .mark '=', .quoted "filled,rounded", .mark ',',
        .word "fontname", .mark '=', .quoted "Helvetica", .mark ',',
        .word "fontsize", .mark '=', .word "10", .mark ']'] ++ [.mark ';']) between := by
    unfold Reads
    decide +kernel
  have hedges : between.Reads
      "  edge [fontname=\"Helvetica\", fontsize=8, fontcolor=\"#606060\"];\n".toList
      ([.word "edge", .mark '[', .word "fontname", .mark '=', .quoted "Helvetica", .mark ',',
        .word "fontsize", .mark '=', .word "8", .mark ',',
        .word "fontcolor", .mark '=', .quoted "#606060", .mark ']'] ++ [.mark ';']) between := by
    unfold Reads
    decide +kernel
  unfold settingsChars
  simp only [List.append_assoc]
  exact (readsAs_clause_iff hdrawing (by simp [Unmarked]) rfl).trans
    ((readsAs_clause_iff hnodes (by simp [Unmarked]) rfl).trans
      (readsAs_clause_iff hedges (by simp [Unmarked]) rfl))

theorem toList_dot (ts : TypeSystem) :
    ts.dot.toList = "digraph TypeSystem \x7b\n".toList ++
      (settingsChars ++ ("\n".toList ++ ts.bodyChars)) := by
  unfold dot dotHeader settingsChars bodyChars
  simp only [String.toList_append, List.append_assoc]

/-- A drawing is read as it was meant where it can be. -/
theorem readDrawing_dot_iff (ts : TypeSystem) :
    readDrawing "TypeSystem" ts.dot = some ts.drawing ↔ ts.Drawable := by
  have hfirst : between.Reads "digraph TypeSystem \x7b\n".toList
      [.word "digraph", .word "TypeSystem", .mark '\x7b'] between := rfl
  have hblank : between.Reads "\n".toList [] between := rfl
  rw [readDrawing_eq_some_iff ts.toList_dot hfirst, drawing, readsAs_settingsChars_iff,
    readsAs_blank_iff hblank, readsAs_bodyChars_iff]

/-- The edges of a drawing are the references of the types, from name to name. -/
theorem filterMap_ends_drawing (ts : TypeSystem) :
    ts.drawing.filterMap DotStatement.ends? =
      ts.types.flatMap fun t => t.body.references.map fun id => (t.name, ts.nameOf id) := by
  have hsettings : dotSettings.filterMap DotStatement.ends? = [] := rfl
  have hnodes : (ts.types.map CompiledType.drawn).filterMap DotStatement.ends? = [] := by
    rw [List.filterMap_map, List.filterMap_eq_nil_iff]
    exact fun t _ => rfl
  have hedges : (ts.graph.edges.map ts.drawn).filterMap DotStatement.ends? =
      (ts.graph.edges.map fun e => (e.1, e.2.target)).map fun e =>
        (ts.nameOf e.1, ts.nameOf e.2) := by
    rw [List.filterMap_map, List.map_map, ← List.filterMap_eq_map]
    rfl
  have htypes : (ts.types.flatMap fun t => t.body.references.map fun id =>
      (t.name, ts.nameOf id)) = ts.types.zipIdx.flatMap fun t =>
        t.1.body.references.map fun id => (t.1.name, ts.nameOf id) := by
    conv_lhs => rw [← List.zipIdx_map_fst 0 ts.types, List.flatMap_map]
  rw [drawing, List.filterMap_append, List.filterMap_append, hsettings, hnodes, hedges,
    map_edges_graph, List.map_flatMap, htypes]
  refine List.flatMap_congr fun t ht => ?_
  rw [List.map_map, ← nameOf_eq (List.mem_zipIdx_iff_getElem?.1 ht)]
  rfl

/-- **The drawing shows the graph**, with an edge for each reference, exactly if its names can be
written as they are and its labels with their quotes escaped. -/
theorem drawing_shows_graph (ts : TypeSystem) :
    (readDrawing "TypeSystem" ts.dot = some ts.drawing ↔ ts.Drawable) ∧
      ts.drawing.filterMap DotStatement.ends? =
        ts.types.flatMap fun t => t.body.references.map fun id => (t.name, ts.nameOf id) :=
  ⟨ts.readDrawing_dot_iff, ts.filterMap_ends_drawing⟩

/-- A label with quotes and pairs of backslashes does no harm. -/
example : ∃ ts, Compiler.compile ⟨.standard, id⟩ ⟨⟨[("Name", .string),
    ("Saying", .struct [.mk "say \"x\\\\y\"" (.named "Name") false false] .standard)]⟩⟩ =
      .ok ts ∧ ts.Drawable :=
  ⟨_, rfl, by decide, by decide⟩

end TypeSystem

namespace Compiler

/-- A type with a quote in its name. -/
def quotedName : Schema :=
  ⟨⟨[("a\"b", .string)]⟩⟩

theorem readDrawing_quotedName :
    ∃ ts, compile ⟨.standard, id⟩ quotedName = .ok ts ∧
      readDrawing "TypeSystem" ts.dot ≠ some ts.drawing := by
  refine ⟨_, rfl, fun h => ?_⟩
  have hname := (TypeSystem.readDrawing_dot_iff _).1 h |>.names _ (List.mem_singleton_self _)
  exact hname.1 (by decide)

end Compiler
end WireSchema
