import WireSchema.Proofs.Graph.DotTokens

/-!
# Reading the language of drawings: statements

`readDrawing` reads a text in the language of drawings, as far as the drawings of type systems use
it: statements that end in a semicolon, about the drawing, about all nodes or edges, about one node
or about one edge.  Identifiers of nodes are quoted, and what stands between quotes is what
`DotTokens` makes of it.

`ReadsAs` says what is left of a drawing behind some statement, so that a drawing can be read
statement by statement (`readsAs_clause_iff`, `readsAs_join_iff`).  These are equivalences: a
statement that is read wrong cannot be made up for by what comes later, since its first identifier
and its first attribute are fixed by what has been read up to them (`ReadsAs.exists_quoted`).
-/

namespace WireSchema

/-! ## Statements -/

/-- A statement of a drawing. -/
inductive DotStatement where
  | setting (key value : String)
  /-- What holds of all nodes, or of all edges. -/
  | defaults (sort : String) (attributes : List (String × String))
  | node (id : String) (attributes : List (String × String))
  | edge (source target : String) (attributes : List (String × String))
  deriving DecidableEq

/-- The value that a token stands for. -/
def DotToken.value? : DotToken → Option String
  | .quoted text => some text
  | .word text => some text
  | _ => none

/-- The attributes behind an opening bracket, up to the closing one. -/
def dotAttributes : List DotToken → Option (List (String × String))
  | [.word key, .mark '=', value, .mark ']'] => do return [(key, ← value.value?)]
  | .word key :: .mark '=' :: value :: .mark ',' :: rest => do
    return (key, ← value.value?) :: (← dotAttributes rest)
  | _ => none

/-- The statement in front of a semicolon. -/
def dotStatement : List DotToken → Option DotStatement
  | [.word key, .mark '=', value] => do return .setting key (← value.value?)
  | .word sort :: .mark '[' :: rest => do return .defaults sort (← dotAttributes rest)
  | .quoted id :: .mark '[' :: rest => do return .node id (← dotAttributes rest)
  | .quoted source :: .arrow :: .quoted target :: .mark '[' :: rest => do
    return .edge source target (← dotAttributes rest)
  | _ => none

/-- Statements up to the brace that ends the text.  `clause` is what came since the last
semicolon. -/
def dotStatements (clause : List DotToken) : List DotToken → Option (List DotStatement)
  | [] => none
  | .mark '\x7d' :: rest => if clause = [] ∧ rest = [] then some [] else none
  | .mark ';' :: rest => do return (← dotStatement clause) :: (← dotStatements [] rest)
  | token :: rest => dotStatements (clause ++ [token]) rest

/-- The statements of a text that is one drawing of this name. -/
def readDrawing (name text : String) : Option (List DotStatement) := do
  match ← dotTokens text with
  | .word "digraph" :: .word found :: .mark '\x7b' :: rest =>
    if found = name then dotStatements [] rest else none
  | _ => none

section

variable {before clause tokens : List DotToken} {statement : DotStatement}
  {statements : List DotStatement}

/-- Tokens that end neither a statement nor the drawing. -/
def Unmarked (clause : List DotToken) : Prop :=
  ∀ token ∈ clause, token ≠ .mark '\x7d' ∧ token ≠ .mark ';'

theorem dotStatements_append (hclause : Unmarked clause) (before rest : List DotToken) :
    dotStatements before (clause ++ rest) = dotStatements (before ++ clause) rest := by
  induction clause generalizing before with
  | nil => rw [List.nil_append, List.append_nil]
  | cons token clause ih =>
    rw [Unmarked, List.forall_mem_cons] at hclause
    rw [List.cons_append, dotStatements, ih hclause.2, List.append_assoc, List.singleton_append]
    · exact hclause.1.1
    · exact hclause.1.2

/-- A first statement begins with the tokens that were there before. -/
theorem exists_of_dotStatements_eq_cons
    (h : dotStatements before tokens = some (statement :: statements)) :
    ∃ clause, dotStatement (before ++ clause) = some statement := by
  fun_induction dotStatements before tokens with
  | case1 => cases h
  | case2 => cases h
  | case3 => cases h
  | case4 before rest ih =>
    simp only [Option.bind_eq_bind, Option.bind_eq_some_iff, Option.pure_def, Option.some.injEq,
      List.cons.injEq] at h
    obtain ⟨first, hfirst, others, -, rfl, -⟩ := h
    exact ⟨[], (List.append_nil before).symm ▸ hfirst⟩
  | case5 before token rest _ _ ih =>
    obtain ⟨clause, hclause⟩ := ih h
    rw [List.append_assoc] at hclause
    exact ⟨_, hclause⟩

end

/-- The first identifier in a statement about a node is the node's. -/
theorem eq_of_dotStatement_eq_node {found id : String} {clause : List DotToken}
    {attributes : List (String × String)}
    (h : dotStatement (.quoted found :: clause) = some (.node id attributes)) : found = id := by
  unfold dotStatement at h
  split at h <;> simp_all [Option.bind_eq_some_iff]

/-- The text behind the name of a first attribute is its value. -/
theorem eq_of_dotAttributes_eq_cons {key found key' value : String} {rest : List DotToken}
    {attributes : List (String × String)}
    (h : dotAttributes (.word key :: .mark '=' :: .quoted found :: rest) =
      some ((key', value) :: attributes)) : found = value := by
  unfold dotAttributes at h
  split at h <;>
    simp only [Option.bind_eq_bind, Option.bind_eq_some_iff, Option.pure_def, Option.some.injEq,
      List.cons.injEq, Prod.mk.injEq, reduceCtorEq] at h
  next heq =>
    cases heq
    obtain ⟨_, hfound, ⟨-, rfl⟩, -⟩ := h
    exact Option.some.inj hfound
  next heq =>
    cases heq
    obtain ⟨_, hfound, _, -, ⟨-, rfl⟩, -⟩ := h
    exact Option.some.inj hfound

/-- The text behind the name of the first attribute of an edge is its value. -/
theorem eq_of_dotStatement_eq_edge {source target source' target' key found key' value : String}
    {clause : List DotToken} {attributes : List (String × String)}
    (h : dotStatement (.quoted source :: .arrow :: .quoted target :: .mark '[' ::
      .word key :: .mark '=' :: .quoted found :: clause) =
        some (.edge source' target' ((key', value) :: attributes))) : found = value := by
  simp only [dotStatement, Option.bind_eq_bind, Option.bind_eq_some_iff, Option.pure_def,
    Option.some.injEq, DotStatement.edge.injEq] at h
  obtain ⟨_, hattributes, -, -, rfl⟩ := h
  exact eq_of_dotAttributes_eq_cons hattributes

/-! ## Reading on -/

section

open DotMode

variable {piece rest : List Char} {clause known : List DotToken} {statement : DotStatement}
  {statements : List DotStatement}

/-- What is left of a drawing is read as these statements. -/
def ReadsAs (rest : List Char) (statements : List DotStatement) : Prop :=
  ∃ tokens, between.Reads rest tokens between ∧ dotStatements [] tokens = some statements

theorem dotTokens_eq_some_iff {text : String} {tokens : List DotToken} :
    dotTokens text = some tokens ↔ between.Reads text.toList tokens between := by
  rw [dotTokens, Reads]
  split
  next h => rw [h]; simp
  next h =>
    refine ⟨fun hsome => ?_, fun hread => (h tokens hread).elim⟩
    cases hsome

/-- Behind its first line a drawing is read statement by statement. -/
theorem readDrawing_eq_some_iff {name text : String} (htext : text.toList = piece ++ rest)
    (hpiece : between.Reads piece [.word "digraph", .word name, .mark '\x7b'] between) :
    readDrawing name text = some statements ↔ ReadsAs rest statements := by
  have htokens : ∀ {tokens}, dotTokens text = some tokens ↔ ∃ others,
      between.Reads rest others between ∧
        tokens = .word "digraph" :: .word name :: .mark '\x7b' :: others := by
    intro tokens
    rw [dotTokens_eq_some_iff, htext]
    constructor
    · intro h
      obtain ⟨first, next, others, hfirst, hothers, rfl⟩ := reads_append_iff.1 h
      obtain ⟨rfl, rfl⟩ := hfirst.unique hpiece
      exact ⟨others, hothers, rfl⟩
    · rintro ⟨others, hothers, rfl⟩
      exact hpiece.append hothers
  constructor
  · intro h
    obtain ⟨tokens, hdot, hstatements⟩ := Option.bind_eq_some_iff.1 h
    obtain ⟨others, hothers, rfl⟩ := htokens.1 hdot
    exact ⟨others, hothers, (if_pos rfl).symm.trans hstatements⟩
  · rintro ⟨others, hothers, hstatements⟩
    rw [readDrawing, htokens.2 ⟨others, hothers, rfl⟩]
    exact (if_pos rfl).trans hstatements

theorem readsAs_append_iff (hpiece : between.Reads piece known between) :
    ReadsAs (piece ++ rest) statements ↔ ∃ others,
      between.Reads rest others between ∧ dotStatements [] (known ++ others) = some statements := by
  constructor
  · rintro ⟨tokens, hread, hstatements⟩
    obtain ⟨first, next, others, hfirst, hothers, rfl⟩ := reads_append_iff.1 hread
    obtain ⟨rfl, rfl⟩ := hfirst.unique hpiece
    exact ⟨others, hothers, hstatements⟩
  · rintro ⟨others, hothers, hstatements⟩
    exact ⟨known ++ others, hpiece.append hothers, hstatements⟩

theorem readsAs_blank_iff (hpiece : between.Reads piece [] between) :
    ReadsAs (piece ++ rest) statements ↔ ReadsAs rest statements :=
  readsAs_append_iff hpiece

/-- A piece of text that is read as a statement. -/
theorem readsAs_clause_iff (hpiece : between.Reads piece (clause ++ [.mark ';']) between)
    (hclause : Unmarked clause) (hread : dotStatement clause = some statement) :
    ReadsAs (piece ++ rest) (statement :: statements) ↔ ReadsAs rest statements := by
  have hnext : ∀ others, dotStatements [] (clause ++ [.mark ';'] ++ others) =
      (dotStatements [] others).map (statement :: ·) := by
    intro others
    rw [List.append_assoc, dotStatements_append hclause, List.nil_append, List.singleton_append,
      dotStatements, hread]
    cases dotStatements [] others <;> rfl
  rw [readsAs_append_iff hpiece]
  simp only [hnext, Option.map_eq_some_iff, List.cons.injEq, true_and, exists_eq_right, ReadsAs]

/-- A quoted text is read inside of a statement. -/
theorem ReadsAs.exists_quoted {inside : List Char} (hpiece : between.Reads piece known between)
    (hknown : Unmarked known)
    (h : ReadsAs (piece ++ (quotedChars inside ++ rest)) (statement :: statements)) :
    ∃ found others clause, between.Reads (quotedChars inside ++ rest) (.quoted found :: others)
      between ∧ dotStatement (known ++ .quoted found :: clause) = some statement := by
  obtain ⟨tokens, hread, hstatements⟩ := (readsAs_append_iff hpiece).1 h
  have hopen : between.Reads ['"'] [] (quoted []) := rfl
  have hinside : (quoted []).Reads (inside ++ ['"'] ++ rest) tokens between :=
    Reads.of_append hread hopen
  obtain ⟨found, others, rfl, -⟩ := hinside.exists_quoted (.inl rfl)
  rw [dotStatements_append hknown, ← List.singleton_append,
    dotStatements_append (List.forall_mem_singleton.2 ⟨by simp, by simp⟩)] at hstatements
  obtain ⟨clause, hclause⟩ := exists_of_dotStatements_eq_cons hstatements
  rw [List.nil_append, List.append_assoc] at hclause
  exact ⟨found, others, clause, hread, hclause⟩

/-- Pieces of text that are read as statements, each under a condition. -/
theorem readsAs_join_iff {α : Type} {text : α → String} {shown : α → DotStatement}
    {P : α → Prop} {xs : List α}
    (hstep : ∀ x ∈ xs, ∀ rest statements,
      ReadsAs ((text x).toList ++ rest) (shown x :: statements) ↔ P x ∧ ReadsAs rest statements)
    (rest : List Char) (statements : List DotStatement) :
    ReadsAs ((String.join (xs.map text)).toList ++ rest) (xs.map shown ++ statements) ↔
      (∀ x ∈ xs, P x) ∧ ReadsAs rest statements := by
  rw [String.toList_join]
  induction xs with
  | nil => simp
  | cons x xs ih =>
    rw [List.forall_mem_cons] at hstep
    rw [List.map_cons, List.flatMap_cons, List.append_assoc, List.map_cons, List.cons_append,
      hstep.1, ih hstep.2, List.forall_mem_cons, and_assoc]

end

end WireSchema
