import WireSchema.Proofs.Compiler.Blame
import WireSchema.Proofs.Compiler.Recorded

/-!
# Errors come in groups

The errors of a rejected schema stand in three groups, one behind the other: the names that
are declared again, what is wrong with each declaration, and what is wrong between types.
`Compiler.Grouped` says what is in them, and `Compiler.compile_grouped` that this is so.

The second group is divided once more, by declarations, and explains which types were left
without content: those whose part is not empty, and no others.  A definition in place may have
been compiled for an earlier declaration, and its faults are then told again for a later one;
they are charged to the later one all the same.  A part is what its declaration adds to the list
in a compile that records everything in one (`Recorded.afterDeclarations`), so nothing else is
recorded while a declaration is compiled.

Which declarations count is said by their positions here: a declaration is `Schema.leading`
if its name does not stand among those before it, and `Schema.redeclared` otherwise.
-/

namespace WireSchema

/-! ## First and further declarations -/

namespace Schema

/-- The declarations whose names are not among those before them. -/
def leading (s : Schema) : List (TypeName × Definition) :=
  (s.types.toList.zipIdx.filter fun e => e.1.1 ∉ s.types.keys.take e.2).map Prod.fst

/-- The names of the other declarations, once for each. -/
def redeclared (s : Schema) : List TypeName :=
  (s.types.keys.zipIdx.filter fun e => e.1 ∈ s.types.keys.take e.2).map Prod.fst

theorem repeatsAfter_eq_filter (done xs before : List TypeName)
    (hbefore : ∀ x, x ∈ before ↔ x ∈ done) :
    repeatsAfter before xs =
      ((xs.zipIdx done.length).filter fun e => e.1 ∈ (done ++ xs).take e.2).map Prod.fst := by
  induction xs generalizing done before with
  | nil => rfl
  | cons x xs ih =>
    have hsplit : done ++ x :: xs = (done ++ [x]) ++ xs := by simp
    have hlength : done.length + 1 = (done ++ [x]).length := by simp
    rw [repeatsAfter, List.zipIdx_cons, List.filter_cons, List.take_left]
    simp only [← hbefore, decide_eq_true_eq]
    rw [hsplit, hlength]
    split
    · next hx =>
      rw [List.map_cons, ih (done ++ [x]) before fun y => ?_]
      rw [List.mem_append, ← hbefore, List.mem_singleton]
      exact ⟨Or.inl, fun h => h.elim id fun h => h ▸ hx⟩
    · next hx =>
      rw [ih (done ++ [x]) (x :: before) fun y => ?_]
      rw [List.mem_append, ← hbefore, List.mem_singleton, List.mem_cons, or_comm]

theorem firstDeclarations_eq_filter (done ds : List (TypeName × Definition))
    (before : List TypeName) (hbefore : ∀ x, x ∈ before ↔ x ∈ done.map Prod.fst) :
    firstDeclarations before ds =
      ((ds.zipIdx done.length).filter fun e =>
        e.1.1 ∉ ((done ++ ds).map Prod.fst).take e.2).map Prod.fst := by
  induction ds generalizing done before with
  | nil => rfl
  | cons e rest ih =>
    obtain ⟨name, d⟩ := e
    have hsplit : done ++ (name, d) :: rest = (done ++ [(name, d)]) ++ rest := by simp
    have hlength : done.length + 1 = (done ++ [(name, d)]).length := by simp
    have htake : ((done ++ (name, d) :: rest).map Prod.fst).take done.length =
        done.map Prod.fst := by
      rw [← List.map_take, List.take_left]
    rw [firstDeclarations, List.zipIdx_cons, List.filter_cons, htake]
    simp only [← hbefore, decide_eq_true_eq]
    rw [hsplit, hlength]
    split
    · next hname =>
      rw [ih (done ++ [(name, d)]) before fun y => ?_]
      rw [List.map_append, List.mem_append, ← hbefore, List.map_singleton, List.mem_singleton]
      exact ⟨Or.inl, fun h => h.elim id fun h => h ▸ hname⟩
    · next hname =>
      rw [List.map_cons, ih (done ++ [(name, d)]) (name :: before) fun y => ?_]
      rw [List.map_append, List.mem_append, ← hbefore, List.map_singleton, List.mem_singleton,
        List.mem_cons, or_comm]

variable (s : Schema)

/-- The declarations that count are the leading ones. -/
theorem accepted_eq_leading : s.accepted = s.leading :=
  firstDeclarations_eq_filter [] s.types.toList [] fun _ => Iff.rfl

/-- The others are reported, each once. -/
theorem duplicateErrors_eq_redeclared :
    s.duplicateErrors = s.redeclared.map .duplicateName :=
  congrArg _ (repeatsAfter_eq_filter [] s.types.keys [] fun _ => Iff.rfl)

theorem redeclared_subset : s.redeclared ⊆ s.types.keys := by
  intro name hname
  obtain ⟨e, he, rfl⟩ := List.mem_map.1 hname
  exact List.fst_mem_of_mem_zipIdx (List.mem_filter.1 he).1

theorem declared_subset : Compiler.declared s ⊆ s.types.keys := by
  intro name hname
  obtain ⟨e, he, rfl⟩ := List.mem_map.1 hname
  exact List.mem_map_of_mem (mem_firstDeclarations e he).1

end Schema

/-! ## Owners -/

/-- Whether all types are owned by types of these names. -/
def Arena.OwnedBy (names : List TypeName) (a : Arena) : Prop :=
  ∀ (id : Nat) (slot : Slot), a.slot? id = some slot → slot.owners ⊆ names

theorem Arena.ofDeclared_owners {names : List TypeName} {id : Nat} {slot : Slot}
    (h : (Arena.ofDeclared names).slot? id = some slot) : ∃ name ∈ names, slot.owners = [name] := by
  rw [slot?, Arena.ofDeclared, List.getElem?_map] at h
  obtain ⟨name, hname, rfl⟩ := Option.map_eq_some_iff.1 h
  exact ⟨name, List.mem_of_getElem? hname, rfl⟩

namespace Compiler

variable {c : Compiler} {s : Schema}

theorem declarationPass_ownedBy : (c.declarationPass s).2.OwnedBy (declared s) := by
  refine declarations_forall_slot (P := fun slot => slot.owners ⊆ declared s) ?_ ?_
    (fun _ _ h => h) (List.Subset.refl _) 0 fun id slot hslot => ?_
  · intro owner t howner ht
    rw [ht]
    exact List.cons_subset.2 ⟨howner, List.nil_subset _⟩
  · intro owner t u howner hgains ht p hp
    rcases hgains.of_mem_owners hp with hp | rfl
    · exact ht hp
    · exact howner
  · obtain ⟨name, hname, howners⟩ := Arena.ofDeclared_owners hslot
    rw [howners]
    exact List.cons_subset.2 ⟨hname, List.nil_subset _⟩

/-- Every type has an owner. -/
theorem exists_owner {id : Nat} {slot : Slot}
    (hslot : (c.declarationPass s).2.slot? id = some slot) : ∃ owner, owner ∈ slot.owners := by
  refine declarations_forall_slot (P := fun slot => ∃ owner, owner ∈ slot.owners) ?_ ?_
    (fun _ _ h => h) (List.Subset.refl _) 0 (fun id slot hslot => ?_) id slot hslot
  · exact fun owner t _ ht => ⟨owner, ht ▸ List.mem_singleton_self owner⟩
  · exact fun _ _ _ _ hgains ⟨owner, howner⟩ => ⟨owner, hgains.mem_owners howner⟩
  · obtain ⟨name, -, howners⟩ := Arena.ofDeclared_owners hslot
    exact ⟨name, howners ▸ List.mem_singleton_self name⟩

/-! ## The groups -/

/-- Every error is about a name that is declared. -/
theorem typeName_mem_keys {e : CompileError} (he : e ∈ c.errors s (c.declarationPass s)) :
    e.typeName ∈ s.types.keys := by
  rw [errors, List.mem_append, List.mem_append] at he
  rcases he with (he | he) | he
  · rw [s.duplicateErrors_eq_redeclared] at he
    obtain ⟨name, hname, rfl⟩ := List.mem_map.1 he
    exact s.redeclared_subset hname
  · obtain ⟨faults, hmem, -⟩ := exists_mem_declarationErrors_iff.1 ⟨e, he, rfl⟩
    have hname : e.typeName ∈ (c.declarationPass s).1.map Prod.fst := List.mem_map_of_mem hmem
    rw [declarationPass, map_fst_declarations] at hname
    exact s.declared_subset hname
  · obtain ⟨slot, hslot, owner, howner, fault, -, rfl⟩ := exists_of_mem_crossErrors he
    obtain ⟨id, hid⟩ := List.getElem?_of_mem hslot
    exact s.declared_subset (declarationPass_ownedBy id slot hid howner)

/-- What becomes of the declaration at a position: it has faults and no content, or no faults
and a content. -/
theorem exists_result {i : Nat} {e : TypeName × Definition} (he : s.accepted[i]? = some e) :
    ∃ faults slot, (c.declarationPass s).1[i]? = some (e.1, faults) ∧
      (c.declarationPass s).2.slot? i = some slot ∧ slot.name = e.1 ∧
        (slot.body = none ↔ faults ≠ []) := by
  obtain ⟨hvalid, hdeclares⟩ := c.declarationPass_links s
  have hnames : (c.declarationPass s).1.map Prod.fst = declared s :=
    map_fst_declarations (declared s) s.accepted 0 (Arena.ofDeclared (declared s))
  have hname : (declared s)[i]? = some e.1 := by
    rw [declared, List.getElem?_map, he]
    rfl
  have hposition : (declared s).idxOf e.1 = i := by
    obtain ⟨hlt, hget⟩ := List.getElem?_eq_some_iff.1 hname
    rw [← hget, s.nodup_accepted.idxOf_getElem]
  obtain ⟨faults, slot, hmem, hslot, hcontent⟩ := hdeclares e (List.mem_of_getElem? he)
  rw [hposition] at hslot
  obtain ⟨slot', hslot', hslotName, -, -⟩ := hvalid.declaredSlots i e.1 hname
  obtain rfl := Option.some.inj (hslot.symm.trans hslot')
  refine ⟨faults, slot, ?_, hslot, hslotName, ?_⟩
  · rw [← hnames, List.getElem?_map] at hname
    obtain ⟨r, hr, hrname⟩ := Option.map_eq_some_iff.1 hname
    have hnodup : ((c.declarationPass s).1.map Prod.fst).Nodup := hnames ▸ s.nodup_accepted
    rw [hr, List.inj_on_of_nodup_map hnodup (List.mem_of_getElem? hr) hmem hrname]
  · rcases hcontent with ⟨hne, hnone⟩ | ⟨hnil, b, hb, -⟩
    · exact iff_of_true hnone hne
    · refine iff_of_false ?_ fun hne => hne hnil
      rw [hb]
      exact Option.some_ne_none b

/-- Errors in their groups: names that are declared again, what is wrong with each
declaration, what is wrong between types. -/
structure Grouped (c : Compiler) (s : Schema) (es : List CompileError)
    (groups : List (List CompileError)) (others : List CompileError) : Prop where
  /-- The groups stand one behind the other, the first with one error for every declaration of
  a name that had been declared, in the order of the document. -/
  errors : es = s.redeclared.map .duplicateName ++ groups.flatten ++ others
  /-- There is one part for every first declaration of a name, in their order, and what is in
  it is charged to that name. -/
  charged : List.Forall₂ (fun e group => ∀ x ∈ group, ∃ fault, x = .charged e.1 fault)
    s.leading groups
  /-- In a compile with one list for all errors, the declarations add their parts, one after
  the other. -/
  recorded : ∀ count, (Recorded.afterDeclarations c s count).errors =
    s.redeclared.map .duplicateName ++ (groups.take count).flatten
  /-- A declared type is left without content if and only if its part is not empty. -/
  explained : ∀ (i : Nat) e group, s.leading[i]? = some e → groups[i]? = some group →
    ∃ slot, (c.declarationPass s).2.slot? i = some slot ∧ slot.name = e.1 ∧
      (slot.body = none ↔ group ≠ [])
  /-- Between types only representations are wrong. -/
  cross : ∀ x ∈ others, ∃ owner fault, x = .charged owner (.invalidConfig fault)
  /-- Every error is about a name that is declared. -/
  declared : ∀ x ∈ es, x.typeName ∈ s.types.keys

/-- **The errors of a rejected schema are grouped, and every declaration without content
explains itself.**  A compile with one list for all errors returns the same. -/
theorem compile_grouped {es : CompileErrors} (h : c.compile s = .error (.rejected es)) :
    Recorded.compileSchema c s = .error (.rejected es) ∧
      ∃ groups others, c.Grouped s es.toList groups others := by
  refine ⟨(Recorded.compileSchema_eq c s).trans h, ?_⟩
  rw [compile_eq_rejected_iff] at h
  let group (r : TypeName × List Fault) : List CompileError := r.2.map (.charged r.1)
  refine ⟨(c.declarationPass s).1.map group, CrossType.errors c.settings (c.declarationPass s).2,
    ?errors, ?charged, ?recorded, ?explained, fun x hx => ?cross, fun x hx => ?declared⟩
  case errors =>
    rw [← h, Compiler.errors, s.duplicateErrors_eq_redeclared, declarationErrors,
      List.flatMap_def]
  case charged =>
    rw [← s.accepted_eq_leading, List.forall₂_iff_get]
    have hlength : s.accepted.length = (c.declarationPass s).1.length := by
      have hnames := congrArg List.length (map_fst_declarations (c := c) (declared s) s.accepted 0
        (Arena.ofDeclared (declared s)))
      rw [List.length_map, List.length_map] at hnames
      exact hnames.symm
    refine ⟨by rw [List.length_map, hlength], fun i hi hi' x hx => ?_⟩
    obtain ⟨faults, -, hresult, -⟩ := exists_result (c := c) (List.getElem?_eq_getElem hi)
    rw [List.get_eq_getElem, List.getElem_map, (List.getElem?_eq_some_iff.1 hresult).2] at hx
    obtain ⟨fault, -, rfl⟩ := List.mem_map.1 hx
    exact ⟨fault, rfl⟩
  case recorded =>
    intro count
    rw [Recorded.errors_afterDeclarations, s.duplicateErrors_eq_redeclared, declarationErrors,
      List.flatMap_def, List.map_take]
  case explained =>
    intro i e part he hpart
    rw [← s.accepted_eq_leading] at he
    obtain ⟨faults, slot, hresult, hslot, hname, hbody⟩ := exists_result (c := c) he
    rw [List.getElem?_map, hresult] at hpart
    obtain rfl := Option.some.inj hpart
    refine ⟨slot, hslot, hname, hbody.trans (not_congr ?_)⟩
    exact List.map_eq_nil_iff.symm
  case cross =>
    obtain ⟨-, -, owner, -, fault, -, rfl⟩ := exists_of_mem_crossErrors hx
    exact ⟨owner, fault, rfl⟩
  case declared =>
    rw [← h] at hx
    exact typeName_mem_keys hx

/-- A name that is declared again, a fault that two declarations share, and a map whose keys
are no texts. -/
def sundry : Schema :=
  ⟨⟨[("A", .list (.inline (.copy "X")) false), ("K", .list (.named "K") false), ("A", .bool),
    ("B", .link (some (.inline (.copy "X")))), ("M", .map (.named "K") (.named "A") false .map)]⟩⟩

theorem compile_grouped_sundry :
    ∃ es, compile ⟨.standard, id⟩ sundry = .error (.rejected es) ∧
      es.toList.map CompileError.typeName = ["A", "A", "B", "M"] ∧
        Recorded.compileSchema ⟨.standard, id⟩ sundry = .error (.rejected es) ∧
          ∃ groups others, Grouped ⟨.standard, id⟩ sundry es.toList groups others := by
  obtain ⟨es, hcompile, hnames⟩ : ∃ es, compile ⟨.standard, id⟩ sundry = .error (.rejected es) ∧
      es.toList.map CompileError.typeName = ["A", "A", "B", "M"] := ⟨_, rfl, rfl⟩
  exact ⟨es, hcompile, hnames, compile_grouped hcompile⟩

end Compiler
end WireSchema
