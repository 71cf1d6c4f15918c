import WireSchema.Proofs.Compiler.Rounds
import WireSchema.Proofs.Resolution.Repeated

/-!
# Unions with repeated keys are rejected

A declared union whose table has a key twice does not compile, and is among the types that the
errors are about.  Whether an error says that the key is repeated depends on the entries before
(`UnionRepresentation.Repeats`, `TableRow.Notices`): there has to be one of this key whose member
is one of the union and declared, and in a table of bytes both have to have a byte
(`Compiler.compile_repeated`).

An entry of something that is no member of the union is not taken.  So if the key of such an entry
is given again, this is not reported (`Compiler.compile_repeated_behindStranger`).
-/

namespace WireSchema
namespace Compiler

variable {c : Compiler} {s : Schema}

theorem faults_compile_union (scope : Scope) (depth : Nat) (members : List Reference)
    (representation : UnionRepresentation) (a : Arena) :
    (scope.compile depth (.union members representation) a).1.faults =
      (scope.union members representation).faults := by
  rw [Scope.compile]
  rfl

/-- What is wrong with a declared union is charged to it, whatever has been compiled before. -/
theorem charged_union_iff {name : TypeName} {members : List Reference}
    {representation : UnionRepresentation}
    (hunion : (name, .union members representation) ∈ s.accepted) {fault : Fault} :
    .charged name fault ∈ declarationErrors (c.declarationPass s).1 ↔
      fault ∈ ((c.scope (declared s) name).union members representation).faults := by
  let Q (e : TypeName × Definition) (faults : List Fault) : Prop :=
    ∀ members representation, e.2 = .union members representation →
      faults = ((c.scope (declared s) e.1).union members representation).faults
  have hrounds : List.Forall₂ (fun e r => r.1 = e.1 ∧ Q e r.2) s.accepted
      (c.declarationPass s).1 := by
    refine (declarationPass_rounds (I := fun _ _ => True) trivial (fun _ _ _ => trivial) ?_).2
    refine fun _ _ _ => ⟨trivial, fun members representation he => ?_⟩
    rw [he, faults_compile_union]
  obtain ⟨faults, hfaults, hfilter⟩ :=
    filter_declarationErrors (Q := Q) hrounds s.nodup_accepted hunion
  rw [← hfaults members representation rfl]
  have hmem : .charged name fault ∈ declarationErrors (c.declarationPass s).1 ↔
      .charged name fault ∈ (declarationErrors (c.declarationPass s).1).filter
        fun e => e.typeName = name := by
    rw [List.mem_filter]
    exact (and_iff_left (decide_eq_true rfl)).symm
  rw [hmem, hfilter, List.mem_map]
  exact ⟨fun ⟨_, hf, heq⟩ => (CompileError.charged.inj heq).2 ▸ hf, fun hf => ⟨fault, hf, rfl⟩⟩

/-- **A declared union with a repeated key is rejected.**  That the key is repeated is said if
it is noticed. -/
theorem compile_repeated {name : TypeName} {members : List Reference}
    {representation : UnionRepresentation}
    (hunion : (name, .union members representation) ∈ s.accepted) {fault : ConfigFault}
    (hrepeats : representation.Repeats fault) :
    ∃ es, c.compile s = .error (.rejected es) ∧ (∃ e ∈ es.toList, e.typeName = name) ∧
      (.charged name (.invalidConfig fault) ∈ es.toList ↔
        TableRow.Notices (fun m => .named m ∈ members ∧ m ∈ declared s) fault
          representation.rows) := by
  have hrow : fault ∈ representation.rows.map TableRow.repeated :=
    List.count_pos_iff.1 (Nat.lt_of_succ_lt hrepeats)
  obtain ⟨other, hother⟩ := List.exists_mem_of_ne_nil _
    ((c.scope (declared s) name).union_faults_ne_nil members hrepeats)
  have hcharged : .charged name other ∈ c.errors s (c.declarationPass s) := by
    rw [errors, List.mem_append, List.mem_append]
    exact Or.inl (Or.inr ((charged_union_iff hunion).2 hother))
  obtain ⟨es, hcompile, hmem⟩ := exists_rejected_iff.2 hcharged
  refine ⟨es, hcompile, ⟨_, hmem, rfl⟩, ?_⟩
  rw [← (c.compile_eq_rejected_iff s).1 hcompile, charged_mem_errors_iff, charged_union_iff hunion]
  · exact (c.scope (declared s) name).mem_faults_union_iff members hrow
  · intro f heq
    cases heq
    rcases UnionRepresentation.exists_of_mem_rows hrow with
      ⟨sort, key, rfl⟩ | ⟨kind, rfl⟩ | ⟨member, rfl⟩ <;> rfl

/-- A union of an integer and a text, in which the integer has a byte three times; the first one is
no byte. -/
def thirdByte : Schema :=
  ⟨⟨[("I", .int), ("T", .string), ("U", .union [.named "T", .named "I"]
    (.bytePrefix ⟨[("I", 256), ("I", 1), ("T", 2), ("I", 1)]⟩))]⟩⟩

theorem compile_repeated_thirdByte :
    ∃ members representation es, ("U", .union members representation) ∈ thirdByte.accepted ∧
      representation.Repeats (.repeatedByteMember "I") ∧
        compile ⟨.standard, id⟩ thirdByte = .error (.rejected es) ∧
          .charged "U" (.invalidConfig (.repeatedByteMember "I")) ∈ es.toList := by
  let table : Entries TypeName Int := ⟨[("I", 256), ("I", 1), ("T", 2), ("I", 1)]⟩
  have hunion : ("U", .union [.named "T", .named "I"] (.bytePrefix table)) ∈ thirdByte.accepted :=
    List.mem_cons_of_mem _ (List.mem_cons_of_mem _ (List.mem_singleton_self _))
  have hrepeats : (UnionRepresentation.bytePrefix table).Repeats (.repeatedByteMember "I") := by
    decide
  obtain ⟨es, hcompile, -, hiff⟩ := compile_repeated (c := ⟨.standard, id⟩) hunion hrepeats
  refine ⟨_, _, es, hunion, hrepeats, hcompile, hiff.2 ?_⟩
  exact ⟨byteRow ("I", 1), byteRow ("I", 1), by decide, ⟨rfl, rfl⟩, ⟨rfl, rfl⟩,
    List.mem_cons_of_mem _ (List.mem_singleton_self _), by decide⟩

/-- A union whose table gives a key to something that is no member, and then to a member. -/
def behindStranger : Schema :=
  ⟨⟨[("A", .int), ("C", .string),
    ("U", .union [.named "A"] (.keyed ⟨[("k", "C"), ("k", "A")]⟩))]⟩⟩

/-- A repetition is not always reported. -/
theorem compile_repeated_behindStranger :
    ¬ ∀ (c : Compiler) (s : Schema) (name : TypeName) (members : List Reference)
      (representation : UnionRepresentation) (fault : ConfigFault),
        (name, .union members representation) ∈ s.accepted → representation.Repeats fault →
          ∃ es, c.compile s = .error (.rejected es) ∧
            .charged name (.invalidConfig fault) ∈ es.toList := by
  intro hall
  let c : Compiler := ⟨.standard, id⟩
  have hunion : ("U", .union [.named "A"] (.keyed ⟨[("k", "C"), ("k", "A")]⟩)) ∈
      behindStranger.accepted :=
    List.mem_cons_of_mem _ (List.mem_cons_of_mem _ (List.mem_singleton_self _))
  obtain ⟨es, hcompile, hmem⟩ :=
    hall c behindStranger _ _ _ (.repeatedKey .wireKey "k") hunion (by decide)
  have herrors : c.errors behindStranger (c.declarationPass behindStranger) =
      [.charged "U" (.invalidConfig (.notMember "C"))] := rfl
  rw [← (c.compile_eq_rejected_iff _).1 hcompile, herrors] at hmem
  cases List.mem_singleton.1 hmem

end Compiler
end WireSchema
