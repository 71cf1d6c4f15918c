import WireSchema.Proofs.Compiler.Declarations
import WireSchema.Proofs.Resolution.Recorded

/-!
# One list for the errors of a schema

`Recorded.compileSchema` is the compile of a schema that adds everything to one list, which it
measures and cuts at every level.  What stands in the list before is a frame
(`Recorded.declarations_eq`), so that it returns what the other compile does
(`Recorded.compileSchema_eq`).

The list grows from one declaration to the next.  `Recorded.afterDeclarations` is the session
behind some of them: what a declaration has added to the list is told by where the list ended
before and behind it (`Recorded.errors_afterDeclarations`).
-/

namespace WireSchema
namespace Recorded

/-- Declarations compiled into their slots, from the slot at `id` on. -/
def declarations (c : Compiler) (declared : List TypeName) :
    (id : TypeId) → List (TypeName × Definition) → Session → Session
  | _, [], s => s
  | id, (name, definition) :: rest, s =>
    let (body, s) := compile (c.scope declared name) 0 definition s
    let arena := s.arena.modify id fun slot => { slot with body }
    declarations c declared (id + 1) rest ⟨arena, s.errors⟩

/-- Everything that has been recorded when a schema is compiled. -/
def session (c : Compiler) (s : Schema) : Session :=
  let names := s.accepted.map Prod.fst
  let compiled := declarations c names 0 s.accepted ⟨Arena.ofDeclared names, s.duplicateErrors⟩
  ⟨compiled.arena, compiled.errors ++ CrossType.errors c.settings compiled.arena⟩

/-- What has been recorded when some declarations of a schema have been compiled. -/
def afterDeclarations (c : Compiler) (s : Schema) (count : Nat) : Session :=
  let names := s.accepted.map Prod.fst
  declarations c names 0 (s.accepted.take count) ⟨Arena.ofDeclared names, s.duplicateErrors⟩

/-- The type system of a schema, or why there is none. -/
def compileSchema (c : Compiler) (s : Schema) : Except CompileFailure TypeSystem :=
  match CompileErrors.ofList? (session c s).errors with
  | some errors => .error (.rejected errors)
  | none =>
    match Compiler.assemble (session c s).arena.slots with
    | .error name => .error (.uncompiled name)
    | .ok types => .ok ⟨types, s.fingerprint c.digest⟩

/-- What has been recorded before the declarations stays in front, and makes no difference. -/
theorem declarations_eq (c : Compiler) (declared : List TypeName) (id : TypeId)
    (ds : List (TypeName × Definition)) (a : Arena) (errors : List CompileError) :
    declarations c declared id ds ⟨a, errors⟩ =
      ⟨(c.declarations declared id ds a).2,
        errors ++ Compiler.declarationErrors (c.declarations declared id ds a).1⟩ := by
  induction ds generalizing id a errors with
  | nil => exact congrArg (Session.mk a) (List.append_nil errors).symm
  | cons e rest ih =>
    obtain ⟨name, d⟩ := e
    have hcompiled := compile_frames (c.scope declared name) 0 d a errors
    rw [declarations, hcompiled, Compiler.declarations_cons]
    simp only [ih, Compiler.declarationErrors, List.flatMap_cons, List.append_assoc]
    rfl

theorem session_eq (c : Compiler) (s : Schema) :
    session c s = ⟨(c.declarationPass s).2, c.errors s (c.declarationPass s)⟩ := by
  simp only [session, declarations_eq]
  rfl

/-- **A compile with one list for all errors** returns what the compile returns. -/
theorem compileSchema_eq (c : Compiler) (s : Schema) : compileSchema c s = c.compile s := by
  rw [compileSchema, session_eq]
  rfl

/-- The results of the first declarations are the first results. -/
theorem fst_declarations_take (c : Compiler) (declared : List TypeName) (id : TypeId)
    (ds : List (TypeName × Definition)) (a : Arena) (count : Nat) :
    (c.declarations declared id (ds.take count) a).1 =
      (c.declarations declared id ds a).1.take count := by
  induction ds generalizing id a count with
  | nil =>
    rw [List.take_nil]
    exact List.take_nil.symm
  | cons e rest ih =>
    obtain ⟨name, d⟩ := e
    cases count with
    | zero => rfl
    | succ count =>
      rw [List.take_succ_cons, Compiler.declarations_cons, Compiler.declarations_cons,
        List.take_succ_cons, ih]

/-- Behind some declarations the list holds the names that are declared again, and what is wrong
with each of these declarations. -/
theorem errors_afterDeclarations (c : Compiler) (s : Schema) (count : Nat) :
    (afterDeclarations c s count).errors =
      s.duplicateErrors ++ Compiler.declarationErrors ((c.declarationPass s).1.take count) := by
  rw [afterDeclarations, declarations_eq, fst_declarations_take]
  rfl

end Recorded
end WireSchema
