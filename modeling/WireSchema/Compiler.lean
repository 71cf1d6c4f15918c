import WireSchema.CrossType
import WireSchema.Digest.Sha256
import WireSchema.Resolution
import WireSchema.TypeSystem.Basic

/-!
# Compiling a schema

A compile never stops at a fault.  Names that are declared twice are reported
first and their later declarations ignored; then every declaration is compiled,
each on behalf of its own type; then the types are checked against each other.
If nothing was wrong the arena is the type system, and otherwise everything that
was wrong is returned, in this order.

The digest is a parameter of the compiler.  Definitions in place are one type when
their digests agree, so what a compile means depends on digests of different texts
being different, and statements about it have to be able to say so.
-/

namespace WireSchema

/-- A compiler: its settings, and the digest by which it recognises texts. -/
structure Compiler where
  settings : Settings
  digest : String → String

/-- Why a compile returns no type system. -/
inductive CompileFailure where
  /-- There were errors. -/
  | rejected (errors : CompileErrors)
  /-- A type was left without content although nothing was wrong. -/
  | uncompiled (name : TypeName)
  deriving DecidableEq

/-- The message of a failure. -/
def CompileFailure.message : CompileFailure → String
  | .rejected errors => errors.message
  | .uncompiled name => "type " ++ inQuotes name ++ " left uncompiled without a reported error"

namespace Schema

/-- The declarations whose names have not occurred before, in order. -/
def firstDeclarations (before : List TypeName) :
    List (TypeName × Definition) → List (TypeName × Definition)
  | [] => []
  | (name, definition) :: rest =>
    if name ∈ before then firstDeclarations before rest
    else (name, definition) :: firstDeclarations (name :: before) rest

/-- The declarations that count: the first one of each name. -/
def accepted (s : Schema) : List (TypeName × Definition) :=
  firstDeclarations [] s.types.toList

/-- The errors of names that have been declared before. -/
def duplicateErrors (s : Schema) : List CompileError :=
  (repeats s.types.keys).map .duplicateName

/-- The digest of a schema's text. -/
def fingerprint (digest : String → String) (s : Schema) : String :=
  digest s.text

end Schema

namespace Compiler

/-- A compiler with these settings and the usual digest. -/
def withSettings (settings : Settings) : Compiler :=
  ⟨settings, Sha256.hexOfText⟩

/-- The compiler with standard settings. -/
def standard : Compiler :=
  withSettings .standard

/-- What the declaration of a type is compiled against. -/
def scope (c : Compiler) (declared : List TypeName) (owner : TypeName) : Scope :=
  ⟨c.settings, c.digest, declared, owner⟩

/-- Declarations compiled into their slots, from the slot at `id` on: what is
wrong with each of them, and the arena after the last. -/
def declarations (c : Compiler) (declared : List TypeName) :
    (id : TypeId) → List (TypeName × Definition) → Arena → List (TypeName × List Fault) × Arena
  | _, [], a => ([], a)
  | id, (name, definition) :: rest, a =>
    let (checked, a) := (c.scope declared name).compile 0 definition a
    let (others, a) :=
      c.declarations declared (id + 1) rest (a.modify id fun s => { s with body := checked.value })
    ((name, checked.faults) :: others, a)

/-- The declaration pass: what is wrong with each declared type, and the arena
when all are compiled. -/
def declarationPass (c : Compiler) (s : Schema) : List (TypeName × List Fault) × Arena :=
  let names := s.accepted.map Prod.fst
  c.declarations names 0 s.accepted (Arena.ofDeclared names)

/-- The errors of the declaration pass. -/
def declarationErrors (results : List (TypeName × List Fault)) : List CompileError :=
  results.flatMap fun r => r.2.map (.charged r.1)

/-- Everything that is wrong with a schema, from what its declaration pass
returned. -/
def errors (c : Compiler) (s : Schema) (pass : List (TypeName × List Fault) × Arena) :
    List CompileError :=
  s.duplicateErrors ++ declarationErrors pass.1 ++ CrossType.errors c.settings pass.2

/-- The types of slots, if each has its content; otherwise the name of one that
has none. -/
def assemble : List Slot → Except TypeName (List CompiledType)
  | [] => .ok []
  | slot :: rest =>
    match slot.body with
    | none => .error slot.name
    | some body => do return ⟨slot.name, slot.anonymous, body⟩ :: (← assemble rest)

/-- The type system of a schema, or why there is none. -/
def compile (c : Compiler) (s : Schema) : Except CompileFailure TypeSystem :=
  let pass := c.declarationPass s
  match CompileErrors.ofList? (c.errors s pass) with
  | some errors => .error (.rejected errors)
  | none =>
    match assemble pass.2.slots with
    | .error name => .error (.uncompiled name)
    | .ok types => .ok ⟨types, s.fingerprint c.digest⟩

end Compiler
end WireSchema
