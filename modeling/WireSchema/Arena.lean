import WireSchema.Declaration.Document
import WireSchema.Fault
import WireSchema.Settings
import WireSchema.TypeSystem.Body

/-!
# The arena in which types are compiled

Types refer to each other, forwards and in circles, so each gets its place before
its content is known.  A place is a `Slot`.  The slots of the declared types come
first, all of them before anything is compiled; a definition in place gets the
next slot when it is first met.

## One type for equal definitions

Definitions in place whose canonical forms have the same digest are one type.
The arena remembers the digests it has seen, and whether the definition was still
being compiled.

## Charging every owner

A definition in place may be part of several declared types, its *owners*.  It is
compiled for the first of them; its faults are kept in the slot and replayed for
every further owner, and so are those of the definitions it refers to.  The faults
of a compile are written, not thrown: a `Pass` returns them next to its value, and
they belong to the declared type for which it runs.
-/

namespace WireSchema

/-- The place of a type that is being compiled. -/
structure Slot where
  name : TypeName
  /-- The declared types whose declarations contain this one, in order. -/
  owners : List TypeName
  anonymous : Bool
  /-- The content; none if there was a fault in it. -/
  body : Option Body
  /-- The faults found while a definition in place was compiled. -/
  faults : List Fault
  deriving DecidableEq

/-- What is known about a definition in place. -/
inductive InlineState where
  | inProgress
  | finished (id : TypeId)
  deriving DecidableEq

/-- The slots so far, and the definitions in place met so far by digest. -/
structure Arena where
  slots : List Slot
  inlines : List (String × InlineState)

namespace Arena

/-- The slots of declared types, each its own owner and still without content. -/
def ofDeclared (names : List TypeName) : Arena :=
  ⟨names.map fun name => ⟨name, [name], false, none, []⟩, []⟩

/-- The slot at a position. -/
def slot? (a : Arena) (id : TypeId) : Option Slot :=
  a.slots[id]?

/-- The name of the type at a position. -/
def nameOf (a : Arena) (id : TypeId) : TypeName :=
  ((a.slot? id).map Slot.name).getD ""

/-- The content of the type at a position, if it has one. -/
def body? (a : Arena) (id : TypeId) : Option Body :=
  (a.slot? id).bind Slot.body

/-- The arena with one slot changed. -/
def modify (a : Arena) (id : TypeId) (f : Slot → Slot) : Arena :=
  { a with slots := a.slots.modify id f }

/-- Whether a type has the name.  A definition in place has none while it is being
compiled. -/
def isTaken (a : Arena) (name : TypeName) : Bool :=
  a.slots.any fun s => s.name = name

/-- What is known about the definition in place of a digest; the latest entry
counts. -/
def state? (a : Arena) (digest : String) : Option InlineState :=
  a.inlines.lookup digest

/-- A new slot at the end for a definition in place of a digest. -/
def reserve (a : Arena) (owner : TypeName) (digest : String) : Arena :=
  ⟨a.slots ++ [⟨"", [owner], true, none, []⟩], (digest, .inProgress) :: a.inlines⟩

/-- The slot of a definition in place filled in. -/
def fill (a : Arena) (id : TypeId) (digest : String) (name : TypeName) (body : Option Body)
    (faults : List Fault) : Arena :=
  let a := a.modify id fun s => { s with name, body, faults }
  { a with inlines := (digest, .finished id) :: a.inlines }

end Arena

/-! ## Passes -/

/-- A step of a compile on behalf of one declared type: it returns a value and the
faults it found, and leaves an arena behind. -/
def Pass (α : Type) : Type :=
  Arena → Checked α × Arena

namespace Pass

variable {α : Type}

instance : Monad Pass where
  pure x := fun a => (.ok x, a)
  bind p f := fun a =>
    let (first, a) := p a
    let (second, a) := f first.value a
    (second.after first.faults, a)

/-- A pass that only reports faults. -/
def report (faults : List Fault) : Pass Unit := fun a =>
  (⟨(), faults⟩, a)

/-- The result of a check that does not look at the arena, and its faults. -/
def check (checked : Checked α) : Pass α := fun a =>
  (checked, a)

/-- All or nothing: the value only if nothing was wrong. -/
def unlessFaulty (p : Pass (Option α)) : Pass (Option α) := fun a =>
  let (checked, a) := p a
  (⟨if checked.faults.isEmpty then checked.value else none, checked.faults⟩, a)

end Pass

/-! ## Sharing a definition in place -/

/-- A further owner for a definition in place and for those it refers to: the
faults of each are replayed, unless the owner has had them.  Every recursive call
follows an owner that has just been added to a slot, so the number of slots is
enough fuel. -/
def share (owner : TypeName) : (fuel : Nat) → TypeId → Pass Unit
  | 0, _ => pure ()
  | fuel + 1, id => fun a =>
    match a.slot? id with
    | none => (.ok (), a)
    | some slot =>
      if slot.anonymous = false ∨ owner ∈ slot.owners then (.ok (), a)
      else
        let children := (slot.body.map Body.references).getD []
        let replay : Pass Unit := do
          Pass.report slot.faults
          children.forM (share owner fuel)
        replay (a.modify id fun s => { s with owners := s.owners ++ [owner] })

/-! ## Names for definitions in place -/

/-- The first eight digits of a digest. -/
def shortDigest (digest : String) : String :=
  String.ofList (digest.toList.take 8)

/-- The name that a link, list or map gets from the names it refers to. -/
def structuralName? (nameOf : TypeId → TypeName) : Body → Option TypeName
  | .link none => some "Link__Any"
  | .link (some target) => some ("Link__" ++ nameOf target)
  | .list value valueNullable =>
      some ("List__" ++ (if valueNullable then "Nullable_" else "") ++ nameOf value)
  | .map key value valueNullable layout =>
      some ("Map__" ++ nameOf key ++ "__" ++ (if valueNullable then "Nullable_" else "") ++
        nameOf value ++
        (match layout with
          | .map => ""
          | .listPairs => "__ListPairs"
          | .stringPairs _ => "__StringPairs"))
  | _ => none

/-- A name with a number behind it. -/
def numbered (base short : String) (number : Int) : TypeName :=
  base ++ "__" ++ short ++ "_" ++ String.ofList (Decimal.intText number)

/-- What the counter stands at when the `k`-th name is tried.  It has 32 bits, so its
greatest value is followed by its least.  Names would come again when it has come
round, and a search that goes on so far has no end; here it counts without a bound
from then on, so that every definition gets a name. -/
def counterAt (k : Nat) : Int :=
  if k < Int32.size + 2 then (Int32.ofNat k).toInt else k

/-- The `k`-th name that is tried: the base, the base with the digest behind it,
and then with a counter as well, from two on. -/
def nameCandidate (base short : String) : Nat → TypeName
  | 0 => base
  | 1 => base ++ "__" ++ short
  | k + 2 => numbered base short (counterAt (k + 2))

/-- The first candidate from the `k`-th on that is not taken, looking at `fuel`
of them; one more than there are taken names is always enough. -/
def firstFree (isTaken : TypeName → Bool) (candidate : Nat → TypeName) :
    (fuel : Nat) → Nat → TypeName
  | 0, k => candidate k
  | fuel + 1, k =>
    if isTaken (candidate k) then firstFree isTaken candidate fuel (k + 1) else candidate k

/-- The name that a definition in place gets if no other type has it: that of its
structure, or else one of its sort and digest. -/
def Arena.baseName (a : Arena) (keyword : String) (body : Option Body) (digest : String) :
    TypeName :=
  (body.bind (structuralName? a.nameOf)).getD
    ("Anon" ++ capitalized keyword ++ "__" ++ shortDigest digest)

/-- The name of a definition in place, which no other type has. -/
def Arena.freeName (a : Arena) (keyword : String) (body : Option Body) (digest : String) :
    TypeName :=
  firstFree a.isTaken (nameCandidate (a.baseName keyword body digest) (shortDigest digest))
    a.slots.length 0

end WireSchema
