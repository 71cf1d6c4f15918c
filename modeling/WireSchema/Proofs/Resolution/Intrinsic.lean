import WireSchema.Proofs.Resolution.LocalFault

/-!
# Faults from around a definition

Two faults say nothing of the definition in place with which they are reported: that it is
too deep, and that it was met inside itself.  They come from what is around it.  All others
are intrinsic, and only intrinsic faults are a definition's own (`Scope.intrinsic_ownFaults`).
-/

namespace WireSchema

/-- Whether a fault is one of a definition, and not of where it stands. -/
def Fault.Intrinsic : Fault → Prop
  | .unsupportedForm (.containsItself _) => False
  | .unsupportedForm (.tooDeep _) => False
  | _ => True

/-- Whether all faults of a list are intrinsic. -/
def Intrinsic (faults : List Fault) : Prop :=
  ∀ f ∈ faults, f.Intrinsic

namespace Intrinsic

variable {faults faults' : List Fault}

theorem nil : Intrinsic [] :=
  fun _ hf => by cases hf

theorem append (h : Intrinsic faults) (h' : Intrinsic faults') : Intrinsic (faults ++ faults') :=
  fun f hf => (List.mem_append.1 hf).elim (h f) (h' f)

/-- Mistakes in representations are intrinsic. -/
theorem config (fs : List ConfigFault) : Intrinsic (fs.map .invalidConfig) := by
  intro f hf
  obtain ⟨g, -, rfl⟩ := List.mem_map.1 hf
  exact trivial

theorem config_of (p : Prop) [Decidable p] (f : ConfigFault) :
    Intrinsic (if p then [.invalidConfig f] else []) := by
  split
  · exact config [f]
  · exact nil

theorem unresolved (declared : List TypeName) (name : TypeName) :
    Intrinsic [unresolvedFault declared name] := by
  intro f hf
  rw [List.mem_singleton.1 hf]
  exact trivial

/-! ## Unions -/

theorem find (names : MemberNames) (name : TypeName) : Intrinsic (names.find name).faults := by
  rw [MemberNames.find]
  split
  · exact nil
  · split
    · exact nil
    · split
      · exact config [.notMember name]
      · exact unresolved names.declared name

theorem memberTable {κ : Type} [DecidableEq κ] (names : MemberNames) (repeated : κ → ConfigFault)
    (table : Table κ TypeId) (es : List (κ × TypeName)) :
    Intrinsic (WireSchema.memberTable names repeated table es).faults := by
  induction es generalizing table with
  | nil => exact nil
  | cons e rest ih =>
    obtain ⟨key, member⟩ := e
    rw [WireSchema.memberTable]
    split
    · exact (config [repeated key]).append (ih table)
    · exact (find names member).append (ih _)

theorem byteTable (names : MemberNames) (table : Table TypeId UInt8) (used : List UInt8)
    (es : List (TypeName × Int)) :
    Intrinsic (WireSchema.byteTable names table used es).faults := by
  induction es generalizing table used with
  | nil => exact nil
  | cons e rest ih =>
    obtain ⟨member, value⟩ := e
    simp only [WireSchema.byteTable]
    cases byte? value with
    | none => exact (config [.byteOutside value member]).append (ih table used)
    | some byte =>
      have hbyte := config_of (byte ∈ used) (.repeatedByte byte)
      cases (names.find member).value with
      | none => exact (hbyte.append (find names member)).append (ih _ _)
      | some id =>
        have hmember := config_of (table.contains id = true) (.repeatedByteMember member)
        exact ((hbyte.append (find names member)).append hmember).append (ih _ _)

theorem layout (names : MemberNames) (representation : UnionRepresentation) :
    Intrinsic (representation.layout names).faults := by
  cases representation with
  | keyed table => exact memberTable names _ ∅ table.toList
  | kinded table => exact memberTable names _ ∅ table.toList
  | envelope discriminantKey contentKey table =>
    exact (config _).append (memberTable names _ ∅ table.toList)
  | inline discriminantKey table =>
    exact (config_of _ .emptyInlineDiscriminant).append (memberTable names _ ∅ table.toList)
  | stringPrefix table => exact (memberTable names _ ∅ table.toList).append (config _)
  | bytePrefix table => exact byteTable names ∅ [] table.toList

end Intrinsic

/-! ## Definitions -/

namespace Scope

variable (scope : Scope)

theorem intrinsic_resolveName (name : TypeName) : Intrinsic (scope.resolveName name).faults := by
  rw [resolveName]
  split
  · exact .nil
  · exact .unresolved scope.declared name

theorem intrinsic_members (names : MemberNames) (rs : List Reference) :
    Intrinsic (scope.members names rs).faults := by
  induction rs generalizing names with
  | nil => exact .nil
  | cons r rest ih =>
    cases r with
    | named name =>
      rw [members]
      split
      · exact (scope.intrinsic_resolveName name).append (ih _)
      · exact (Intrinsic.config_of _ (.repeatedUnionMember name)).append (ih _)
    | inline d =>
      rw [members]
      refine Intrinsic.append (fun f hf => ?_) (ih names)
      rw [List.mem_singleton.1 hf]
      exact trivial

theorem intrinsic_formFaults (d : Definition) : Intrinsic (scope.formFaults d) := by
  cases d with
  | map key value valueNullable representation =>
    refine Intrinsic.append ?_ (.config _)
    cases key with
    | named name => exact scope.intrinsic_resolveName name
    | inline e =>
      intro f hf
      rw [List.mem_singleton.1 hf]
      exact trivial
  | struct fields representation => exact Intrinsic.append (.config _) (.config _)
  | union members representation =>
    exact (scope.intrinsic_members _ members).append (.layout _ representation)
  | enum members representation => exact .config _
  | copy source =>
    intro f hf
    rw [List.mem_singleton.1 hf]
    exact trivial
  | _ => exact .nil

/-- **What is wrong with a definition itself does not come from around it.** -/
theorem intrinsic_ownFaults (d : Definition) : Intrinsic (scope.ownFaults d) := by
  refine (scope.intrinsic_formFaults d).append fun f hf => ?_
  obtain ⟨r, -, hf⟩ := List.mem_flatMap.1 hf
  cases r with
  | named name => exact scope.intrinsic_resolveName name f hf
  | inline e => cases hf

end Scope
end WireSchema
