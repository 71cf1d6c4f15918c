import WireSchema.Proofs.Resolution.Unambiguous

/-!
# Repeated keys

A key of a discriminant table, or a member of a table of bytes, may stand there once.  The
translator notices a further entry by the table that it has compiled so far, and into this table
an entry is taken only if its member has been found and, in a table of bytes, its value is a byte.
So the second entry of a key is reported only if some entry before it has been taken
(`UnionRepresentation.Notices`).  In a table of bytes the second entry has to have a byte as well.

That is all that is reported of a repetition (`Scope.mem_faults_union_iff`).  A union with a
repeated key is rejected nevertheless: an entry that is not taken is wrong by itself
(`Scope.union_faults_ne_nil`).

The six forms of a table are read as `TableRow`s here, which say by what fault a repetition of
their key is known.
-/

namespace WireSchema

/-! ## Rows -/

/-- An entry of a discriminant table. -/
structure TableRow where
  /-- What is wrong with a further entry of the same key. -/
  repeated : ConfigFault
  /-- The member that the entry names. -/
  member : TypeName
  /-- Whether the value of the entry is one that the table can hold. -/
  legible : Bool
  deriving DecidableEq

/-- An entry of a table from keys to members. -/
def memberRow {κ : Type} (repeated : κ → ConfigFault) (e : κ × TypeName) : TableRow :=
  ⟨repeated e.1, e.2, true⟩

/-- An entry of a table from members to bytes. -/
def byteRow (e : TypeName × Int) : TableRow :=
  ⟨.repeatedByteMember e.1, e.1, decide (0 ≤ e.2 ∧ e.2 ≤ 255)⟩

namespace UnionRepresentation

/-- The entries of the table of a representation. -/
def rows : UnionRepresentation → List TableRow
  | .keyed table => table.toList.map (memberRow (.repeatedKey .wireKey))
  | .kinded table => table.toList.map (memberRow .repeatedKind)
  | .envelope _ _ table => table.toList.map (memberRow (.repeatedKey .discriminant))
  | .inline _ table => table.toList.map (memberRow (.repeatedKey .discriminant))
  | .stringPrefix table => table.toList.map (memberRow (.repeatedKey .stringPrefix))
  | .bytePrefix table => table.toList.map byteRow

/-- Whether a table has a key more than once, which is the fault that says so. -/
def Repeats (representation : UnionRepresentation) (fault : ConfigFault) : Prop :=
  1 < (representation.rows.map TableRow.repeated).count fault

instance (representation : UnionRepresentation) (fault : ConfigFault) :
    Decidable (representation.Repeats fault) :=
  inferInstanceAs (Decidable (1 < _))

end UnionRepresentation

/-- A row is repeated with one of three faults. -/
theorem UnionRepresentation.exists_of_mem_rows {representation : UnionRepresentation}
    {fault : ConfigFault} (h : fault ∈ representation.rows.map TableRow.repeated) :
    (∃ sort key, fault = .repeatedKey sort key) ∨ (∃ kind, fault = .repeatedKind kind) ∨
      ∃ member, fault = .repeatedByteMember member := by
  cases representation <;> rw [rows, List.map_map] at h <;> obtain ⟨e, -, rfl⟩ := List.mem_map.1 h
  case kinded => exact Or.inr (Or.inl ⟨e.1, rfl⟩)
  case bytePrefix => exact Or.inr (Or.inr ⟨e.1, rfl⟩)
  all_goals exact Or.inl ⟨_, e.1, rfl⟩

/-! ## What is noticed -/

namespace TableRow

/-- Whether a row has the key that a fault is about, and can be read. -/
def Says (row : TableRow) (fault : ConfigFault) : Prop :=
  row.repeated = fault ∧ row.legible = true

/-- Whether some row of a key stands behind one whose member has been found. -/
def Notices (found : TypeName → Prop) (fault : ConfigFault) (rows : List TableRow) : Prop :=
  ∃ first other, [first, other].Sublist rows ∧ first.Says fault ∧ other.Says fault ∧
    found first.member

/-- What is noticed among rows if the key may have been taken before them. -/
def Reports (found : TypeName → Prop) (fault : ConfigFault) (taken : Prop)
    (rows : List TableRow) : Prop :=
  (taken ∧ ∃ other ∈ rows, other.Says fault) ∨ Notices found fault rows

variable {found : TypeName → Prop} {fault : ConfigFault} {taken : Prop} {row : TableRow}
  {rows : List TableRow}

theorem notices_cons_iff :
    Notices found fault (row :: rows) ↔
      (row.Says fault ∧ found row.member ∧ ∃ other ∈ rows, other.Says fault) ∨
        Notices found fault rows := by
  constructor
  · rintro ⟨first, other, hsublist, hfirst, hother, hfound⟩
    rcases List.cons_sublist_cons'.1 hsublist with hrest | ⟨rfl, hrest⟩
    · exact Or.inr ⟨first, other, hrest, hfirst, hother, hfound⟩
    · exact Or.inl ⟨hfirst, hfound, other, List.singleton_sublist.1 hrest, hother⟩
  · rintro (⟨hrow, hfound, other, hmem, hother⟩ | ⟨first, other, hsublist, hrest⟩)
    · exact ⟨row, other, (List.singleton_sublist.2 hmem).cons_cons row, hrow, hother, hfound⟩
    · exact ⟨first, other, hsublist.cons row, hrest⟩

/-- A row is reported if its key has been taken; it takes its key if its member is found. -/
theorem reports_cons_iff :
    Reports found fault taken (row :: rows) ↔
      taken ∧ row.Says fault ∨
        Reports found fault (taken ∨ row.Says fault ∧ found row.member) rows := by
  rw [Reports, Reports, notices_cons_iff]
  simp only [List.mem_cons, exists_eq_or_imp]
  generalize (∃ other ∈ rows, other.Says fault) = behind
  tauto

theorem not_reports_nil : ¬ Reports found fault taken [] := by
  rintro (⟨-, other, hmem, -⟩ | ⟨first, other, hsublist, -⟩)
  · cases hmem
  · cases hsublist

theorem reports_iff_notices (h : ¬ taken) :
    Reports found fault taken rows ↔ Notices found fault rows :=
  or_iff_right fun hreported => h hreported.1

end TableRow

/-! ## Members that are looked up -/

namespace MemberNames

variable {names : MemberNames} {name : TypeName}

theorem find_of_get? {id : TypeId} (h : names.members.get? name = some id) :
    names.find name = .ok (some id) := by
  rw [find, h]

/-- A member that is not found has no position, and may be no member of the union. -/
theorem find_of_notMem (h : name ∉ names.members.keys) :
    (names.find name).value = none ∧
      ∀ fault, .invalidConfig fault ∈ (names.find name).faults → fault = .notMember name := by
  have hget : names.members.get? name = none := by
    rw [← Option.not_isSome_iff_eq_none]
    exact fun hsome => h (Table.contains_iff.1 hsome)
  simp only [find, hget]
  split
  · exact ⟨rfl, fun _ hmem => by cases hmem⟩
  · split
    · refine ⟨rfl, fun fault hmem => ?_⟩
      exact Fault.invalidConfig.inj (List.mem_singleton.1 hmem)
    · refine ⟨rfl, fun fault hmem => ?_⟩
      cases List.mem_singleton.1 hmem

end MemberNames

/-! ## Tables -/

section

variable {names : MemberNames}

/-- An entry is reported if its key has been taken, and takes its key if its member is found. -/
theorem reports_memberRow_cons_iff {κ : Type} {repeated : κ → ConfigFault}
    (hinjective : repeated.Injective) {found : TypeName → Prop} {taken : Prop} {key k : κ}
    {member : TypeName} {es : List (κ × TypeName)} :
    TableRow.Reports found (repeated key) taken (((k, member) :: es).map (memberRow repeated)) ↔
      taken ∧ k = key ∨ TableRow.Reports found (repeated key) (taken ∨ k = key ∧ found member)
        (es.map (memberRow repeated)) := by
  have hrow : (memberRow repeated (k, member)).Says (repeated key) ↔ k = key :=
    ⟨fun h => hinjective h.1, fun h => ⟨congrArg repeated h, rfl⟩⟩
  rw [List.map_cons, TableRow.reports_cons_iff, hrow]
  rfl

/-- What a table from keys to members reports of a key. -/
theorem mem_faults_memberTable_iff {κ : Type} [DecidableEq κ] {repeated : κ → ConfigFault}
    (hinjective : repeated.Injective) (hapart : ∀ key name, repeated key ≠ .notMember name)
    {key : κ} {table : Table κ TypeId} {es : List (κ × TypeName)} :
    .invalidConfig (repeated key) ∈ (memberTable names repeated table es).faults ↔
      TableRow.Reports (· ∈ names.members.keys) (repeated key) (key ∈ table.keys)
        (es.map (memberRow repeated)) := by
  induction es generalizing table with
  | nil => exact iff_of_false List.not_mem_nil TableRow.not_reports_nil
  | cons e es ih =>
    obtain ⟨k, member⟩ := e
    rw [reports_memberRow_cons_iff hinjective, memberTable]
    by_cases htaken : k ∈ table.keys
    · have hkey : (key ∈ table.keys ∨ k = key ∧ member ∈ names.members.keys) ↔
          key ∈ table.keys := or_iff_left_of_imp fun h => h.1 ▸ htaken
      have hfirst : repeated key = repeated k ↔ key ∈ table.keys ∧ k = key :=
        ⟨fun h => ⟨(hinjective h).symm ▸ htaken, (hinjective h).symm⟩,
          fun h => congrArg repeated h.2.symm⟩
      rw [if_pos (Table.contains_iff.2 htaken), hkey, ← ih, ← hfirst]
      simp [Checked.after]
    · have hfirst : ¬ (key ∈ table.keys ∧ k = key) := fun h => htaken (h.2 ▸ h.1)
      rw [if_neg fun hcontains => htaken (Table.contains_iff.1 hcontains), or_iff_right hfirst]
      by_cases hfound : member ∈ names.members.keys
      · obtain ⟨id, hid⟩ := Option.isSome_iff_exists.1 (Table.contains_iff.2 hfound)
        have hkey : (key ∈ table.keys ∨ k = key ∧ member ∈ names.members.keys) ↔
            key ∈ (table.insert k id).keys := by
          rw [Table.mem_keys_insert, or_comm, eq_comm, and_iff_left hfound]
        rw [hkey, ← ih, MemberNames.find_of_get? hid]
        simp [Checked.after, Checked.ok]
      · obtain ⟨hvalue, hfaults⟩ := MemberNames.find_of_notMem hfound
        have hkey : (key ∈ table.keys ∨ k = key ∧ member ∈ names.members.keys) ↔
            key ∈ table.keys := or_iff_left_of_imp fun h => absurd h.2 hfound
        rw [hkey, ← ih]
        simp only [hvalue]
        refine List.mem_append.trans (or_iff_right fun hmem => ?_)
        exact hapart key member (hfaults _ hmem)

/-- An entry without a byte is passed over, and another one is reported if its member has been
taken. -/
theorem reports_byteRow_cons_iff {found : TypeName → Prop} {taken : Prop} {member m : TypeName}
    {value : Int} {es : List (TypeName × Int)} :
    TableRow.Reports found (.repeatedByteMember member) taken (((m, value) :: es).map byteRow) ↔
      if byte? value = none then
        TableRow.Reports found (.repeatedByteMember member) taken (es.map byteRow)
      else
        taken ∧ m = member ∨ TableRow.Reports found (.repeatedByteMember member)
          (taken ∨ m = member ∧ found m) (es.map byteRow) := by
  rw [List.map_cons, TableRow.reports_cons_iff]
  split
  · next hbyte =>
    have hrow : ¬ (byteRow (m, value)).Says (.repeatedByteMember member) := fun h =>
      byte?_eq_none_iff.1 hbyte (of_decide_eq_true h.2)
    simp only [hrow, and_false, false_or, false_and, or_false]
  · next hbyte =>
    have hrow : (byteRow (m, value)).Says (.repeatedByteMember member) ↔ m = member := by
      refine ⟨fun h => ConfigFault.repeatedByteMember.inj h.1, fun h => ⟨congrArg _ h, ?_⟩⟩
      exact decide_eq_true (not_imp_comm.1 byte?_eq_none_iff.2 hbyte)
    rw [hrow]
    rfl

/-- Whether a member has been taken into a table. -/
def MemberNames.Taken (names : MemberNames) (table : Table TypeId UInt8) (member : TypeName) :
    Prop :=
  ∃ id ∈ table.keys, names.members.get? member = some id

section

variable (hinjective : ∀ x y id,
  names.members.get? x = some id → names.members.get? y = some id → x = y)

include hinjective

theorem taken_insert_iff {table : Table TypeId UInt8} {member m : TypeName} {id : TypeId}
    (hid : names.members.get? m = some id) (byte : UInt8) :
    names.Taken (table.insert id byte) member ↔ names.Taken table member ∨ m = member := by
  constructor
  · rintro ⟨i, hi, hmember⟩
    rcases Table.mem_keys_insert.1 hi with rfl | hi
    · exact Or.inr (hinjective m member i hid hmember)
    · exact Or.inl ⟨i, hi, hmember⟩
  · rintro (⟨i, hi, hmember⟩ | rfl)
    · exact ⟨i, Table.mem_keys_insert.2 (Or.inr hi), hmember⟩
    · exact ⟨id, Table.mem_keys_insert.2 (Or.inl rfl), hid⟩

omit hinjective in
theorem mem_repeatedMember_iff {table : Table TypeId UInt8} {member m : TypeName} {id : TypeId}
    (hid : names.members.get? m = some id) :
    (Fault.invalidConfig (.repeatedByteMember member) ∈
        if table.contains id then [Fault.invalidConfig (.repeatedByteMember m)] else []) ↔
      names.Taken table member ∧ m = member := by
  constructor
  · intro hmem
    split at hmem
    · next hcontains =>
      cases List.mem_singleton.1 hmem
      exact ⟨⟨id, Table.contains_iff.1 hcontains, hid⟩, rfl⟩
    · cases hmem
  · rintro ⟨⟨i, hi, hmember⟩, rfl⟩
    obtain rfl := Option.some.inj (hid.symm.trans hmember)
    rw [if_pos (Table.contains_iff.2 hi)]
    exact List.mem_singleton_self _

/-- What a table from members to bytes reports of a member. -/
theorem mem_faults_byteTable_iff {member : TypeName} {table : Table TypeId UInt8}
    (used : List UInt8) {es : List (TypeName × Int)} :
    .invalidConfig (.repeatedByteMember member) ∈ (byteTable names table used es).faults ↔
      TableRow.Reports (· ∈ names.members.keys) (.repeatedByteMember member)
        (names.Taken table member) (es.map byteRow) := by
  induction es generalizing table used with
  | nil => exact iff_of_false List.not_mem_nil TableRow.not_reports_nil
  | cons e es ih =>
    obtain ⟨m, value⟩ := e
    rw [reports_byteRow_cons_iff, byteTable]
    cases hbyte : byte? value with
    | none => simp [Checked.after, ih]
    | some byte =>
      have hbytes : Fault.invalidConfig (.repeatedByteMember member) ∉
          if byte ∈ used then [Fault.invalidConfig (.repeatedByte byte)] else [] := by
        split <;> simp
      rw [if_neg (Option.some_ne_none byte)]
      by_cases hfound : m ∈ names.members.keys
      · obtain ⟨id, hid⟩ := Option.isSome_iff_exists.1 (Table.contains_iff.2 hfound)
        rw [and_iff_left hfound, ← taken_insert_iff hinjective hid byte, ← ih (byte :: used),
          ← mem_repeatedMember_iff hid]
        simp only [MemberNames.find_of_get? hid, Checked.ok, Checked.after, List.append_nil,
          List.mem_append, hbytes, false_or]
      · obtain ⟨hvalue, hfaults⟩ := MemberNames.find_of_notMem hfound
        have htaken : (names.Taken table member ∨ m = member ∧ m ∈ names.members.keys) ↔
            names.Taken table member := or_iff_left_of_imp fun h => absurd h.2 hfound
        have hfirst : ¬ (names.Taken table member ∧ m = member) := by
          rintro ⟨⟨i, -, hmember⟩, rfl⟩
          exact hfound (List.mem_map_of_mem (Table.mem_toList_of_get? hmember))
        rw [htaken, or_iff_right hfirst, ← ih (byte :: used)]
        simp only [hvalue]
        refine List.mem_append.trans (or_iff_right fun hmem => ?_)
        rcases List.mem_append.1 hmem with hmem | hmem
        · exact hbytes hmem
        · cases hfaults _ hmem

end

/-! ## Representations -/

theorem notMem_stringPrefixFaults {sort : TableKey} {key : String} (keys : List String) :
    .repeatedKey sort key ∉ stringPrefixFaults keys := by
  induction keys with
  | nil => exact List.not_mem_nil
  | cons a rest ih =>
    rw [stringPrefixFaults, List.mem_append, not_or]
    refine ⟨?_, ih⟩
    split <;> simp

namespace UnionRepresentation

variable (hinjective : ∀ x y id,
  names.members.get? x = some id → names.members.get? y = some id → x = y)

/-- What is reported of repetitions in a table from keys to members. -/
theorem mem_faults_discriminants_iff {sort : TableKey} {key : String}
    (table : Entries String TypeName) :
    .invalidConfig (.repeatedKey sort key) ∈ (discriminants names sort table).faults ↔
      TableRow.Notices (· ∈ names.members.keys) (.repeatedKey sort key)
        (table.toList.map (memberRow (.repeatedKey sort))) :=
  (mem_faults_memberTable_iff (fun _ _ h => (ConfigFault.repeatedKey.inj h).2)
    (fun _ _ h => by cases h)).trans (TableRow.reports_iff_notices List.not_mem_nil)

include hinjective

/-- What the translator reports of repetitions. -/
theorem mem_faults_layout_iff {representation : UnionRepresentation} {fault : ConfigFault}
    (hfault : fault ∈ representation.rows.map TableRow.repeated) :
    .invalidConfig fault ∈ (representation.layout names).faults ↔
      TableRow.Notices (· ∈ names.members.keys) fault representation.rows := by
  cases representation <;> rw [rows, List.map_map] at hfault <;>
    obtain ⟨e, -, rfl⟩ := List.mem_map.1 hfault
  case keyed table => exact mem_faults_discriminants_iff table
  case kinded table =>
    exact (mem_faults_memberTable_iff (fun _ _ h => ConfigFault.repeatedKind.inj h)
      (fun _ _ h => by cases h)).trans (TableRow.reports_iff_notices List.not_mem_nil)
  case envelope discriminantKey contentKey table =>
    refine (List.mem_append.trans (or_iff_right ?_)).trans (mem_faults_discriminants_iff table)
    simp [memberRow]
  case inline discriminantKey table =>
    refine (List.mem_append.trans (or_iff_right ?_)).trans (mem_faults_discriminants_iff table)
    split <;> simp [memberRow]
  case stringPrefix table =>
    refine (List.mem_append.trans (or_iff_left fun hmem => ?_)).trans
      (mem_faults_discriminants_iff table)
    obtain ⟨other, hother, heq⟩ := List.mem_map.1 hmem
    exact notMem_stringPrefixFaults _ (Fault.invalidConfig.inj heq ▸ hother)
  case bytePrefix table =>
    refine (mem_faults_byteTable_iff hinjective []).trans (TableRow.reports_iff_notices ?_)
    rintro ⟨id, hid, -⟩
    cases hid

omit hinjective in
/-- No key is repeated in the table of an unambiguous representation. -/
theorem Unambiguous.not_repeats {members : List TypeName} {representation : UnionRepresentation}
    (h : representation.Unambiguous members) (fault : ConfigFault) :
    ¬ representation.Repeats fault := by
  have hkeys : ∀ {κ ν : Type} (f : κ → ConfigFault) (row : κ × ν → TableRow) (es : Entries κ ν),
      f.Injective → (∀ e, (row e).repeated = f e.1) → es.keys.Nodup →
        ((es.toList.map row).map TableRow.repeated).Nodup := by
    intro κ ν f row es hf hrow hnodup
    have hmap : (es.toList.map row).map TableRow.repeated = es.keys.map f := by
      rw [Entries.keys, List.map_map, List.map_map]
      exact List.map_congr_left fun e _ => hrow e
    exact hmap ▸ hnodup.map hf
  have hkey : ∀ sort, (ConfigFault.repeatedKey sort).Injective :=
    fun _ _ _ heq => (ConfigFault.repeatedKey.inj heq).2
  suffices hnodup : (representation.rows.map TableRow.repeated).Nodup from
    Nat.not_lt.2 (List.nodup_iff_count_le_one.1 hnodup fault)
  cases representation with
  | kinded table =>
    exact hkeys _ _ table (fun _ _ heq => ConfigFault.repeatedKind.inj heq) (fun _ => rfl) h.1
  | bytePrefix table =>
    exact hkeys _ _ table (fun _ _ heq => ConfigFault.repeatedByteMember.inj heq) (fun _ => rfl) h.1
  | _ => exact hkeys _ _ _ (hkey _) (fun _ => rfl) h.1

end UnionRepresentation

end

/-! ## Unions -/

namespace Scope

variable (scope : Scope)

/-- A union finds its members at the positions of their declarations. -/
theorem get?_members (members : List Reference) (names : MemberNames) (name : TypeName) :
    (scope.members names members).value.members.get? name =
      if name ∈ namesOf members ∧ name ∈ scope.declared then some (scope.declared.idxOf name)
      else names.members.get? name := by
  induction members generalizing names with
  | nil => simp [Scope.members, Checked.ok, namesOf]
  | cons r rest ih =>
    cases r with
    | inline d => exact ih names
    | named other =>
      have hnames : namesOf (.named other :: rest) = other :: namesOf rest := rfl
      by_cases hdeclared : other ∈ scope.declared
      · rw [Scope.members, resolveName_of_mem scope hdeclared]
        simp only [Checked.ok, Checked.after, ih, Table.get?_insert, hnames, List.mem_cons]
        grind
      · rw [Scope.members, resolveName_of_notMem scope hdeclared]
        simp only [Checked.after, ih, hnames, List.mem_cons]
        grind

/-- Of members no fault is reported that could be one of a table. -/
theorem eq_of_mem_faults_members {members : List Reference} {names : MemberNames}
    {fault : ConfigFault} (h : .invalidConfig fault ∈ (scope.members names members).faults) :
    ∃ name, fault = .repeatedUnionMember name := by
  induction members generalizing names with
  | nil => cases h
  | cons r rest ih =>
    cases r with
    | inline d =>
      rw [Scope.members] at h
      rcases List.mem_append.1 h with h | h
      · cases List.mem_singleton.1 h
      · exact ih h
    | named other =>
      by_cases hdeclared : other ∈ scope.declared
      · rw [Scope.members, resolveName_of_mem scope hdeclared] at h
        rcases List.mem_append.1 h with h | h
        · split at h
          · exact ⟨other, Fault.invalidConfig.inj (List.mem_singleton.1 h)⟩
          · cases h
        · exact ih h
      · rw [Scope.members, resolveName_of_notMem scope hdeclared] at h
        rcases List.mem_append.1 h with h | h
        · cases List.mem_singleton.1 h
        · exact ih h

/-- **What is reported of a repetition.**  It is reported if an entry of the key stands before
whose member is one of the union and declared; in a table of bytes, if both have one. -/
theorem mem_faults_union_iff (members : List Reference) {representation : UnionRepresentation}
    {fault : ConfigFault} (hfault : fault ∈ representation.rows.map TableRow.repeated) :
    .invalidConfig fault ∈ (scope.union members representation).faults ↔
      TableRow.Notices (fun name => .named name ∈ members ∧ name ∈ scope.declared) fault
        representation.rows := by
  have hget := scope.get?_members members ⟨∅, [], scope.declared⟩
  have hnone : ∀ name, (∅ : Table TypeName TypeId).get? name = none := fun _ => rfl
  simp only [hnone] at hget
  have hfound : (fun name => name ∈
      (scope.members ⟨∅, [], scope.declared⟩ members).value.members.keys) =
        fun name => .named name ∈ members ∧ name ∈ scope.declared := by
    funext name
    rw [← Table.contains_iff, Table.contains, hget, ← mem_namesOf]
    simp
  rw [union, ← hfound]
  refine (List.mem_append.trans (or_iff_right fun hmem => ?_)).trans
    (UnionRepresentation.mem_faults_layout_iff (fun x y id hx hy => ?_) hfault)
  · obtain ⟨name, rfl⟩ := scope.eq_of_mem_faults_members hmem
    rcases UnionRepresentation.exists_of_mem_rows hfault with
      ⟨sort, key, heq⟩ | ⟨kind, heq⟩ | ⟨member, heq⟩ <;> cases heq
  · rw [hget, Option.ite_none_right_eq_some, Option.some.injEq] at hx hy
    exact (List.idxOf_inj hx.1.2).1 (hx.2.trans hy.2.symm)

/-- A union with a repeated key is rejected. -/
theorem union_faults_ne_nil (members : List Reference) {representation : UnionRepresentation}
    {fault : ConfigFault} (h : representation.Repeats fault) :
    (scope.union members representation).faults ≠ [] := by
  intro hnil
  obtain ⟨-, hdeclared, -, hlayout⟩ := (scope.union_faults_eq_nil_iff members representation).1 hnil
  have hposition : Set.InjOn scope.declared.idxOf {name | name ∈ namesOf members} :=
    fun x hx y _ heq => (List.idxOf_inj (hdeclared x (mem_namesOf.1 hx))).1 heq
  exact ((UnionRepresentation.faults_layout_eq_nil_iff
    (MemberNames.locates_ofMembers scope.declared members) (fun _ => MemberNames.mem_keys_ofMembers)
      hposition representation).1 hlayout).not_repeats fault h

end Scope
end WireSchema
