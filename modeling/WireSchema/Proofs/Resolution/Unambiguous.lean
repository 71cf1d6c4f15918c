import WireSchema.Proofs.Resolution.Rearranged

/-!
# Unambiguous unions

The representation of a union has to tell its members apart: by keys, kinds, beginnings of a
text or first bytes.  `UnionRepresentation.Unambiguous` are the rules for this, form by form.  They
are about the table as it is written; nothing in them depends on the order of its entries or on
how a fault would be found.

The translator accepts a representation exactly if it follows the rules
(`UnionRepresentation.accepted_iff_unambiguous`), and then its layout has the entries of the
table and no others.  What the rules are for shows in the layout: of the beginnings of a text at
most one is a prefix in the table, although the translator compares every two prefixes only in
the order in which they stand (`UnionLayout.TellsApart`).
-/

namespace WireSchema

/-! ## Results of checks -/

theorem Checked.get?_eq_some_iff {α : Type} {checked : Checked α} {value : α} :
    checked.get? = some value ↔ checked.faults = [] ∧ checked.value = value := by
  simp [get?]

/-! ## Tables from keys to members -/

section

variable {names : MemberNames} {position : TypeName → TypeId} (h : names.Locates position)

include h

theorem memberTable_faults_eq_nil_iff {κ : Type} [DecidableEq κ] (repeated : κ → ConfigFault)
    {es : List (κ × TypeName)} {table : Table κ TypeId} :
    (memberTable names repeated table es).faults = [] ↔
      (table.keys ++ es.map Prod.fst).Nodup ∧ ∀ e ∈ es, e.2 ∈ names.members.keys := by
  refine ⟨fun hfaults => (memberTable_eq h repeated hfaults).2, ?_⟩
  induction es generalizing table with
  | nil => exact fun _ => rfl
  | cons e es ih =>
    obtain ⟨key, member⟩ := e
    rintro ⟨hnodup, hmembers⟩
    have hnew : key ∉ table.keys := fun hmem =>
      (List.nodup_append.1 hnodup).2.2 key hmem key (List.mem_cons_self ..) rfl
    have hfound := h.find_faults_eq_nil_iff.2 (hmembers _ (List.mem_cons_self ..))
    rw [memberTable, if_neg fun hcontains => hnew (Table.contains_iff.1 hcontains)]
    simp only [Checked.after, h.find hfound, hfound, List.nil_append]
    refine ih ⟨?_, fun e he => hmembers e (List.mem_cons_of_mem _ he)⟩
    rw [Table.keys, Table.toList_insert _ hnew, List.map_append, List.append_assoc]
    exact hnodup

/-- A table is accepted if its keys are distinct and its entries name members. -/
theorem memberTable_empty_faults_eq_nil_iff {κ : Type} [DecidableEq κ]
    (repeated : κ → ConfigFault) (es : Entries κ TypeName) :
    (memberTable names repeated ∅ es.toList).faults = [] ↔
      es.keys.Nodup ∧ es.values ⊆ names.members.keys := by
  rw [memberTable_faults_eq_nil_iff h]
  exact and_congr_right fun _ => List.forall_mem_map.symm

end

/-! ## Prefixes -/

theorem overlap_eq_false_iff {a b : String} :
    overlap a b = false ↔ ¬ a.toList <+: b.toList ∧ ¬ b.toList <+: a.toList := by
  simp [overlap, ← Bool.not_eq_true, List.isPrefixOf_iff_prefix]

/-- Every two prefixes are compared once, in the order in which they stand. -/
theorem stringPrefixFaults_eq_nil_iff {keys : List String} :
    stringPrefixFaults keys = [] ↔
      "" ∉ keys ∧ keys.Pairwise fun a b => a = b ∨ overlap a b = false := by
  induction keys with
  | nil => simp [stringPrefixFaults]
  | cons a rest ih =>
    rw [stringPrefixFaults, List.append_eq_nil_iff, ih, List.pairwise_cons, List.mem_cons, not_or]
    by_cases ha : a = ""
    · simp [ha]
    · simp only [ha, if_false, List.map_eq_nil_iff, List.filter_eq_nil_iff]
      grind

/-- So it does not matter in which order they stand. -/
theorem stringPrefixFaults_eq_nil_iff_prefixFree {keys : List String} :
    stringPrefixFaults keys = [] ↔
      "" ∉ keys ∧ ∀ a ∈ keys, ∀ b ∈ keys, a.toList <+: b.toList → a = b := by
  rw [stringPrefixFaults_eq_nil_iff]
  refine and_congr_right fun _ => ⟨fun hpairwise a ha b hb hprefix => ?_, fun hfree => ?_⟩
  · have hsymm : Std.Symm fun a b : String => a = b ∨ overlap a b = false :=
      ⟨fun a b hab => hab.imp Eq.symm fun hapart => by rw [overlap, Bool.or_comm]; exact hapart⟩
    have hself : ∀ a ∈ keys, a = a ∨ overlap a a = false := fun _ _ => Or.inl rfl
    rcases hpairwise.forall_of_forall hself ha hb with heq | hapart
    · exact heq
    · exact absurd hprefix (overlap_eq_false_iff.1 hapart).1
  · rw [List.pairwise_iff_forall_sublist]
    intro a b hsublist
    have ha : a ∈ keys := hsublist.subset (by simp)
    have hb : b ∈ keys := hsublist.subset (by simp)
    by_cases heq : a = b
    · exact Or.inl heq
    · refine Or.inr (overlap_eq_false_iff.2 ⟨fun hprefix => ?_, fun hprefix => ?_⟩)
      · exact heq (hfree a ha b hb hprefix)
      · exact heq (hfree b hb a ha hprefix).symm

/-! ## Bytes -/

theorem byte?_eq_some_iff {value : Int} {byte : UInt8} :
    byte? value = some byte ↔ (byte.toNat : Int) = value := by
  have hbyte := byte.toNat_lt
  rw [byte?]
  split
  · next hrange =>
    rw [Option.some.injEq, ← UInt8.toNat_inj, UInt8.toNat_ofNat']
    omega
  · next hrange =>
    simp only [reduceCtorEq, false_iff]
    omega

theorem byte?_eq_none_iff {value : Int} : byte? value = none ↔ ¬ (0 ≤ value ∧ value ≤ 255) := by
  simp [byte?]

section

variable {names : MemberNames} {position : TypeName → TypeId} (h : names.Locates position)
  {es : List (TypeName × Int)} {table : Table TypeId UInt8} {used : List UInt8}

include h

/-- An entry is accepted if it names a member and a byte, and neither has had one before. -/
theorem byteTable_cons_faults_eq_nil_iff {member : TypeName} {value : Int} :
    (byteTable names table used ((member, value) :: es)).faults = [] ↔
      member ∈ names.members.keys ∧ ∃ byte : UInt8, (byte.toNat : Int) = value ∧
        byte ∉ used ∧ position member ∉ table.keys ∧
          (byteTable names (table.insert (position member) byte)
            (byte :: used) es).faults = [] := by
  by_cases hmember : member ∈ names.members.keys
  · have hfound := h.find_faults_eq_nil_iff.2 hmember
    rw [byteTable]
    cases hbyte : byte? value with
    | none =>
      refine iff_of_false (List.cons_ne_nil _ _) ?_
      rintro ⟨-, byte, heq, -⟩
      rw [byte?_eq_some_iff.2 heq] at hbyte
      cases hbyte
    | some byte =>
      have hunique : ∀ byte' : UInt8, (byte'.toNat : Int) = value ↔ byte' = byte := by
        intro byte'
        rw [← byte?_eq_some_iff, hbyte, Option.some.injEq, eq_comm]
      simp [Checked.after, h.find hfound, hfound, hmember, hunique, Table.contains_iff]
  · have hfound : (names.find member).faults ≠ [] :=
      fun hnil => hmember (h.find_faults_eq_nil_iff.1 hnil)
    exact iff_of_false (byteTable_faults_ne_nil hfound table used value es)
      fun hentry => hmember hentry.1

/-- A table from members to bytes is accepted if its entries name members, their values are
bytes, and neither members nor values are repeated. -/
theorem byteTable_faults_eq_nil_iff :
    (byteTable names table used es).faults = [] ↔
      (∀ e ∈ es, e.1 ∈ names.members.keys) ∧ (∀ e ∈ es, 0 ≤ e.2 ∧ e.2 ≤ 255) ∧
        (table.keys ++ es.map fun e => position e.1).Nodup ∧ (es.map Prod.snd).Nodup ∧
          ∀ e ∈ es, ∀ byte ∈ used, (byte.toNat : Int) ≠ e.2 := by
  induction es generalizing table used with
  | nil => simpa [byteTable, Checked.ok, Table.keys] using table.nodup
  | cons e es ih =>
    obtain ⟨member, value⟩ := e
    rw [byteTable_cons_faults_eq_nil_iff h]
    constructor
    · rintro ⟨hmember, byte, rfl, hunused, hnew, hrest⟩
      obtain ⟨hmembers, hrange, hkeys, hvalues, hused⟩ := ih.1 hrest
      have hbyte := byte.toNat_lt
      rw [Table.keys, Table.toList_insert _ hnew, List.map_append, List.append_assoc] at hkeys
      refine ⟨?_, ?_, hkeys, ?_, ?_⟩
      · exact List.forall_mem_cons.2 ⟨hmember, hmembers⟩
      · exact List.forall_mem_cons.2 ⟨by omega, hrange⟩
      · rw [List.map_cons, List.nodup_cons]
        refine ⟨fun hmem => ?_, hvalues⟩
        obtain ⟨e, he, heq⟩ := List.mem_map.1 hmem
        exact hused e he byte (List.mem_cons_self ..) heq.symm
      · refine List.forall_mem_cons.2 ⟨fun other hother heq => ?_, fun e he other hother => ?_⟩
        · exact hunused (UInt8.toNat_inj.1 (Int.ofNat_inj.1 heq) ▸ hother)
        · exact hused e he other (List.mem_cons_of_mem _ hother)
    · rintro ⟨hmembers, hrange, hkeys, hvalues, hused⟩
      obtain ⟨byte, hbyte⟩ := Option.ne_none_iff_exists'.1 fun hnone =>
        byte?_eq_none_iff.1 hnone (hrange _ (List.mem_cons_self ..))
      obtain rfl := byte?_eq_some_iff.1 hbyte
      have hnew : position member ∉ table.keys := fun hmem =>
        (List.nodup_append.1 hkeys).2.2 _ hmem _ (List.mem_cons_self ..) rfl
      rw [List.map_cons, List.nodup_cons] at hvalues
      refine ⟨hmembers _ (List.mem_cons_self ..), byte, rfl, ?_, hnew, ih.2 ⟨?_, ?_, ?_, ?_, ?_⟩⟩
      · exact fun hmem => hused _ (List.mem_cons_self ..) byte hmem rfl
      · exact fun e he => hmembers e (List.mem_cons_of_mem _ he)
      · exact fun e he => hrange e (List.mem_cons_of_mem _ he)
      · rw [Table.keys, Table.toList_insert _ hnew, List.map_append, List.append_assoc]
        exact hkeys
      · exact hvalues.2
      · intro e he other hother heq
        rcases List.mem_cons.1 hother with rfl | hother
        · have hmem : e.2 ∈ es.map Prod.snd := List.mem_map_of_mem he
          exact hvalues.1 (heq ▸ hmem)
        · exact hused e (List.mem_cons_of_mem _ he) other hother heq

end

/-! ## The rules -/

namespace UnionRepresentation

/-- The rules by which a representation tells the members of a union apart. -/
def Unambiguous (members : List TypeName) : UnionRepresentation → Prop
  | .keyed table => table.keys.Nodup ∧ table.values ⊆ members
  | .kinded table => table.keys.Nodup ∧ table.values ⊆ members
  | .envelope discriminantKey contentKey table =>
      table.keys.Nodup ∧ table.values ⊆ members ∧
        discriminantKey ≠ "" ∧ contentKey ≠ "" ∧ discriminantKey ≠ contentKey
  | .inline discriminantKey table =>
      table.keys.Nodup ∧ table.values ⊆ members ∧ discriminantKey ≠ ""
  | .stringPrefix table =>
      table.keys.Nodup ∧ table.values ⊆ members ∧ "" ∉ table.keys ∧
        ∀ a ∈ table.keys, ∀ b ∈ table.keys, a.toList <+: b.toList → a = b
  | .bytePrefix table =>
      table.keys.Nodup ∧ table.keys ⊆ members ∧
        (∀ value ∈ table.values, 0 ≤ value ∧ value ≤ 255) ∧ table.values.Nodup

/-- A layout has the form of a representation, and its entries are those of the representation
in their order, with positions in the place of members. -/
inductive Tabulates (position : TypeName → TypeId) : UnionRepresentation → UnionLayout → Prop
  | keyed {table : Entries String TypeName} {compiled : Table String TypeId}
      (entries : compiled.toList = table.toList.map fun e => (e.1, position e.2)) :
      Tabulates position (.keyed table) (.keyed compiled)
  | kinded {table : Entries Kind TypeName} {compiled : Table Kind TypeId}
      (entries : compiled.toList = table.toList.map fun e => (e.1, position e.2)) :
      Tabulates position (.kinded table) (.kinded compiled)
  | envelope {discriminantKey contentKey : String} {table : Entries String TypeName}
      {compiled : Table String TypeId}
      (entries : compiled.toList = table.toList.map fun e => (e.1, position e.2)) :
      Tabulates position (.envelope discriminantKey contentKey table)
        (.envelope discriminantKey contentKey compiled)
  | inline {discriminantKey : String} {table : Entries String TypeName}
      {compiled : Table String TypeId}
      (entries : compiled.toList = table.toList.map fun e => (e.1, position e.2)) :
      Tabulates position (.inline discriminantKey table) (.inline discriminantKey compiled)
  | stringPrefix {table : Entries String TypeName} {compiled : Table String TypeId}
      (entries : compiled.toList = table.toList.map fun e => (e.1, position e.2)) :
      Tabulates position (.stringPrefix table) (.stringPrefix compiled)
  | bytePrefix {table : Entries TypeName Int} {compiled : Table TypeId UInt8}
      (entries : (compiled.toList.map fun e => (e.1, (e.2.toNat : Int))) =
        table.toList.map fun e => (position e.1, e.2)) :
      Tabulates position (.bytePrefix table) (.bytePrefix compiled)

end UnionRepresentation

/-- Whether a text begins with one prefix of a layout at most, a byte stands for one member at
most, and a member has one byte at most. -/
def UnionLayout.TellsApart : UnionLayout → Prop
  | .stringPrefix table => ∀ text : String, ∀ e ∈ table.toList, ∀ f ∈ table.toList,
      e.1.toList <+: text.toList → f.1.toList <+: text.toList → e = f
  | .bytePrefix table => ∀ e ∈ table.toList, ∀ f ∈ table.toList, e.1 = f.1 ∨ e.2 = f.2 → e = f
  | _ => True

namespace UnionRepresentation

/-- **The translator's rules.**  Of a union whose members have been found it accepts the
unambiguous representations. -/
theorem faults_layout_eq_nil_iff {names : MemberNames} {members : List TypeName}
    {position : TypeName → TypeId} (h : names.Locates position)
    (hmembers : ∀ name, name ∈ names.members.keys ↔ name ∈ members)
    (hposition : Set.InjOn position {name | name ∈ members})
    (representation : UnionRepresentation) :
    (representation.layout names).faults = [] ↔ representation.Unambiguous members := by
  have hsubset : ∀ listed : List TypeName, listed ⊆ names.members.keys ↔ listed ⊆ members := by
    intro listed
    exact forall₂_congr fun name _ => hmembers name
  have hdiscriminants : ∀ (sort : TableKey) (es : Entries String TypeName),
      (discriminants names sort es).faults = [] ↔ es.keys.Nodup ∧ es.values ⊆ members := by
    intro sort es
    rw [discriminants, memberTable_empty_faults_eq_nil_iff h, hsubset]
  cases representation with
  | keyed es => exact hdiscriminants .wireKey es
  | kinded es =>
    rw [Unambiguous, ← hsubset]
    exact memberTable_empty_faults_eq_nil_iff h _ es
  | envelope discriminantKey contentKey es =>
    simp only [layout, Checked.after, Checked.map, List.append_eq_nil_iff, hdiscriminants,
      List.map_eq_nil_iff, Unambiguous]
    grind
  | inline discriminantKey es =>
    simp only [layout, Checked.after, Checked.map, List.append_eq_nil_iff, hdiscriminants,
      Unambiguous]
    grind
  | stringPrefix es =>
    simp only [layout, List.append_eq_nil_iff, hdiscriminants, List.map_eq_nil_iff,
      stringPrefixFaults_eq_nil_iff_prefixFree, Unambiguous, and_assoc]
  | bytePrefix es =>
    have hkeys : (es.toList.map fun e => position e.1) = es.keys.map position := by
      rw [Entries.keys, List.map_map]
      rfl
    have hlisted : (∀ e ∈ es.toList, e.1 ∈ names.members.keys) ↔ es.keys ⊆ members := by
      rw [← hsubset]
      exact List.forall_mem_map.symm
    have hrange : (∀ e ∈ es.toList, 0 ≤ e.2 ∧ e.2 ≤ 255) ↔
        ∀ value ∈ es.values, 0 ≤ value ∧ value ≤ 255 := by
      rw [Entries.values, List.forall_mem_map]
    have htable : (byteTable names ∅ [] es.toList).faults = [] ↔
        es.keys ⊆ members ∧ (∀ value ∈ es.values, 0 ≤ value ∧ value ≤ 255) ∧
          (es.keys.map position).Nodup ∧ es.values.Nodup := by
      rw [byteTable_faults_eq_nil_iff h, hlisted, hrange, hkeys]
      simp only [List.not_mem_nil, false_implies, implies_true, and_true]
      exact Iff.rfl
    refine htable.trans ?_
    rw [Unambiguous]
    constructor
    · rintro ⟨hmem, hbytes, hnodup, hvalues⟩
      exact ⟨hnodup.of_map, hmem, hbytes, hvalues⟩
    · rintro ⟨hnodup, hmem, hbytes, hvalues⟩
      refine ⟨hmem, hbytes, hnodup.map_on fun x hx y hy => ?_, hvalues⟩
      exact fun heq => hposition (hmem hx) (hmem hy) heq

/-- The layout of an unambiguous representation has the entries of its table. -/
theorem Unambiguous.tabulates_linked {members : List TypeName} {position : TypeName → TypeId}
    (hposition : Set.InjOn position {name | name ∈ members})
    {representation : UnionRepresentation} (h : representation.Unambiguous members) :
    representation.Tabulates position (representation.linked position) := by
  have hentries : ∀ {κ : Type} [DecidableEq κ] (es : Entries κ TypeName), es.keys.Nodup →
      (Table.ofList (es.toList.map fun e => (e.1, position e.2))).toList =
        es.toList.map fun e => (e.1, position e.2) := by
    intro κ _ es hkeys
    refine Table.toList_ofList ?_
    rw [List.map_map]
    exact hkeys
  cases representation with
  | keyed es => exact .keyed (hentries es h.1)
  | kinded es => exact .kinded (hentries es h.1)
  | envelope discriminantKey contentKey es => exact .envelope (hentries es h.1)
  | inline discriminantKey es => exact .inline (hentries es h.1)
  | stringPrefix es => exact .stringPrefix (hentries es h.1)
  | bytePrefix es =>
    obtain ⟨hkeys, hmembers, hrange, -⟩ := h
    have hpositions :
        ((es.toList.map fun e => (position e.1, UInt8.ofNat e.2.toNat)).map Prod.fst).Nodup := by
      have hnodup : (es.keys.map position).Nodup :=
        hkeys.map_on fun x hx y hy heq => hposition (hmembers hx) (hmembers hy) heq
      rw [Entries.keys, List.map_map] at hnodup
      rw [List.map_map]
      exact hnodup
    refine .bytePrefix ?_
    rw [Table.toList_ofList hpositions, List.map_map]
    refine List.map_congr_left fun e he => ?_
    have hvalue := hrange e.2 (List.mem_map_of_mem he)
    rw [Function.comp_apply, UInt8.toNat_ofNat']
    congr 1
    omega

/-- A layout with the entries of an unambiguous representation tells its members apart. -/
theorem Tabulates.tellsApart {members : List TypeName} {position : TypeName → TypeId}
    {representation : UnionRepresentation} {layout : UnionLayout}
    (h : representation.Tabulates position layout) (hrules : representation.Unambiguous members) :
    layout.TellsApart := by
  cases h with
  | stringPrefix entries =>
    rename_i table compiled
    intro text e he f hf hprefix hprefix'
    have hkey : ∀ e ∈ compiled.toList, e.1 ∈ table.keys := by
      intro e he
      rw [entries] at he
      obtain ⟨d, hd, rfl⟩ := List.mem_map.1 he
      exact List.mem_map_of_mem hd
    have heq : e.1 = f.1 := by
      rcases List.prefix_or_prefix_of_prefix hprefix hprefix' with hle | hle
      · exact hrules.2.2.2 _ (hkey e he) _ (hkey f hf) hle
      · exact (hrules.2.2.2 _ (hkey f hf) _ (hkey e he) hle).symm
    exact List.inj_on_of_nodup_map compiled.nodup he hf heq
  | bytePrefix entries =>
    rename_i table compiled
    have hbytes : (compiled.toList.map fun e => (e.2.toNat : Int)).Nodup := by
      have hvalues := congrArg (List.map Prod.snd) entries
      rw [List.map_map, List.map_map] at hvalues
      have hnodup := hrules.2.2.2
      rw [Entries.values] at hnodup
      exact hvalues ▸ hnodup
    rintro e he f hf (heq | heq)
    · exact List.inj_on_of_nodup_map compiled.nodup he hf heq
    · exact List.inj_on_of_nodup_map hbytes he hf (by rw [heq])
  | _ => trivial

/-- **A union representation is accepted exactly if it is unambiguous.**  Of a union of distinct
declared names the translator accepts the representations that follow the rules; the layout is
then the table as it is written, and tells the members apart. -/
theorem accepted_iff_unambiguous (scope : Scope) {members : List TypeName}
    (hdistinct : members.Nodup) (hdeclared : ∀ name ∈ members, name ∈ scope.declared)
    (representation : UnionRepresentation) :
    let names := (scope.members ⟨∅, [], scope.declared⟩ (members.map .named)).value
    ((∃ layout, (representation.layout names).get? = some layout) ↔
        representation.Unambiguous members) ∧
      ∀ layout, (representation.layout names).get? = some layout →
        representation.Tabulates scope.declared.idxOf layout ∧ layout.TellsApart ∧
          (scope.union (members.map .named) representation).get? =
            some (.union (members.map scope.declared.idxOf) layout) := by
  obtain ⟨hiff, hvalue⟩ := scope.members_eq (members.map .named) ⟨∅, [], scope.declared⟩
  have hfaults := hiff.2 ⟨by simp, by simpa using hdeclared, by
    rw [namesOf_map_named]
    exact hdistinct⟩
  have hnames : (scope.members ⟨∅, [], scope.declared⟩ (members.map .named)).value =
      .ofMembers scope.declared (members.map .named) := hvalue hfaults
  have hlocates := MemberNames.locates_ofMembers scope.declared (members.map .named)
  have hposition : Set.InjOn scope.declared.idxOf {name | name ∈ members} :=
    fun x hx y _ heq => (List.idxOf_inj (hdeclared x hx)).1 heq
  have hrules : (representation.layout (.ofMembers scope.declared (members.map .named))).faults =
      [] ↔ representation.Unambiguous members := by
    refine faults_layout_eq_nil_iff hlocates (fun name => ?_) hposition representation
    rw [MemberNames.mem_keys_ofMembers, namesOf_map_named]
  have hids : (MemberNames.ofMembers scope.declared (members.map .named)).members.values =
      members.map scope.declared.idxOf := by
    rw [MemberNames.values_ofMembers, namesOf_map_named]
    rw [namesOf_map_named]
    exact hdistinct
  intro names
  simp only [names, hnames, Checked.get?_eq_some_iff, hrules]
  refine ⟨⟨fun ⟨_, hlawful, _⟩ => hlawful, fun hlawful => ⟨_, hlawful, rfl⟩⟩, ?_⟩
  rintro layout ⟨hlawful, rfl⟩
  have hlinked := (value_layout hlocates (hrules.2 hlawful)).1
  have htabulates := hlinked ▸ hlawful.tabulates_linked hposition
  refine ⟨htabulates, htabulates.tellsApart hlawful, ?_, ?_⟩
  · rw [Scope.union, hnames]
    exact List.append_eq_nil_iff.2 ⟨hfaults, hrules.2 hlawful⟩
  · rw [Scope.union, hnames]
    exact congrArg (Body.union · _) hids

/-- Three prefixes of two members; two of them begin alike. -/
def alikePrefixes : UnionRepresentation :=
  .stringPrefix ⟨[("c:", "C"), ("a", "A"), ("c;", "A")]⟩

theorem accepted_iff_unambiguous_alikePrefixes :
    alikePrefixes.Unambiguous ["C", "A"] ∧
      ∃ layout, alikePrefixes.Tabulates ["S", "A", "C"].idxOf layout ∧ layout.TellsApart ∧
        (Scope.union ⟨.standard, id, ["S", "A", "C"], "U"⟩ [.named "C", .named "A"]
          alikePrefixes).get? = some (.union [2, 1] layout) := by
  obtain ⟨hiff, hlayout⟩ := accepted_iff_unambiguous ⟨.standard, id, ["S", "A", "C"], "U"⟩
    (by decide : ["C", "A"].Nodup) (by decide) alikePrefixes
  have hrules : alikePrefixes.Unambiguous ["C", "A"] :=
    ⟨by decide, by decide, by decide, by decide⟩
  obtain ⟨layout, haccepted⟩ := hiff.2 hrules
  exact ⟨hrules, layout, hlayout layout haccepted⟩

end UnionRepresentation
end WireSchema
