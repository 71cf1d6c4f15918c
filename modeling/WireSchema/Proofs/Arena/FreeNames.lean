import Mathlib.Data.List.Nodup
import Mathlib.Data.List.Perm.Subperm
import Mathlib.Logic.Function.Basic
import WireSchema.Arena
import WireSchema.Proofs.Decimal.Notation

/-!
# Free names

A definition in place gets the first of a row of candidates that no type has.  The candidates
are all different (`nameCandidate_injective`), so that of one more of them than there are types
one is free, and the search comes to it (`Arena.isTaken_freeName`).

## The counter

A search is a loop that leaves a name if it is taken and stops at it if it is not, and nothing
about it says where it ends (`NameSearch`).  It numbers names with a counter of 32 bits.  What
happens when that is at its greatest value is not the same everywhere (`Overflow`): either the
program stops, or the counter goes on with its least value, so that after all numbers it comes to
the first one again.  Either way there are finitely many names to try, and a search ends with a
name exactly if one of them is free (`NameSearch.exists_iff`).  It is so if there are fewer types
than candidates, and then the name is that of `Arena.freeName` (`Arena.nameSearch_iff`), whatever
the types are called, and also if they are called like candidates.

With a type for every candidate there is no such name (`Arena.not_nameSearch_crowded`).
-/

namespace WireSchema

/-! ## Candidates -/

theorem counterAt_of_lt {k : Nat} (h : k < 2 ^ 32 + 2) : counterAt k = (Int32.ofNat k).toInt :=
  if_pos h

/-- **The counter stands at no number twice** from two on. -/
theorem counterAt_inj {k l : Nat} (hk : 2 ≤ k) (hl : 2 ≤ l) (h : counterAt k = counterAt l) :
    k = l := by
  have hbelow : ∀ n : Nat, (Int32.ofNat n).toInt < 2 ^ 31 := fun n => Int32.toInt_lt _
  have hsize : Int32.size = 2 ^ 32 := rfl
  unfold counterAt at h
  split at h
  · split at h
    · rw [Int32.toInt_ofNat', Int32.toInt_ofNat'] at h
      have hmod : (k : Int) % Int32.size = l % Int32.size := by
        rw [← Int.bmod_emod, h, Int.bmod_emod]
      rw [hsize] at hmod
      omega
    · have := hbelow k
      omega
  · split at h
    · have := hbelow l
      omega
    · omega

/-- Every candidate behind the first is longer than the first, and every one behind the second
longer than the second. -/
theorem length_nameCandidate (base short : String) (k : Nat) :
    base.length < (nameCandidate base short (k + 1)).length ∧
      (nameCandidate base short 1).length < (nameCandidate base short (k + 2)).length := by
  have hmark : "__".length = 2 := rfl
  have hcounter : "_".length = 1 := rfl
  refine ⟨?_, ?_⟩
  · cases k <;> simp only [nameCandidate, numbered, String.length_append] <;> omega
  · simp only [nameCandidate, numbered, String.length_append]
    omega

/-- **No candidate comes twice.** -/
theorem nameCandidate_injective (base short : String) :
    Function.Injective (nameCandidate base short) := by
  intro k l h
  have hlength := congrArg String.length h
  match k, l with
  | 0, 0 => rfl
  | 0, l + 1 => exact absurd hlength (Nat.ne_of_lt (length_nameCandidate base short l).1)
  | k + 1, 0 => exact absurd hlength (Nat.ne_of_gt (length_nameCandidate base short k).1)
  | 1, 1 => rfl
  | 1, l + 2 => exact absurd hlength (Nat.ne_of_lt (length_nameCandidate base short l).2)
  | k + 2, 1 => exact absurd hlength (Nat.ne_of_gt (length_nameCandidate base short k).2)
  | k + 2, l + 2 =>
    have htext := String.ofList_inj.1 ((String.append_right_inj _).1 h)
    exact counterAt_inj (Nat.le_add_left ..) (Nat.le_add_left ..)
      (Decimal.intText_injective htext)

/-! ## The bounded search -/

/-- A bounded search ends with a candidate, and those before it are taken.  It ends with a taken
one only at its bound. -/
theorem exists_firstFree_eq (isTaken : TypeName → Bool) (candidate : Nat → TypeName)
    (fuel k : Nat) : ∃ j ≤ fuel, firstFree isTaken candidate fuel k = candidate (k + j) ∧
      (∀ i < j, isTaken (candidate (k + i)) = true) ∧
        (isTaken (candidate (k + j)) = true → j = fuel) := by
  induction fuel generalizing k with
  | zero =>
    exact ⟨0, Nat.le_refl 0, rfl, fun i hi => absurd hi (Nat.not_lt_zero i), fun _ => rfl⟩
  | succ fuel ih =>
    rw [firstFree]
    split
    · next hfirst =>
      obtain ⟨j, hj, hname, hbefore, hlast⟩ := ih (k + 1)
      refine ⟨j + 1, Nat.succ_le_succ hj, ?_, fun i hi => ?_, fun h => ?_⟩
      · rw [hname, Nat.succ_add_eq_add_succ]
      · cases i with
        | zero => exact hfirst
        | succ i =>
          rw [← Nat.succ_add_eq_add_succ]
          exact hbefore i (Nat.lt_of_succ_lt_succ hi)
      · rw [← Nat.succ_add_eq_add_succ] at h
        exact congrArg Nat.succ (hlast h)
    · next hfirst =>
      exact ⟨0, Nat.zero_le _, rfl, fun i hi => absurd hi (Nat.not_lt_zero i),
        fun h => absurd h hfirst⟩

/-- **Among more different names than are taken one is free.** -/
theorem exists_free {isTaken : TypeName → Bool} {candidate : Nat → TypeName}
    (hcandidate : Function.Injective candidate) {taken : List TypeName}
    (htaken : ∀ name, isTaken name = true → name ∈ taken) :
    ∃ k ≤ taken.length, isTaken (candidate k) = false := by
  by_contra hnone
  have hall : ∀ k ≤ taken.length, isTaken (candidate k) = true := fun k hk =>
    Bool.eq_true_of_not_eq_false fun hfree => hnone ⟨k, hk, hfree⟩
  have hnodup : ((List.range (taken.length + 1)).map candidate).Nodup :=
    List.nodup_range.map hcandidate
  have hsubset : (List.range (taken.length + 1)).map candidate ⊆ taken := by
    intro name hname
    obtain ⟨k, hk, rfl⟩ := List.mem_map.1 hname
    exact htaken _ (hall k (Nat.le_of_lt_succ (List.mem_range.1 hk)))
  have hlength := (hnodup.subperm hsubset).length_le
  rw [List.length_map, List.length_range] at hlength
  exact Nat.lt_irrefl _ hlength

namespace Arena

/-- The names that are tried for a definition in place. -/
def candidates (a : Arena) (keyword : String) (body : Option Body) (digest : String) :
    Nat → TypeName :=
  nameCandidate (a.baseName keyword body digest) (shortDigest digest)

theorem isTaken_iff {a : Arena} {name : TypeName} :
    a.isTaken name = true ↔ name ∈ a.slots.map Slot.name := by
  simp only [isTaken, List.any_eq_true, decide_eq_true_eq, List.mem_map]

/-- One of the candidates is free, of which there are more than types. -/
theorem exists_free_candidate (a : Arena) (keyword : String) (body : Option Body)
    (digest : String) :
    ∃ k ≤ a.slots.length, a.isTaken (a.candidates keyword body digest k) = false := by
  have hfree := exists_free (nameCandidate_injective (a.baseName keyword body digest)
    (shortDigest digest)) fun name => (isTaken_iff (a := a)).1
  rwa [List.length_map] at hfree

/-- The name of a definition in place is the first candidate that is free. -/
theorem exists_freeName_eq (a : Arena) (keyword : String) (body : Option Body) (digest : String) :
    ∃ k ≤ a.slots.length, a.freeName keyword body digest = a.candidates keyword body digest k ∧
      a.isTaken (a.freeName keyword body digest) = false ∧
        ∀ i < k, a.isTaken (a.candidates keyword body digest i) = true := by
  obtain ⟨k, hk, hname, hbefore, hlast⟩ :=
    exists_firstFree_eq a.isTaken (a.candidates keyword body digest) a.slots.length 0
  simp only [Nat.zero_add] at hname hbefore hlast
  refine ⟨k, hk, hname, ?_, hbefore⟩
  have hfree : a.isTaken (a.candidates keyword body digest k) = false := by
    by_contra htaken
    obtain rfl := hlast (Bool.eq_true_of_not_eq_false htaken)
    obtain ⟨i, hi, hfree⟩ := a.exists_free_candidate keyword body digest
    rcases Nat.lt_or_eq_of_le hi with hlt | rfl
    · exact absurd (hbefore i hlt) (Bool.eq_false_iff.1 hfree)
    · exact htaken hfree
  exact (congrArg a.isTaken hname).trans hfree

/-- **No type has the name that a definition in place gets.** -/
theorem isTaken_freeName (a : Arena) (keyword : String) (body : Option Body) (digest : String) :
    a.isTaken (a.freeName keyword body digest) = false := by
  obtain ⟨k, -, -, hfree, -⟩ := a.exists_freeName_eq keyword body digest
  exact hfree

end Arena

/-! ## The search -/

/-- What happens to a counter at its greatest value. -/
inductive Overflow where
  /-- The program stops. -/
  | stops
  /-- The counter goes on with its least value. -/
  | wraps

namespace Overflow

/-- The counter with one added to it; none if the program stops. -/
def next? : Overflow → Int32 → Option Int32
  | .stops, n => if n = Int32.maxValue then none else some (n + 1)
  | .wraps, n => some (n + 1)

/-- How many names there are to try. -/
def candidates : Overflow → Nat
  | .stops => 2 ^ 31
  | .wraps => 2 ^ 32 + 2

theorem candidates_le (o : Overflow) : o.candidates ≤ 2 ^ 32 + 2 := by
  cases o <;> decide

theorem two_lt_candidates (o : Overflow) : 2 < o.candidates := by
  cases o <;> decide

/-- The counter goes from one number to the next. -/
theorem next?_ofNat (o : Overflow) {k : Nat} (h : k + 1 < o.candidates) :
    o.next? (Int32.ofNat k) = some (Int32.ofNat (k + 1)) := by
  rw [Int32.ofNat_add]
  cases o with
  | wraps => rfl
  | stops =>
    have hlt : k + 1 < 2 ^ 31 := h
    have hne : Int32.ofNat k ≠ Int32.maxValue := by
      intro heq
      have hint := congrArg Int32.toInt heq
      rw [Int32.toInt_ofNat_of_lt (by omega), Int32.toInt_maxValue] at hint
      omega
    rw [next?, if_neg hne]
    rfl

/-- Behind its last number the counter is at an end, or back at the first of all. -/
theorem next?_last {o : Overflow} {m : Int32}
    (h : o.next? (Int32.ofNat (o.candidates - 1)) = some m) : m = Int32.ofNat 2 := by
  cases o with
  | wraps => exact (Option.some.inj h).symm.trans (by decide)
  | stops =>
    have hnone : stops.next? (Int32.ofNat (stops.candidates - 1)) = none := by decide
    cases hnone.symm.trans h

end Overflow

/-- A search that has come to a number: it ends with a name, or as the program stops. -/
inductive NumberSearch (o : Overflow) (isTaken : TypeName → Bool) (base short : String) :
    Int32 → TypeName → Option TypeName → Prop
  | free {n : Int32} {name : TypeName} (free : isTaken name = false) :
      NumberSearch o isTaken base short n name (some name)
  | stop {n : Int32} {name : TypeName} (taken : isTaken name = true) (last : o.next? n = none) :
      NumberSearch o isTaken base short n name none
  | taken {n m : Int32} {name : TypeName} {found : Option TypeName} (taken : isTaken name = true)
      (next : o.next? n = some m)
      (rest : NumberSearch o isTaken base short m (numbered base short m.toInt) found) :
      NumberSearch o isTaken base short n name found

/-- A search for a name: the base, the base with the digest behind it, and then with numbers. -/
inductive NameSearch (o : Overflow) (isTaken : TypeName → Bool) (base short : String) :
    Option TypeName → Prop
  | base (free : isTaken base = false) : NameSearch o isTaken base short (some base)
  | numbers {found : Option TypeName} (taken : isTaken base = true)
      (rest : NumberSearch o isTaken base short 1 (base ++ "__" ++ short) found) :
      NameSearch o isTaken base short found

section

variable {o : Overflow} {isTaken : TypeName → Bool} {base short : String}
  {found found' : Option TypeName}

/-- A search has one end only. -/
theorem NumberSearch.unique {n : Int32} {name : TypeName}
    (h : NumberSearch o isTaken base short n name found)
    (h' : NumberSearch o isTaken base short n name found') : found = found' := by
  induction h with
  | free hfree =>
    cases h' with
    | free => rfl
    | stop htaken => exact absurd (hfree.symm.trans htaken) (by decide)
    | taken htaken => exact absurd (hfree.symm.trans htaken) (by decide)
  | stop htaken hlast =>
    cases h' with
    | free hfree => exact absurd (hfree.symm.trans htaken) (by decide)
    | stop => rfl
    | taken _ hnext => cases hlast.symm.trans hnext
  | taken htaken hnext _ ih =>
    cases h' with
    | free hfree => exact absurd (hfree.symm.trans htaken) (by decide)
    | stop _ hlast => cases hlast.symm.trans hnext
    | taken _ hnext' hrest =>
      obtain rfl := Option.some.inj (hnext.symm.trans hnext')
      exact ih hrest

theorem NameSearch.unique (h : NameSearch o isTaken base short found)
    (h' : NameSearch o isTaken base short found') : found = found' := by
  cases h with
  | base hfree =>
    cases h' with
    | base => rfl
    | numbers htaken => exact absurd (hfree.symm.trans htaken) (by decide)
  | numbers htaken hrest =>
    cases h' with
    | base hfree => exact absurd (hfree.symm.trans htaken) (by decide)
    | numbers _ hrest' => exact hrest.unique hrest'

/-- The numbered candidates have what the counter stands at behind them. -/
theorem numbered_ofNat {k : Nat} (hk : 2 ≤ k) (hlt : k < o.candidates) :
    numbered base short (Int32.ofNat k).toInt = nameCandidate base short k := by
  obtain ⟨k, rfl⟩ := Nat.exists_eq_add_of_le' hk
  rw [nameCandidate, counterAt_of_lt (Nat.lt_of_lt_of_le hlt o.candidates_le)]

/-- A search comes to a free candidate behind taken ones. -/
theorem NumberSearch.of_taken {j k : Nat} (hk : 1 ≤ k) (hlt : k + j < o.candidates)
    (hfree : isTaken (nameCandidate base short (k + j)) = false)
    (htaken : ∀ i < j, isTaken (nameCandidate base short (k + i)) = true) :
    NumberSearch o isTaken base short (Int32.ofNat k) (nameCandidate base short k)
      (some (nameCandidate base short (k + j))) := by
  induction j generalizing k with
  | zero => exact .free hfree
  | succ j ih =>
    have hshift : ∀ i, k + (i + 1) = k + 1 + i := fun i => by omega
    rw [hshift] at hlt hfree ⊢
    have hnext : k + 1 < o.candidates := Nat.lt_of_le_of_lt (Nat.le_add_right ..) hlt
    refine .taken (htaken 0 (Nat.succ_pos j)) (o.next?_ofNat hnext) ?_
    rw [numbered_ofNat (Nat.succ_le_succ hk) hnext]
    refine ih (Nat.le_succ_of_le hk) hlt hfree fun i hi => ?_
    rw [← hshift]
    exact htaken (i + 1) (Nat.succ_lt_succ hi)

theorem NameSearch.of_taken {k : Nat} (hlt : k < o.candidates)
    (hfree : isTaken (nameCandidate base short k) = false)
    (htaken : ∀ i < k, isTaken (nameCandidate base short i) = true) :
    NameSearch o isTaken base short (some (nameCandidate base short k)) := by
  cases k with
  | zero => exact .base hfree
  | succ k =>
    refine .numbers (htaken 0 (Nat.succ_pos k)) ?_
    rw [Nat.add_comm] at hlt hfree ⊢
    exact .of_taken (Nat.le_refl 1) hlt hfree fun i hi =>
      htaken (1 + i) (Nat.add_comm i 1 ▸ Nat.succ_lt_succ hi)

/-- What a search ends with is a candidate that is free.  The counter always stands at one of its
numbers, from whichever it has come round. -/
theorem NumberSearch.exists_candidate {n : Int32} {first : TypeName}
    (h : NumberSearch o isTaken base short n first found) {name : TypeName}
    (hfound : found = some name) {k : Nat} (hk : 1 ≤ k) (hlt : k < o.candidates)
    (hn : n = Int32.ofNat k) (hfirst : first = nameCandidate base short k) :
    ∃ i < o.candidates, name = nameCandidate base short i ∧ isTaken name = false := by
  induction h generalizing k with
  | free hfree =>
    obtain rfl := Option.some.inj hfound
    exact ⟨k, hlt, hfirst, hfree⟩
  | stop => cases hfound
  | taken _ hnext _ ih =>
    subst hn
    by_cases hlast : k + 1 < o.candidates
    · obtain rfl := Option.some.inj ((o.next?_ofNat hlast).symm.trans hnext)
      exact ih hfound (Nat.le_succ_of_le hk) hlast rfl
        (numbered_ofNat (Nat.succ_le_succ hk) hlast)
    · obtain rfl : k = o.candidates - 1 := by omega
      obtain rfl := Overflow.next?_last hnext
      exact ih hfound (by decide) o.two_lt_candidates rfl
        (numbered_ofNat (Nat.le_refl 2) o.two_lt_candidates)

theorem NameSearch.exists_candidate {name : TypeName}
    (h : NameSearch o isTaken base short (some name)) :
    ∃ i < o.candidates, name = nameCandidate base short i ∧ isTaken name = false := by
  cases h with
  | base hfree => exact ⟨0, Nat.zero_lt_of_lt o.two_lt_candidates, rfl, hfree⟩
  | numbers _ hrest =>
    exact hrest.exists_candidate rfl (Nat.le_refl 1) (Nat.lt_of_succ_lt o.two_lt_candidates) rfl rfl

/-- **A search ends with a name exactly if one of the candidates is free.** -/
theorem NameSearch.exists_iff : (∃ name, NameSearch o isTaken base short (some name)) ↔
    ∃ k < o.candidates, isTaken (nameCandidate base short k) = false := by
  constructor
  · rintro ⟨name, h⟩
    obtain ⟨k, hk, rfl, hfree⟩ := h.exists_candidate
    exact ⟨k, hk, hfree⟩
  · intro hexists
    obtain ⟨hlt, hfree⟩ := Nat.find_spec hexists
    refine ⟨_, .of_taken hlt hfree fun i hi => Bool.eq_true_of_not_eq_false fun hi' => ?_⟩
    exact Nat.find_min hexists hi ⟨hi.trans hlt, hi'⟩

end

/-! ## The names of definitions in place -/

namespace Arena

/-- **The search for a name ends with a free one, if there are more candidates than types.**  In
every arena, for every definition, content and digest, the search has one end then, which is the
name that the definition gets.  No type has this name, declared or anonymous; and the search looks
at no more than one candidate more than there are types. -/
theorem nameSearch_iff (o : Overflow) (a : Arena) (hroom : a.slots.length < o.candidates)
    (d : Definition) (body : Option Body) (digest : String) :
    let name := a.freeName d.keyword body digest
    (∀ found, NameSearch o a.isTaken (a.baseName d.keyword body digest) (shortDigest digest)
      found ↔ found = some name) ∧
      (∀ slot ∈ a.slots, slot.name ≠ name) ∧
        ∃ k ≤ a.slots.length, name = a.candidates d.keyword body digest k ∧
          ∀ j < k, ∃ slot ∈ a.slots, slot.name = a.candidates d.keyword body digest j := by
  obtain ⟨k, hk, hname, hfree, hbefore⟩ := a.exists_freeName_eq d.keyword body digest
  have hsearch : NameSearch o a.isTaken (a.baseName d.keyword body digest) (shortDigest digest)
      (some (a.freeName d.keyword body digest)) := by
    rw [hname] at hfree ⊢
    exact .of_taken (Nat.lt_of_le_of_lt hk hroom) hfree hbefore
  refine ⟨fun found => ⟨fun h => h.unique hsearch, fun h => h ▸ hsearch⟩, fun slot hslot h => ?_,
    k, hk, hname, fun j hj => ?_⟩
  · exact absurd (isTaken_iff.2 (List.mem_map.2 ⟨slot, hslot, h⟩)) (Bool.eq_false_iff.1 hfree)
  · exact List.mem_map.1 (isTaken_iff.1 (hbefore j hj))

/-- Declared types of which two are called like candidates. -/
def alikeNames : Arena :=
  ofDeclared ["Link__Any", "Link__Any__0123abcd", "Link__Any__0123abcd_2"]

theorem nameSearch_iff_alikeNames :
    alikeNames.slots.length < Overflow.stops.candidates ∧
      NameSearch .stops alikeNames.isTaken
        (alikeNames.baseName (Definition.link none).keyword (some (.link none)) "0123abcdef")
        (shortDigest "0123abcdef") (some "Link__Any__0123abcd_3") := by
  have hroom : alikeNames.slots.length < Overflow.stops.candidates := by decide
  have hname : alikeNames.freeName (Definition.link none).keyword (some (.link none))
      "0123abcdef" = "Link__Any__0123abcd_3" := by decide +kernel
  obtain ⟨hsearch, -⟩ := nameSearch_iff .stops alikeNames hroom (.link none) (some (.link none))
    "0123abcdef"
  exact ⟨hroom, (hsearch _).2 (congrArg some hname.symm)⟩

/-- A declared type for every candidate that a link to any type has. -/
def crowded (o : Overflow) : Arena :=
  ofDeclared ((List.range o.candidates).map (nameCandidate "Link__Any" "0123abcd"))

theorem isTaken_crowded {o : Overflow} {k : Nat} (h : k < o.candidates) :
    (crowded o).isTaken (nameCandidate "Link__Any" "0123abcd" k) = true := by
  rw [isTaken_iff, crowded, ofDeclared, List.map_map]
  exact List.mem_map.2 ⟨_, List.mem_map_of_mem (List.mem_range.2 h), rfl⟩

/-- In a crowded arena there is no name that the search would end with. -/
theorem not_nameSearch_crowded :
    (¬ ∃ name, NameSearch .stops (crowded .stops).isTaken
      ((crowded .stops).baseName (Definition.link none).keyword (some (.link none)) "0123abcdef")
      (shortDigest "0123abcdef") (some name)) ∧
    ¬ ∃ name, NameSearch .wraps (crowded .wraps).isTaken
      ((crowded .wraps).baseName (Definition.link none).keyword (some (.link none)) "0123abcdef")
      (shortDigest "0123abcdef") (some name) := by
  have hshort : shortDigest "0123abcdef" = "0123abcd" := by decide
  have hnone : ∀ o : Overflow, ¬ ∃ name, NameSearch o (crowded o).isTaken "Link__Any"
      (shortDigest "0123abcdef") (some name) := by
    intro o hexists
    rw [hshort] at hexists
    obtain ⟨k, hk, hfree⟩ := NameSearch.exists_iff.1 hexists
    exact absurd (isTaken_crowded hk) (Bool.eq_false_iff.1 hfree)
  exact ⟨hnone .stops, hnone .wraps⟩

end Arena
end WireSchema
