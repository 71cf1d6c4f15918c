/-!
# Entries that keep repeated keys

An object of a schema document maps names to things, and a name written twice is
a mistake that has to be reported, not settled by letting one of the two win.  So
the objects of a document are read into `Entries`: a list of pairs in the order
of the document, in which a key may occur any number of times.

Once a table has been checked its keys are distinct, and it is kept as a `Table`:
inserting under a key that is there already replaces the value in place, so the
order is that of the first insertions.
-/

namespace WireSchema

/-- Pairs of keys and values in order.  Keys may be repeated. -/
structure Entries (κ ν : Type) where
  toList : List (κ × ν)
  deriving DecidableEq

namespace Entries

variable {κ ν : Type}

/-- No entries. -/
def empty : Entries κ ν := ⟨[]⟩

instance : EmptyCollection (Entries κ ν) := ⟨empty⟩

/-- One more entry at the end, whether or not its key is there already. -/
def push (es : Entries κ ν) (key : κ) (value : ν) : Entries κ ν :=
  ⟨es.toList ++ [(key, value)]⟩

/-- How many entries there are, repetitions included. -/
def size (es : Entries κ ν) : Nat :=
  es.toList.length

/-- Whether there are no entries. -/
def isEmpty (es : Entries κ ν) : Bool :=
  es.toList.isEmpty

/-- The keys in order, repetitions included. -/
def keys (es : Entries κ ν) : List κ :=
  es.toList.map Prod.fst

/-- The values in order. -/
def values (es : Entries κ ν) : List ν :=
  es.toList.map Prod.snd

/-- The entries in the opposite order. -/
def reverse (es : Entries κ ν) : Entries κ ν :=
  ⟨es.toList.reverse⟩

/-- The entries that a test accepts. -/
def filter (keep : κ → ν → Bool) (es : Entries κ ν) : Entries κ ν :=
  ⟨es.toList.filter fun e => keep e.1 e.2⟩

variable [DecidableEq κ]

/-- The first value under a key. -/
def get? (es : Entries κ ν) (key : κ) : Option ν :=
  (es.toList.find? fun e => e.1 = key).map Prod.snd

/-- Whether a key occurs. -/
def contains (es : Entries κ ν) (key : κ) : Bool :=
  (es.get? key).isSome

/-- How many entries a key has. -/
def occurrences (es : Entries κ ν) (key : κ) : Nat :=
  (es.toList.filter fun e => e.1 = key).length

/-! ### The list of pairs as the view of every operation -/

omit [DecidableEq κ] in
@[simp] theorem toList_push (es : Entries κ ν) (key : κ) (value : ν) :
    (es.push key value).toList = es.toList ++ [(key, value)] := rfl

omit [DecidableEq κ] in
@[simp] theorem keys_push (es : Entries κ ν) (key : κ) (value : ν) :
    (es.push key value).keys = es.keys ++ [key] := by
  simp [keys]

theorem contains_iff_mem_keys (es : Entries κ ν) (key : κ) :
    es.contains key = true ↔ key ∈ es.keys := by
  simp [contains, get?, keys, List.find?_isSome]

theorem occurrences_eq_count (es : Entries κ ν) (key : κ) :
    es.occurrences key = es.keys.count key := by
  rw [occurrences, keys, List.count, List.countP_map, List.countP_eq_length_filter]
  rfl

end Entries

/-- Pairs of keys and values in order, no key repeated. -/
structure Table (κ ν : Type) where
  toList : List (κ × ν)
  nodup : (toList.map Prod.fst).Nodup
  deriving DecidableEq

namespace Table

variable {κ ν : Type}

/-- No entries. -/
def empty : Table κ ν := ⟨[], List.nodup_nil⟩

instance : EmptyCollection (Table κ ν) := ⟨empty⟩

/-- The keys in order. -/
def keys (t : Table κ ν) : List κ :=
  t.toList.map Prod.fst

/-- The values in order. -/
def values (t : Table κ ν) : List ν :=
  t.toList.map Prod.snd

variable [DecidableEq κ]

/-- The value under a key. -/
def get? (t : Table κ ν) (key : κ) : Option ν :=
  (t.toList.find? fun e => e.1 = key).map Prod.snd

/-- Whether a key has a value. -/
def contains (t : Table κ ν) (key : κ) : Bool :=
  (t.get? key).isSome

/-- A list of pairs in which the value under `key` has been replaced, or one has
been added at the end. -/
def insertList (key : κ) (value : ν) : List (κ × ν) → List (κ × ν)
  | [] => [(key, value)]
  | e :: es => if e.1 = key then (key, value) :: es else e :: insertList key value es

theorem mem_keys_insertList {key k : κ} {value : ν} {es : List (κ × ν)} :
    k ∈ (insertList key value es).map Prod.fst ↔ k = key ∨ k ∈ es.map Prod.fst := by
  induction es with
  | nil => simp [insertList]
  | cons e es ih =>
    by_cases h : e.1 = key
    · simp [insertList, h]
    · simp only [insertList, h, if_false, List.map_cons, List.mem_cons, ih]
      constructor
      · rintro (h | h | h) <;> simp [h]
      · rintro (h | h | h) <;> simp [h]

theorem nodup_insertList {key : κ} {value : ν} {es : List (κ × ν)}
    (h : (es.map Prod.fst).Nodup) : ((insertList key value es).map Prod.fst).Nodup := by
  induction es with
  | nil => simp [insertList]
  | cons e es ih =>
    rw [List.map_cons, List.nodup_cons] at h
    by_cases he : e.1 = key
    · simp only [insertList, he, if_true, List.map_cons, List.nodup_cons]
      exact he ▸ h
    · simp only [insertList, he, if_false, List.map_cons, List.nodup_cons]
      refine ⟨fun hm => ?_, ih h.2⟩
      rcases mem_keys_insertList.1 hm with hk | hm
      · exact he hk
      · exact h.1 hm

/-- The table with a value under a key: in the place of the value that was there,
or at the end. -/
def insert (t : Table κ ν) (key : κ) (value : ν) : Table κ ν :=
  ⟨insertList key value t.toList, nodup_insertList t.nodup⟩

/-- The table of a list of pairs; the last value under a key stays, in the place
of the first. -/
def ofList (es : List (κ × ν)) : Table κ ν :=
  es.foldl (fun t e => t.insert e.1 e.2) ∅

/-- Two tables say the same when they have the same keys with the same values,
in whatever order. -/
def sameEntries (eqv : ν → ν → Bool) (s t : Table κ ν) : Bool :=
  s.toList.length == t.toList.length &&
    s.toList.all fun e =>
      match t.get? e.1 with
      | some v => eqv e.2 v
      | none => false

end Table
end WireSchema
