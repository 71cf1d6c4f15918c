import WireSchema.Proofs.Decimal.Notation
import WireSchema.Proofs.Layout.Tables
import WireSchema.Proofs.Text.Quoted
import WireSchema.Proofs.Text.Words
import WireSchema.TypeSystem.Language

/-!
# The parts of a type in the schema language

What the schema language writes of a type is put together from flags, clauses in parentheses, and
words for the representation.  Each part says what it stands for:

* The words in front of the name of a type say which flags it has, by their number and by the
  first of them (`flagWords_inj`).  The name may itself be `optional` or `nullable`: it is the last
  word, and a flag never is.
* A clause says what the details of a field are (`FieldDetails.clause_inj`), unless a double is
  among them: `2.0` and `2` are both written `2`.
* The words for the representation of a struct say which one it is, once the fields are known
  (`StructLayout.words_inj`), since a field order that is the declared one is left out.
* What stands behind the members of an enum says what their wire values are
  (`EnumLayout.eq_of_clauses`), since only the member's own name is left out.
-/

namespace WireSchema

open Text

/-! ## Lists and tables -/

/-- If equal values of one function come from equal values of another, lists that look equal
through the first look equal through the second. -/
theorem map_eq_map_of_imp {α β γ δ : Type} {f : α → γ} {g : β → γ} {f' : α → δ} {g' : β → δ} :
    ∀ {as : List α} {bs : List β}, (∀ a ∈ as, ∀ b ∈ bs, f a = g b → f' a = g' b) →
      as.map f = bs.map g → as.map f' = bs.map g'
  | [], [], _, _ => rfl
  | a :: as, b :: bs, himp, h => by
    rw [List.map_cons, List.map_cons, List.cons.injEq] at h
    rw [List.map_cons, List.map_cons, himp a (List.mem_cons_self ..) b (List.mem_cons_self ..) h.1,
      map_eq_map_of_imp (fun x hx y hy => himp x (List.mem_cons_of_mem _ hx) y
        (List.mem_cons_of_mem _ hy)) h.2]

theorem eq_of_map_eq_map {α γ : Type} {f g : α → γ} {as bs : List α}
    (himp : ∀ a ∈ as, ∀ b ∈ bs, f a = g b → a = b) (h : as.map f = bs.map g) : as = bs := by
  rw [← List.map_id as, ← List.map_id bs]
  exact map_eq_map_of_imp himp h

theorem Table.exists_get? {κ ν : Type} [DecidableEq κ] {t : Table κ ν} {key : κ}
    (h : key ∈ t.keys) : ∃ value, t.get? key = some value :=
  Option.isSome_iff_exists.1 (contains_iff.2 h)

/-- A table is its keys in order with their values. -/
theorem Table.ext_get? {κ ν : Type} [DecidableEq κ] {s t : Table κ ν} (hkeys : s.keys = t.keys)
    (hget : ∀ key ∈ s.keys, s.get? key = t.get? key) : s = t := by
  refine ext_toList (eq_of_map_eq_map (fun d hd e he hkey => ?_) hkeys)
  have hvalue := hget d.1 (List.mem_map_of_mem hd)
  rw [get?_eq_some_iff.2 hd, hkey, get?_eq_some_iff.2 he, Option.some.injEq] at hvalue
  exact Prod.ext hkey hvalue

/-! ## Flags -/

/-- The words for a type with its flags: at most two flags, and the name of the type last. -/
def flagWords (optional nullable : Bool) (type : TypeName) : List String :=
  (if optional then ["optional"] else []) ++ (if nullable then ["nullable"] else []) ++ [type]

theorem spaced_flagWords_append (optional nullable : Bool) (type r : String) :
    spaced (flagWords optional nullable type) ++ r =
      " " ++ ((if optional then "optional " else "") ++
        (nullableWord nullable ++ (type ++ r))) := by
  cases optional <;> cases nullable <;>
    simp [flagWords, nullableWord, spaced_cons_append, ← String.toList_inj]

theorem isWord_flagWords {optional nullable : Bool} {type : TypeName} (h : IsWord type) :
    ∀ w ∈ flagWords optional nullable type, IsWord w := by
  refine List.forall_mem_append.2 ⟨List.forall_mem_append.2 ⟨?_, ?_⟩, by simpa using h⟩
  · split <;> decide
  · split <;> decide

/-- The words for a type say which flags it has: their number says how many, the first of them
which. -/
theorem flagWords_inj {o n o' n' : Bool} {type type' : TypeName}
    (h : flagWords o n type = flagWords o' n' type') : o = o' ∧ n = n' ∧ type = type' := by
  cases o <;> cases n <;> cases o' <;> cases n' <;> simp_all [flagWords]

/-- The flag and the name of a value type, in front of what ends a row. -/
theorem value_append_inj {n n' : Bool} {type type' r r' : String} (ht : IsWord type)
    (ht' : IsWord type') (hr : EndsRow r) (hr' : EndsRow r')
    (h : nullableWord n ++ (type ++ r) = nullableWord n' ++ (type' ++ r')) :
    n = n' ∧ type = type' ∧ r = r' := by
  have hspaced : spaced (flagWords false n type) ++ r =
      spaced (flagWords false n' type') ++ r' := by
    rw [spaced_flagWords_append, spaced_flagWords_append, h]
  obtain ⟨hwords, rfl⟩ :=
    spaced_append_inj (isWord_flagWords ht) (isWord_flagWords ht') hr hr' hspaced
  obtain ⟨-, hn, htype⟩ := flagWords_inj hwords
  exact ⟨hn, htype, rfl⟩

/-! ## Implicit values -/

/-- The kind of a literal, by its first character.  A float is taken for a whole number. -/
def literalKind (c : Char) : Kind :=
  if c = '"' then .string else if c = 't' ∨ c = 'f' then .bool else .int

theorem exists_intText_eq_cons (i : Int) :
    ∃ c cs, Decimal.intText i = c :: cs ∧ literalKind c = .int := by
  rw [Decimal.intText]
  split
  · exact ⟨_, _, rfl, by decide⟩
  · obtain ⟨c, hc, hdigit⟩ := Decimal.head?_digitsText i.natAbs
    obtain ⟨cs, hcs⟩ := List.head?_eq_some_iff.1 hc
    refine ⟨c, cs, hcs, ?_⟩
    simp [literalKind, Decimal.ne_of_isDigit hdigit]

theorem newline_notMem_intText (i : Int) : '\n' ∉ Decimal.intText i := by
  have hdigits : '\n' ∉ Decimal.digitsText i.natAbs := fun h =>
    absurd (Decimal.isDigit_of_mem_digitsText h) (by decide)
  rw [Decimal.intText]
  split
  · exact List.not_mem_cons_of_ne_of_not_mem (by decide) hdigits
  · exact hdigits

namespace ImplicitValue

/-- Whether an implicit value is a double. -/
def IsFloat (v : ImplicitValue) : Prop :=
  v.kind = .float

instance (v : ImplicitValue) : Decidable v.IsFloat :=
  inferInstanceAs (Decidable (_ = _))

theorem exists_literal_eq_cons {v : ImplicitValue} (hv : ¬ v.IsFloat) :
    ∃ c cs, v.literal.toList = c :: cs ∧ literalKind c = v.kind := by
  cases v with
  | bool b => cases b <;> exact ⟨_, _, rfl, rfl⟩
  | int i =>
    rw [literal, String.toList_ofList]
    exact exists_intText_eq_cons i
  | float x => exact absurd rfl hv
  | string s =>
    rw [literal, toList_quoted]
    exact ⟨_, _, rfl, rfl⟩

/-- A literal says which value it is, unless it is a double: a whole double is written like a
whole number. -/
theorem literal_inj {v w : ImplicitValue} (hv : ¬ v.IsFloat) (hw : ¬ w.IsFloat)
    (h : v.literal = w.literal) : v = w := by
  have hkind : v.kind = w.kind := by
    obtain ⟨c, cs, hc, hvc⟩ := exists_literal_eq_cons hv
    obtain ⟨d, ds, hd, hwd⟩ := exists_literal_eq_cons hw
    rw [h, hd] at hc
    cases hc
    rw [← hvc, hwd]
  cases v <;> cases w <;> cases hkind
  case bool.bool a b => cases a <;> cases b <;> first | rfl | (revert h; decide)
  case int.int i j => rw [Decimal.intText_injective (String.ofList_inj.1 h)]
  case float.float => exact absurd rfl hv
  case string.string s t => rw [quoted_injective h]

theorem newline_notMem_literal {v : ImplicitValue} (hv : ¬ v.IsFloat) :
    '\n' ∉ v.literal.toList := by
  cases v with
  | bool b => cases b <;> decide
  | int i =>
    rw [literal, String.toList_ofList]
    exact newline_notMem_intText i
  | float x => exact absurd rfl hv
  | string s => simp [literal]

end ImplicitValue

/-! ## Details of fields -/

namespace FieldDetails

/-- What stands behind the rename of a field, up to the parenthesis. -/
def implicitPart (renamed : Bool) : Option ImplicitValue → String
  | none => ")"
  | some value => (if renamed then " " else "") ++ ("implicit " ++ (value.literal ++ ")"))

theorem implicitPart_inj {renamed : Bool} {i j : Option ImplicitValue}
    (hi : ∀ v ∈ i, ¬ v.IsFloat) (hj : ∀ v ∈ j, ¬ v.IsFloat)
    (h : implicitPart renamed i = implicitPart renamed j) : i = j := by
  match i, j with
  | none, none => rfl
  | none, some v | some v, none =>
    cases renamed <;> simp [implicitPart, ← String.toList_inj] at h
  | some v, some w =>
    rw [implicitPart, implicitPart, String.append_right_inj, String.append_right_inj,
      String.append_left_inj] at h
    rw [ImplicitValue.literal_inj (hi v rfl) (hj w rfl) h]

theorem clause_eq (d : FieldDetails) :
    d.clause = " (" ++
      match d.rename with
      | none => implicitPart false d.implicit
      | some wire => "rename " ++ (quoted wire ++ implicitPart true d.implicit) := by
  obtain ⟨rename, implicit⟩ := d
  cases rename <;> cases implicit <;> simp [clause, implicitPart, ← String.toList_inj]

/-- The details of a field say what they are, if none of them is a double. -/
theorem clause_inj {d e : FieldDetails} (hd : ∀ v ∈ d.implicit, ¬ v.IsFloat)
    (he : ∀ v ∈ e.implicit, ¬ v.IsFloat) (h : d.clause = e.clause) : d = e := by
  obtain ⟨rename, implicit⟩ := d
  obtain ⟨rename', implicit'⟩ := e
  rw [clause_eq, clause_eq, String.append_right_inj] at h
  match rename, rename' with
  | none, none =>
    obtain rfl : implicit = implicit' := implicitPart_inj hd he h
    rfl
  | none, some wire | some wire, none =>
    cases implicit <;> cases implicit' <;> simp [implicitPart, ← String.toList_inj] at h
  | some wire, some wire' =>
    rw [String.append_right_inj] at h
    obtain ⟨rfl, hrest⟩ := quoted_append_inj h
    obtain rfl : implicit = implicit' := implicitPart_inj hd he hrest
    rfl

theorem newline_notMem_clause {d : FieldDetails} (hd : ∀ v ∈ d.implicit, ¬ v.IsFloat) :
    '\n' ∉ d.clause.toList := by
  have hpart : ∀ renamed, '\n' ∉ (implicitPart renamed d.implicit).toList := by
    intro renamed
    cases himplicit : d.implicit with
    | none => simp [implicitPart]
    | some v =>
      cases renamed <;> simp [implicitPart, ImplicitValue.newline_notMem_literal (hd v himplicit)]
  rw [clause_eq]
  cases hrename : d.rename with
  | none => simp [hpart]
  | some wire => simp [hpart]

end FieldDetails

/-- A row of words ends in front of a clause in parentheses. -/
theorem endsRow_parenthesis (s : String) : EndsRow (" (" ++ s) := by
  refine ⟨endsWord_append (by decide) (by decide) _, fun rest hrest => ?_⟩
  rw [show " (" = " " ++ "(" by decide, String.append_assoc, String.append_right_inj] at hrest
  rw [← hrest]
  exact endsWord_append (by decide) (by decide) _

theorem endsRow_empty : EndsRow "" := by
  refine ⟨by decide, fun rest hrest => ?_⟩
  simp [← String.toList_inj] at hrest

/-- The details of a field are in no clause if there are none. -/
theorem StructLayout.endsRow_fieldClause (layout : StructLayout) (field : FieldName) :
    EndsRow (layout.fieldClause field) := by
  cases layout with
  | map details =>
    rw [fieldClause]
    split
    · rw [FieldDetails.clause_eq]
      exact endsRow_parenthesis _
    · exact endsRow_empty
  | _ => exact endsRow_empty

/-! ## Representations of maps and structs -/

namespace PairDelimiters

/-- What stands behind the word `stringpairs`. -/
def settings (d : PairDelimiters) : String :=
  " \x7b\n\tinnerDelim " ++ (quoted d.inner ++ ("\n\tentryDelim " ++ (quoted d.entry ++ "\n\x7d")))

theorem block_eq (d : PairDelimiters) : d.block = "stringpairs" ++ d.settings := by
  unfold block settings
  simp [← String.toList_inj]

/-- Delimiters say what they are. -/
theorem settings_inj {d e : PairDelimiters} (h : d.settings = e.settings) : d = e := by
  obtain ⟨inner, entry⟩ := d
  obtain ⟨inner', entry'⟩ := e
  unfold settings at h
  rw [String.append_right_inj] at h
  obtain ⟨rfl, hrest⟩ := quoted_append_inj h
  rw [String.append_right_inj] at hrest
  obtain ⟨rfl, -⟩ := quoted_append_inj hrest
  rfl

end PairDelimiters

namespace MapRepresentation

/-- The words behind a map for its representation. -/
def words : MapRepresentation → String
  | .map => ""
  | .listPairs => " representation listpairs"
  | .stringPairs d => " representation " ++ d.block

/-- A map shows its representation. -/
theorem words_inj {l l' : MapRepresentation} (h : l.words = l'.words) : l = l' := by
  match l, l' with
  | .map, .map | .listPairs, .listPairs => rfl
  | .stringPairs d, .stringPairs e =>
    have hblock : d.block = e.block := (String.append_right_inj " representation ").1 h
    rw [PairDelimiters.block_eq, PairDelimiters.block_eq, String.append_right_inj] at hblock
    rw [PairDelimiters.settings_inj hblock]
  | .map, .listPairs | .listPairs, .map | .map, .stringPairs d | .stringPairs d, .map
  | .listPairs, .stringPairs d | .stringPairs d, .listPairs =>
    unfold words at h
    simp [PairDelimiters.block_eq, ← String.toList_inj] at h

end MapRepresentation

namespace StructLayout

/-- The word for the representation of a struct. -/
def word : StructLayout → String
  | .map _ => "map"
  | .tuple _ => "tuple"
  | .stringPairs _ => "stringpairs"
  | .stringJoin .. => "stringjoin"
  | .listPairs => "listpairs"

/-- What stands behind the word for the representation of a struct. -/
def settings (declared : List FieldName) : StructLayout → String
  | .tuple order =>
      if order = declared then "" else " \x7b\n\tfieldOrder " ++ (quotedList order ++ "\n\x7d")
  | .stringPairs d => d.settings
  | .stringJoin join order =>
      " \x7b\n\tjoin " ++ (quoted join ++ ("\n" ++
        if order = declared then "\x7d" else "\tfieldOrder " ++ (quotedList order ++ "\n\x7d")))
  | _ => ""

theorem words_eq (declared : List FieldName) (l : StructLayout) :
    l.words declared = l.word ++ l.settings declared := by
  unfold words settings
  cases l with
  | stringPairs d => exact d.block_eq
  | tuple order => by_cases h : order = declared <;> simp [word, h, ← String.toList_inj]
  | stringJoin join order => by_cases h : order = declared <;> simp [word, h, ← String.toList_inj]
  | _ => simp [word]

theorem endsWord_settings (declared : List FieldName) (l : StructLayout) :
    EndsWord (l.settings declared) := by
  unfold settings
  split
  case h_1 order =>
    split
    · decide
    · exact endsWord_append (by decide) (by decide) _
  case h_2 => exact endsWord_append (by decide) (by decide) _
  case h_3 => exact endsWord_append (by decide) (by decide) _
  case h_4 => decide

theorem isWord_word (l : StructLayout) : IsWord l.word := by
  cases l <;> (rw [word]; decide)

/-- The words for the representation of a struct say which one it is, but for the details of a
map, which stand behind the fields. -/
theorem words_inj {declared : List FieldName} {l l' : StructLayout}
    (h : l.words declared = l'.words declared) :
    (∃ details details', l = .map details ∧ l' = .map details') ∨ l = l' := by
  rw [words_eq, words_eq] at h
  obtain ⟨hword, hsettings⟩ := word_append_inj l.isWord_word l'.isWord_word
    (endsWord_settings declared l) (endsWord_settings declared l') h
  cases l <;> cases l' <;> simp only [word, String.reduceEq] at hword
  case map.map details details' => exact Or.inl ⟨details, details', rfl, rfl⟩
  case listPairs.listPairs => exact Or.inr rfl
  case stringPairs.stringPairs d e =>
    rw [PairDelimiters.settings_inj hsettings]
    exact Or.inr rfl
  case tuple.tuple order order' =>
    unfold settings at hsettings
    dsimp only at hsettings
    split at hsettings <;> split at hsettings
    · next h h' => exact Or.inr (by rw [h, h'])
    · simp [← String.toList_inj] at hsettings
    · simp [← String.toList_inj] at hsettings
    · rw [String.append_right_inj, String.append_left_inj] at hsettings
      exact Or.inr (by rw [quotedList_injective hsettings])
  case stringJoin.stringJoin join order join' order' =>
    unfold settings at hsettings
    rw [String.append_right_inj] at hsettings
    obtain ⟨rfl, hrest⟩ := quoted_append_inj hsettings
    rw [String.append_right_inj] at hrest
    split at hrest <;> split at hrest
    · next h h' => exact Or.inr (by rw [h, h'])
    · simp [← String.toList_inj] at hrest
    · simp [← String.toList_inj] at hrest
    · rw [String.append_right_inj, String.append_left_inj] at hrest
      exact Or.inr (by rw [quotedList_injective hrest])

end StructLayout

/-! ## Representations of enums -/

namespace EnumLayout

/-- The members that have a wire value. -/
def keys : EnumLayout → List String
  | .string table => table.keys
  | .int table => table.keys

theorem memberClause_string {table : Table String String} {member wire : String}
    (h : table.get? member = some wire) :
    (string table).memberClause member =
      if wire = member then "" else " (" ++ (quoted wire ++ ")") := by
  simp only [memberClause, h, String.append_assoc]

theorem memberClause_int {table : Table String Int} {member : String} {wire : Int}
    (h : table.get? member = some wire) :
    (int table).memberClause member =
      " (\"" ++ (String.ofList (Decimal.intText wire) ++ "\")") := by
  simp only [memberClause, h, String.append_assoc]

variable {l l' : EnumLayout} {member : String}

/-- What stands behind a member ends its name and stays on its line. -/
theorem memberClause_on_line (h : member ∈ l.keys) :
    EndsWord (l.memberClause member) ∧ '\n' ∉ (l.memberClause member).toList := by
  cases l with
  | string table =>
    obtain ⟨wire, hwire⟩ := Table.exists_get? h
    rw [memberClause_string hwire]
    split
    · decide
    · exact ⟨endsWord_append (by decide) (by decide) _, by simp⟩
  | int table =>
    obtain ⟨wire, hwire⟩ := Table.exists_get? h
    rw [memberClause_int hwire]
    exact ⟨endsWord_append (by decide) (by decide) _, by simp [newline_notMem_intText]⟩

/-- Two representations of one sort that give the same members a wire value are equal if what
stands behind the members is. -/
theorem eq_of_clauses (hword : l.word = l'.word) (hkeys : l.keys = l'.keys)
    (h : ∀ member ∈ l.keys, l.memberClause member = l'.memberClause member) : l = l' := by
  match l, l' with
  | .string s, .string t =>
    refine congrArg string (Table.ext_get? hkeys fun member hs => ?_)
    have ht : member ∈ t.keys := by rwa [← show s.keys = t.keys from hkeys]
    obtain ⟨wire, hwire⟩ := Table.exists_get? hs
    obtain ⟨wire', hwire'⟩ := Table.exists_get? ht
    have hclause := h member hs
    rw [memberClause_string hwire, memberClause_string hwire'] at hclause
    rw [hwire, hwire']
    split at hclause <;> split at hclause
    · next hw hw' => rw [hw, hw']
    · simp [← String.toList_inj] at hclause
    · simp [← String.toList_inj] at hclause
    · rw [String.append_right_inj, String.append_left_inj] at hclause
      rw [quoted_injective hclause]
  | .int s, .int t =>
    refine congrArg int (Table.ext_get? hkeys fun member hs => ?_)
    have ht : member ∈ t.keys := by rwa [← show s.keys = t.keys from hkeys]
    obtain ⟨wire, hwire⟩ := Table.exists_get? hs
    obtain ⟨wire', hwire'⟩ := Table.exists_get? ht
    have hclause := h member hs
    rw [memberClause_int hwire, memberClause_int hwire', String.append_right_inj,
      String.append_left_inj, String.ofList_inj] at hclause
    rw [hwire, hwire', Decimal.intText_injective hclause]
  | .string s, .int t | .int s, .string t => simp [word] at hword

end EnumLayout

end WireSchema
