import WireSchema.Json.Basic
import WireSchema.Proofs.Decimal.Notation
import WireSchema.Proofs.Text.Prefix

/-!
# The compact text says everything

Two JSON values with the same compact text are the same value, but for numbers that are
not finite: JSON has none, and they are written as null.  `asWritten` is the value with
those numbers replaced, and the theorem is `asWritten_eq_of_compact_eq`.

The text is taken apart from the left.  Its first character tells the sort of the value
(`lead_eq_of_chars`), a text value ends at the first quote that is not escaped
(`textChars_append_inj`), and a number ends where something that cannot stand in a number
begins (`numberChars_append_inj`), which in a container is always a comma or a bracket.
So all statements carry the rest of the text behind the value.
-/

namespace WireSchema
namespace Json

/-! ## What is written of a value -/

mutual

/-- The value that is written: a number that is not finite becomes null. -/
def asWritten : Json → Json
  | .float x => if x.isFinite then .float x else .null
  | .list items => .list (itemsAsWritten items)
  | .object entries => .object (entriesAsWritten entries)
  | other => other

/-- The items that are written. -/
def itemsAsWritten : List Json → List Json
  | [] => []
  | x :: rest => x.asWritten :: itemsAsWritten rest

/-- The entries that are written. -/
def entriesAsWritten : List (String × Json) → List (String × Json)
  | [] => []
  | (k, v) :: rest => (k, v.asWritten) :: entriesAsWritten rest

end

mutual

theorem chars_asWritten : ∀ j : Json, j.asWritten.chars = j.chars
  | .null => rfl
  | .bool _ => rfl
  | .int _ => rfl
  | .float x => by
    rw [asWritten, chars, floatChars]
    split
    · rw [chars, floatChars, if_pos ‹_›]
    · rw [chars]
  | .text _ => rfl
  | .list items => by rw [asWritten, chars, chars, itemChars_itemsAsWritten items]
  | .object entries => by rw [asWritten, chars, chars, entryChars_entriesAsWritten entries]

theorem itemChars_itemsAsWritten :
    ∀ items : List Json, itemChars (itemsAsWritten items) = itemChars items
  | [] => rfl
  | [x] => by simp only [itemsAsWritten, itemChars, chars_asWritten x]
  | x :: y :: rest => by
    have ih := itemChars_itemsAsWritten (y :: rest)
    simp only [itemsAsWritten, itemChars, chars_asWritten x] at ih ⊢
    rw [ih]

theorem entryChars_entriesAsWritten :
    ∀ entries : List (String × Json), entryChars (entriesAsWritten entries) = entryChars entries
  | [] => rfl
  | [(k, v)] => by simp only [entriesAsWritten, entryChars, chars_asWritten v]
  | (k, v) :: e :: rest => by
    have ih := entryChars_entriesAsWritten (e :: rest)
    simp only [entriesAsWritten, entryChars, chars_asWritten v] at ih ⊢
    rw [ih]

end

/-- What is written of a value is written as the value is. -/
theorem compact_asWritten (j : Json) : j.asWritten.compact = j.compact := by
  rw [compact, compact, chars_asWritten]

/-! ## Texts -/

/-- The value of a lower-case hexadecimal digit. -/
def hexValue (c : Char) : Nat :=
  if c.isDigit then c.toNat - 48 else c.toNat - 87

theorem hexValue_hexDigit : ∀ n, n < 16 → hexValue (hexDigit n) = n := by
  decide

/-- The first character of what stands inside quotes, read back from its escape; none at
the closing quote. -/
def unescape : List Char → Option (Char × List Char)
  | '\\' :: '"' :: r => some ('"', r)
  | '\\' :: '\\' :: r => some ('\\', r)
  | '\\' :: 'b' :: r => some ('\x08', r)
  | '\\' :: 'f' :: r => some ('\x0c', r)
  | '\\' :: 'n' :: r => some ('\n', r)
  | '\\' :: 'r' :: r => some ('\r', r)
  | '\\' :: 't' :: r => some ('\t', r)
  | '\\' :: 'u' :: '0' :: '0' :: high :: low :: r =>
      some (Char.ofNat (16 * hexValue high + hexValue low), r)
  | '"' :: _ => none
  | c :: r => some (c, r)
  | [] => none

theorem unescape_escape (c : Char) (r : List Char) : unescape (escape c ++ r) = some (c, r) := by
  rw [escape]
  split
  · next h => rw [h]; rfl
  split
  · next h => rw [h]; rfl
  split
  · next h => rw [h]; rfl
  split
  · next h => rw [h]; rfl
  split
  · next h => rw [h]; rfl
  split
  · next h => rw [h]; rfl
  split
  · next h => rw [h]; rfl
  split
  · next hcontrol =>
    have hhigh := hexValue_hexDigit (c.toNat / 16) (by omega)
    have hlow := hexValue_hexDigit (c.toNat % 16) (by omega)
    have hcode : 16 * (c.toNat / 16) + c.toNat % 16 = c.toNat := by omega
    simp only [List.cons_append, List.nil_append, unescape, hhigh, hlow, hcode, Char.ofNat_toNat]
  · next hquote hbackslash _ _ _ _ _ _ =>
    rw [List.singleton_append, unescape.eq_def]
    split <;> simp_all

/-- A text ends at its closing quote. -/
theorem textChars_append_inj {s t : String} {r r' : List Char}
    (h : textChars s ++ r = textChars t ++ r') : s = t ∧ r = r' := by
  simp only [textChars, List.cons_append, List.append_assoc, List.nil_append] at h
  obtain ⟨hchars, hrest⟩ :=
    Text.escapes_append_inj unescape_escape (fun _ => rfl) (List.cons.inj h).2
  exact ⟨String.toList_inj.1 hchars, hrest⟩

/-! ## Numbers -/

/-- Whether a character can stand in a number. -/
def isNumberChar (c : Char) : Bool :=
  c.isDigit || c == '-' || c == '+' || c == '.' || c == 'e'

/-- Whether nothing stands here that could continue a number. -/
def EndsNumber (r : List Char) : Prop :=
  ∀ c ∈ r.head?, isNumberChar c = false

theorem endsNumber_nil : EndsNumber [] := by
  rintro _ ⟨⟩

theorem endsNumber_cons {c : Char} (h : isNumberChar c = false) (r : List Char) :
    EndsNumber (c :: r) := by
  rintro _ ⟨⟩
  exact h

/-- Two numbers with ends behind them are equal if the whole is. -/
theorem numberChars_append_inj {cs ds r r' : List Char} (hcs : ∀ c ∈ cs, isNumberChar c = true)
    (hds : ∀ c ∈ ds, isNumberChar c = true) (hr : EndsNumber r) (hr' : EndsNumber r')
    (h : cs ++ r = ds ++ r') : cs = ds ∧ r = r' :=
  Text.append_inj_of_forall hcs hds hr hr' h

theorem isNumberChar_of_isDigit {c : Char} (h : c.isDigit = true) : isNumberChar c = true := by
  simp only [isNumberChar, h, Bool.true_or]

theorem isNumberChar_digitsText {n : Nat} : ∀ c ∈ Decimal.digitsText n, isNumberChar c = true :=
  fun _ hc => isNumberChar_of_isDigit (Decimal.isDigit_of_mem_digitsText hc)

theorem isNumberChar_intText (i : Int) : ∀ c ∈ Decimal.intText i, isNumberChar c = true := by
  rw [Decimal.intText]
  split
  · exact List.forall_mem_cons.2 ⟨by decide, isNumberChar_digitsText⟩
  · exact isNumberChar_digitsText

theorem isNumberChar_positional (keepsPoint : Bool) {ds : List Char} (e : Int)
    (h : ∀ c ∈ ds, isNumberChar c = true) :
    ∀ c ∈ Decimal.positional keepsPoint ds e, isNumberChar c = true := by
  have hzeros : ∀ k, ∀ c ∈ List.replicate k '0', isNumberChar c = true := by
    intro k c hc
    rw [List.eq_of_mem_replicate hc]
    decide
  rw [Decimal.positional]
  split
  · refine List.forall_mem_append.2 ⟨List.forall_mem_append.2 ⟨h, hzeros _⟩, ?_⟩
    split
    · exact List.forall_mem_cons.2 ⟨by decide, List.forall_mem_cons.2
        ⟨by decide, List.forall_mem_nil _⟩⟩
    · exact List.forall_mem_nil _
  · simp only
    split
    · refine List.forall_mem_cons.2 ⟨by decide, List.forall_mem_cons.2 ⟨by decide, ?_⟩⟩
      exact List.forall_mem_append.2 ⟨hzeros _, h⟩
    · refine List.forall_mem_append.2 ⟨fun c hc => h c (List.mem_of_mem_take hc), ?_⟩
      exact List.forall_mem_cons.2 ⟨by decide, fun c hc => h c (List.mem_of_mem_drop hc)⟩

theorem isNumberChar_scientific {ds : List Char} (e : Int)
    (h : ∀ c ∈ ds, isNumberChar c = true) :
    ∀ c ∈ Decimal.scientific ds e, isNumberChar c = true := by
  have hexponent : ∀ c ∈ 'e' :: (if e < 0 then '-' else '+') :: Decimal.digitsText e.natAbs,
      isNumberChar c = true := by
    refine List.forall_mem_cons.2 ⟨by decide, List.forall_mem_cons.2 ⟨?_, isNumberChar_digitsText⟩⟩
    split <;> decide
  match ds, h with
  | [], h => exact List.forall_mem_append.2 ⟨h, hexponent⟩
  | [d], h => exact List.forall_mem_append.2 ⟨h, hexponent⟩
  | d :: d' :: rest, h =>
    obtain ⟨hd, hrest⟩ := List.forall_mem_cons.1 h
    have hmantissa : ∀ c ∈ d :: '.' :: d' :: rest, isNumberChar c = true :=
      List.forall_mem_cons.2 ⟨hd, List.forall_mem_cons.2 ⟨by decide, hrest⟩⟩
    exact List.forall_mem_append.2 ⟨hmantissa, hexponent⟩

/-- A double is written with the characters of numbers. -/
theorem isNumberChar_text (x : Binary64) :
    ∀ c ∈ x.text Decimal.document, isNumberChar c = true := by
  have hdecimal : ∀ d : Decimal, ∀ c ∈ d.text Decimal.document, isNumberChar c = true := by
    intro d
    simp only [Decimal.text]
    split
    · exact isNumberChar_positional _ _ isNumberChar_digitsText
    · exact isNumberChar_scientific _ isNumberChar_digitsText
  simp only [Binary64.text]
  split
  · exact List.forall_mem_cons.2 ⟨by decide, hdecimal _⟩
  · exact hdecimal _

/-- No whole number is written like a double. -/
theorem intText_ne_text (i : Int) (x : Binary64) :
    Decimal.intText i ≠ x.text Decimal.document := by
  intro h
  obtain ⟨c, hc, hmark⟩ := x.exists_mem_text_document
  rw [← h, Decimal.intText] at hc
  have hdigits : ∀ d ∈ Decimal.digitsText i.natAbs, d ≠ '.' ∧ d ≠ 'e' := fun d hd =>
    have hdigit := Decimal.isDigit_of_mem_digitsText hd
    ⟨Decimal.ne_of_isDigit hdigit (by decide), Decimal.ne_of_isDigit hdigit (by decide)⟩
  have hnone : c ≠ '.' ∧ c ≠ 'e' := by
    split at hc
    · rcases List.mem_cons.1 hc with rfl | hc
      · decide
      · exact hdigits c hc
    · exact hdigits c hc
  rcases hmark with hpoint | hexponent
  · exact hnone.1 hpoint
  · exact hnone.2 hexponent

/-! ## Values -/

/-- What the text of a value begins with; a zero stands for any character of a number. -/
def lead : Json → Char
  | .null => 'n'
  | .bool b => if b then 't' else 'f'
  | .int _ => '0'
  | .float x => if x.isFinite then '0' else 'n'
  | .text _ => '"'
  | .list _ => '['
  | .object _ => '\x7b'

/-- A character as `lead` has it. -/
def leadOf (c : Char) : Char :=
  if isNumberChar c then '0' else c

theorem leadOf_isNumberChar {c : Char} (h : isNumberChar c = true) : leadOf c = '0' := by
  rw [leadOf, if_pos h]

theorem exists_chars_eq_cons (x : Json) : ∃ c r, x.chars = c :: r ∧ leadOf c = x.lead := by
  have hnumber : ∀ {cs : List Char}, cs ≠ [] → (∀ c ∈ cs, isNumberChar c = true) →
      ∃ c r, cs = c :: r ∧ leadOf c = '0'
    | c :: r, _, h => ⟨c, r, rfl, leadOf_isNumberChar (h c (List.mem_cons_self ..))⟩
  cases x with
  | bool b => cases b <;> exact ⟨_, _, by rw [chars], by decide⟩
  | int i =>
    rw [chars, lead]
    refine hnumber ?_ (isNumberChar_intText i)
    rw [Decimal.intText]
    split
    · exact List.cons_ne_nil _ _
    · exact Decimal.digitsText_ne_nil _
  | float x =>
    rw [chars, lead, floatChars]
    split
    · obtain ⟨c, hc, -⟩ := x.exists_mem_text_document
      exact hnumber (List.ne_nil_of_mem hc) (isNumberChar_text x)
    · exact ⟨_, _, rfl, by decide⟩
  | text s => exact ⟨_, _, by rw [chars, textChars], by rw [lead]; decide⟩
  | _ => exact ⟨_, _, by rw [chars], by rw [lead]; decide⟩

/-- The first character tells the sort of a value. -/
theorem lead_eq_of_chars {x y : Json} {r r' : List Char} (h : x.chars ++ r = y.chars ++ r') :
    x.lead = y.lead := by
  obtain ⟨c, cs, hx, hlead⟩ := x.exists_chars_eq_cons
  obtain ⟨d, ds, hy, hlead'⟩ := y.exists_chars_eq_cons
  rw [hx, hy] at h
  rw [← hlead, ← hlead', (List.cons.inj h).1]

theorem lead_ne_end (x : Json) : x.lead ≠ ']' ∧ x.lead ≠ '\x7d' := by
  cases x with
  | bool b => cases b <;> decide
  | float x =>
    rw [lead]
    split <;> decide
  | _ =>
    rw [lead]
    decide

/-- No value begins with the end of a list or an object. -/
theorem chars_append_ne_end (x : Json) {c : Char} (hc : c = ']' ∨ c = '\x7d')
    (r r' : List Char) : x.chars ++ r ≠ c :: r' := by
  obtain ⟨d, ds, hx, hlead⟩ := x.exists_chars_eq_cons
  obtain ⟨hlist, hobject⟩ := x.lead_ne_end
  intro h
  rw [hx] at h
  obtain rfl := (List.cons.inj h).1
  rcases hc with rfl | rfl
  · exact hlist (hlead.symm.trans (by decide))
  · exact hobject (hlead.symm.trans (by decide))

/-! ### Items and entries behind the first one -/

/-- The items of a list behind its first one. -/
def itemTail (items : List Json) : List Char :=
  items.flatMap fun x => ',' :: x.chars

/-- The entries of an object behind its first one. -/
def entryTail (entries : List (String × Json)) : List Char :=
  entries.flatMap fun e => ',' :: (textChars e.1 ++ ':' :: e.2.chars)

theorem itemChars_cons (x : Json) (rest : List Json) :
    itemChars (x :: rest) = x.chars ++ itemTail rest := by
  induction rest generalizing x with
  | nil => rw [itemChars, itemTail, List.flatMap_nil, List.append_nil]
  | cons y rest ih =>
    rw [itemChars, ih, itemTail, itemTail, List.flatMap_cons, List.cons_append]

theorem entryChars_cons (k : String) (v : Json) (rest : List (String × Json)) :
    entryChars ((k, v) :: rest) = textChars k ++ ':' :: (v.chars ++ entryTail rest) := by
  induction rest generalizing k v with
  | nil => rw [entryChars, entryTail, List.flatMap_nil, List.append_nil]
  | cons e rest ih =>
    obtain ⟨k', v'⟩ := e
    rw [entryChars, ih, entryTail, entryTail, List.flatMap_cons]
    simp only [List.cons_append, List.append_assoc]

theorem endsNumber_itemTail (items : List Json) (r : List Char) :
    EndsNumber (itemTail items ++ ']' :: r) := by
  cases items with
  | nil => exact endsNumber_cons (by decide) _
  | cons x rest => exact endsNumber_cons (by decide) _

theorem endsNumber_entryTail (entries : List (String × Json)) (r : List Char) :
    EndsNumber (entryTail entries ++ '\x7d' :: r) := by
  cases entries with
  | nil => exact endsNumber_cons (by decide) _
  | cons e rest => exact endsNumber_cons (by decide) _

/-! ### The text determines the value -/

theorem null_of_lead {x : Json} (h : x.lead = 'n') :
    x.asWritten = .null ∧ x.chars = ['n', 'u', 'l', 'l'] := by
  cases x <;> grind [lead, asWritten, chars, floatChars]

theorem bool_of_lead {x : Json} (h : x.lead = 't' ∨ x.lead = 'f') : ∃ b, x = .bool b := by
  cases x <;> grind [lead]

theorem number_of_lead {x : Json} (h : x.lead = '0') :
    (∃ i, x = .int i) ∨ ∃ f, f.isFinite = true ∧ x = .float f := by
  cases x <;> grind [lead]

theorem text_of_lead {x : Json} (h : x.lead = '"') : ∃ s, x = .text s := by
  cases x <;> grind [lead]

theorem list_of_lead {x : Json} (h : x.lead = '[') : ∃ items, x = .list items := by
  cases x <;> grind [lead]

theorem object_of_lead {x : Json} (h : x.lead = '\x7b') : ∃ entries, x = .object entries := by
  cases x <;> grind [lead]

theorem asWritten_eq_of_numbers {x y : Json} {r r' : List Char} (hx : x.lead = '0')
    (hy : y.lead = '0') (hr : EndsNumber r) (hr' : EndsNumber r')
    (h : x.chars ++ r = y.chars ++ r') : x.asWritten = y.asWritten ∧ r = r' := by
  rcases number_of_lead hx with ⟨i, rfl⟩ | ⟨f, hf, rfl⟩ <;>
    rcases number_of_lead hy with ⟨j, rfl⟩ | ⟨g, hg, rfl⟩
  · simp only [chars] at h
    obtain ⟨htext, hrest⟩ := numberChars_append_inj (isNumberChar_intText i)
      (isNumberChar_intText j) hr hr' h
    exact ⟨by rw [Decimal.intText_injective htext], hrest⟩
  · simp only [chars, floatChars, hg, if_true] at h
    obtain ⟨htext, -⟩ := numberChars_append_inj (isNumberChar_intText i)
      (isNumberChar_text g) hr hr' h
    exact absurd htext (intText_ne_text i g)
  · simp only [chars, floatChars, hf, if_true] at h
    obtain ⟨htext, -⟩ := numberChars_append_inj (isNumberChar_text f)
      (isNumberChar_intText j) hr hr' h
    exact absurd htext.symm (intText_ne_text j f)
  · simp only [chars, floatChars, hf, hg, if_true] at h
    obtain ⟨htext, hrest⟩ := numberChars_append_inj (isNumberChar_text f)
      (isNumberChar_text g) hr hr' h
    exact ⟨by rw [Binary64.text_injective _ htext], hrest⟩

/-- Values that contain no others are determined by their text. -/
theorem asWritten_eq_of_scalars {x y : Json} {r r' : List Char} (hlist : x.lead ≠ '[')
    (hobject : x.lead ≠ '\x7b') (hr : EndsNumber r) (hr' : EndsNumber r')
    (h : x.chars ++ r = y.chars ++ r') : x.asWritten = y.asWritten ∧ r = r' := by
  have hlead := (lead_eq_of_chars h).symm
  have hcases : x.lead = 'n' ∨ (x.lead = 't' ∨ x.lead = 'f') ∨ x.lead = '0' ∨ x.lead = '"' := by
    cases x <;> grind [lead]
  rcases hcases with hx | hx | hx | hx
  · obtain ⟨hwritten, hchars⟩ := null_of_lead hx
    obtain ⟨hwritten', hchars'⟩ := null_of_lead (hlead.trans hx)
    rw [hchars, hchars'] at h
    exact ⟨hwritten.trans hwritten'.symm, List.append_cancel_left h⟩
  · obtain ⟨b, rfl⟩ := bool_of_lead hx
    obtain ⟨b', rfl⟩ := bool_of_lead (hlead ▸ hx)
    cases b <;> cases b' <;> cases h
    · exact ⟨rfl, rfl⟩
    · exact ⟨rfl, rfl⟩
  · exact asWritten_eq_of_numbers hx (hlead.trans hx) hr hr' h
  · obtain ⟨s, rfl⟩ := text_of_lead hx
    obtain ⟨t, rfl⟩ := text_of_lead (hlead.trans hx)
    simp only [chars] at h
    obtain ⟨rfl, rfl⟩ := textChars_append_inj h
    exact ⟨rfl, rfl⟩

mutual

theorem asWritten_eq_of_chars : ∀ (x y : Json) {r r' : List Char}, EndsNumber r → EndsNumber r' →
    x.chars ++ r = y.chars ++ r' → x.asWritten = y.asWritten ∧ r = r'
  | .list [], y, _, _, _, _, h => by
    obtain ⟨items, rfl⟩ := list_of_lead (lead_eq_of_chars h).symm
    cases items with
    | nil =>
      exact ⟨rfl, List.append_cancel_left h⟩
    | cons y ys =>
      simp only [chars, itemChars_cons, itemChars, List.cons_append, List.nil_append,
        List.append_assoc] at h
      exact absurd (List.cons.inj h).2.symm (y.chars_append_ne_end (Or.inl rfl) _ _)
  | .list (x :: xs), y, r, r', _, _, h => by
    obtain ⟨items, rfl⟩ := list_of_lead (lead_eq_of_chars h).symm
    cases items with
    | nil =>
      simp only [chars, itemChars_cons, itemChars, List.cons_append, List.nil_append,
        List.append_assoc] at h
      exact absurd (List.cons.inj h).2 (x.chars_append_ne_end (Or.inl rfl) _ _)
    | cons y ys =>
      simp only [chars, itemChars_cons, List.cons_append, List.nil_append, List.append_assoc] at h
      obtain ⟨hhead, htail⟩ := asWritten_eq_of_chars x y (endsNumber_itemTail xs r)
        (endsNumber_itemTail ys r') (List.cons.inj h).2
      obtain ⟨hitems, hrest⟩ := itemsAsWritten_eq_of_tail xs ys htail
      exact ⟨by simp only [asWritten, itemsAsWritten, hhead, hitems], hrest⟩
  | .object [], y, _, _, _, _, h => by
    obtain ⟨entries, rfl⟩ := object_of_lead (lead_eq_of_chars h).symm
    cases entries with
    | nil =>
      exact ⟨rfl, List.append_cancel_left h⟩
    | cons e es =>
      obtain ⟨k, v⟩ := e
      simp only [chars, entryChars_cons, entryChars, textChars, List.cons_append, List.nil_append]
        at h
      exact absurd (List.cons.inj (List.cons.inj h).2).1 (by decide)
  | .object ((k, v) :: rest), y, r, r', _, _, h => by
    obtain ⟨entries, rfl⟩ := object_of_lead (lead_eq_of_chars h).symm
    cases entries with
    | nil =>
      simp only [chars, entryChars_cons, entryChars, textChars, List.cons_append, List.nil_append]
        at h
      exact absurd (List.cons.inj (List.cons.inj h).2).1 (by decide)
    | cons e es =>
      obtain ⟨k', v'⟩ := e
      simp only [chars, entryChars_cons, List.cons_append, List.nil_append, List.append_assoc] at h
      obtain ⟨hkey, hvalue⟩ := textChars_append_inj (List.cons.inj h).2
      obtain ⟨hhead, htail⟩ := asWritten_eq_of_chars v v' (endsNumber_entryTail rest r)
        (endsNumber_entryTail es r') (List.cons.inj hvalue).2
      obtain ⟨hentries, hrest⟩ := entriesAsWritten_eq_of_tail rest es htail
      exact ⟨by simp only [asWritten, entriesAsWritten, hkey, hhead, hentries], hrest⟩
  | .null, _, _, _, hr, hr', h =>
    asWritten_eq_of_scalars (by rw [lead]; decide) (by rw [lead]; decide) hr hr' h
  | .bool _, _, _, _, hr, hr', h =>
    asWritten_eq_of_scalars (by grind [lead]) (by grind [lead]) hr hr' h
  | .int _, _, _, _, hr, hr', h =>
    asWritten_eq_of_scalars (by rw [lead]; decide) (by rw [lead]; decide) hr hr' h
  | .float _, _, _, _, hr, hr', h =>
    asWritten_eq_of_scalars (by grind [lead]) (by grind [lead]) hr hr' h
  | .text _, _, _, _, hr, hr', h =>
    asWritten_eq_of_scalars (by rw [lead]; decide) (by rw [lead]; decide) hr hr' h

theorem itemsAsWritten_eq_of_tail : ∀ (xs ys : List Json) {r r' : List Char},
    itemTail xs ++ ']' :: r = itemTail ys ++ ']' :: r' →
      itemsAsWritten xs = itemsAsWritten ys ∧ r = r'
  | [], [], _, _, h => by
    cases h
    exact ⟨rfl, rfl⟩
  | [], _ :: _, _, _, h => by cases h
  | _ :: _, [], _, _, h => by cases h
  | x :: xs, y :: ys, r, r', h => by
    simp only [itemTail, List.flatMap_cons, List.cons_append, List.append_assoc] at h
    obtain ⟨hhead, htail⟩ := asWritten_eq_of_chars x y (endsNumber_itemTail xs r)
      (endsNumber_itemTail ys r') (List.cons.inj h).2
    obtain ⟨hitems, hrest⟩ := itemsAsWritten_eq_of_tail xs ys htail
    exact ⟨by simp only [itemsAsWritten, hhead, hitems], hrest⟩

theorem entriesAsWritten_eq_of_tail : ∀ (es fs : List (String × Json)) {r r' : List Char},
    entryTail es ++ '\x7d' :: r = entryTail fs ++ '\x7d' :: r' →
      entriesAsWritten es = entriesAsWritten fs ∧ r = r'
  | [], [], _, _, h => by
    cases h
    exact ⟨rfl, rfl⟩
  | [], _ :: _, _, _, h => by cases h
  | _ :: _, [], _, _, h => by cases h
  | (k, v) :: es, (k', v') :: fs, r, r', h => by
    simp only [entryTail, List.flatMap_cons, List.cons_append, List.append_assoc] at h
    obtain ⟨hkey, hvalue⟩ := textChars_append_inj (List.cons.inj h).2
    obtain ⟨hhead, htail⟩ := asWritten_eq_of_chars v v' (endsNumber_entryTail es r)
      (endsNumber_entryTail fs r') (List.cons.inj hvalue).2
    obtain ⟨hentries, hrest⟩ := entriesAsWritten_eq_of_tail es fs htail
    exact ⟨by simp only [entriesAsWritten, hkey, hhead, hentries], hrest⟩

end

/-- **The compact text determines the value that is written.** -/
theorem asWritten_eq_of_compact_eq {x y : Json} (h : x.compact = y.compact) :
    x.asWritten = y.asWritten := by
  have hchars : x.chars = y.chars := String.ofList_injective h
  refine (asWritten_eq_of_chars x y endsNumber_nil endsNumber_nil ?_).1
  rw [hchars]

end Json
end WireSchema
