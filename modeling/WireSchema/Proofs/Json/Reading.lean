import WireSchema.Json.Reader
import WireSchema.Proofs.Json.Compact

/-!
# What is written can be read

A value without doubles, whose whole numbers fit in sixty-four bits, is read back from its
compact text (`value_chars`).  The text may stand inside a longer one: `PathScan.Takes` says
that a scan takes the text of a value, whatever follows it, as long as a value can end there.

The loops that read lists and objects are the same for values of any shape and for parts whose
shape is asked for.  So what they do with a written list or object is stated for any scan of
the items (`listBody_chars`), and for any way to take entries into account
(`objectBody_chars`).
-/

namespace WireSchema
namespace Json

/-! ## Where values end -/

/-- Whether a value can end here: nothing follows, or the value's container goes on or ends. -/
def EndsValue (r : List Char) : Prop :=
  ∀ c ∈ r.head?, c = ',' ∨ c = ']' ∨ c = '\x7d'

theorem endsValue_nil : EndsValue [] := by
  rintro _ ⟨⟩

theorem endsValue_itemTail (items : List Json) (r : List Char) :
    EndsValue (itemTail items ++ ']' :: r) := by
  cases items <;> (rintro _ ⟨⟩; simp)

theorem endsValue_entryTail (entries : List (String × Json)) (r : List Char) :
    EndsValue (entryTail entries ++ '\x7d' :: r) := by
  cases entries <;> (rintro _ ⟨⟩; simp)

theorem endsValue_brace (r : List Char) : EndsValue ('\x7d' :: r) :=
  endsValue_entryTail [] r

theorem EndsValue.cases {r : List Char} (h : EndsValue r) :
    r = [] ∨ ∃ r', r = ',' :: r' ∨ r = ']' :: r' ∨ r = '\x7d' :: r' := by
  cases r with
  | nil => exact Or.inl rfl
  | cons c r' =>
    refine Or.inr ⟨r', ?_⟩
    rcases h c rfl with rfl | rfl | rfl <;> simp

/-- A budget above `n` leaves at least `n` when one is spent. -/
theorem exists_budget {n budget : Nat} (h : n < budget) : ∃ left, budget = left + 1 ∧ n ≤ left :=
  ⟨budget - 1, by omega, by omega⟩

theorem skipBlanks_cons {c : Char} (h : isBlank c = false) (r : List Char) :
    skipBlanks (c :: r) = c :: r := by
  rw [skipBlanks, List.dropWhile_cons_of_neg (by simp [h])]

theorem isBlank_eq_false_of_leadOf {c : Char} {x : Json} (h : leadOf c = x.lead) :
    isBlank c = false := by
  by_contra hblank
  simp only [isBlank, Bool.not_eq_false, Bool.or_eq_true, decide_eq_true_eq] at hblank
  rcases hblank with ((rfl | rfl) | rfl) | rfl <;> cases x <;> grind [leadOf, lead, isNumberChar]

/-- No value begins with a blank. -/
theorem skipBlanks_chars (x : Json) (r : List Char) : skipBlanks (x.chars ++ r) = x.chars ++ r := by
  obtain ⟨c, cs, hx, hlead⟩ := x.exists_chars_eq_cons
  rw [hx, List.cons_append, skipBlanks_cons (isBlank_eq_false_of_leadOf hlead)]

/-! ## Texts -/

theorem hexValue?_hexDigit : ∀ n, n < 16 → hexValue? (hexDigit n) = some n := by
  decide

/-- An escaped character is read as itself. -/
theorem textBody_escape (c : Char) (r : List Char) :
    textBody (escape c ++ r) = consChar c (textBody r) := by
  rw [escape]
  split
  · next h => rw [h]; rfl
  split
  · next h => rw [h]; rfl
  split
  · next h => rw [h]; rfl
  split
  · next h => rw [h]; rfl
  split
  · next h => rw [h]; rfl
  split
  · next h => rw [h]; rfl
  split
  · next h => rw [h]; rfl
  split
  · next hcontrol =>
    have hzero : hexValue? '0' = some 0 := rfl
    have hhigh := hexValue?_hexDigit (c.toNat / 16) (by omega)
    have hlow := hexValue?_hexDigit (c.toNat % 16) (by omega)
    have hquad : hexQuad? '0' '0' (hexDigit (c.toNat / 16)) (hexDigit (c.toNat % 16)) =
        some c.toNat := by
      have hcode : ((0 * 16 + 0) * 16 + c.toNat / 16) * 16 + c.toNat % 16 = c.toNat := by omega
      simp only [hexQuad?, hzero, hhigh, hlow, Option.bind_eq_bind, Option.bind_some, hcode]
      rfl
    have hlead : isLeadingSurrogate c.toNat = false := by
      simp only [isLeadingSurrogate, Bool.and_eq_false_iff, decide_eq_false_iff_not]
      omega
    have htrail : isTrailingSurrogate c.toNat = false := by
      simp only [isTrailingSurrogate, Bool.and_eq_false_iff, decide_eq_false_iff_not]
      omega
    simp only [List.cons_append, List.nil_append]
    rw [textBody, hquad]
    simp only [hlead, htrail, Bool.false_eq_true, if_false, Char.ofNat_toNat]
  · next hquote hbackslash _ _ _ _ _ hcontrol =>
    rw [List.singleton_append, textBody.eq_def]
    split <;> simp_all

theorem textBody_escapes (cs r : List Char) :
    textBody (cs.flatMap escape ++ '"' :: r) = .ok (cs, r) := by
  induction cs with
  | nil => rfl
  | cons c cs ih =>
    rw [List.flatMap_cons, List.append_assoc, textBody_escape, ih]
    rfl

theorem scanText_escapes (s : String) (r : List Char) :
    scanText (s.toList.flatMap escape ++ '"' :: r) = .ok (s, r) := by
  rw [scanText, textBody_escapes]
  simp only [bind, Except.bind, pure, Except.pure, String.ofList_toList]

theorem textChars_append (s : String) (r : List Char) :
    textChars s ++ r = '"' :: (s.toList.flatMap escape ++ '"' :: r) := by
  rw [textChars, List.cons_append, List.append_assoc, List.singleton_append]

/-! ## Whole numbers -/

/-- Whether a whole number fits in sixty-four bits with a sign. -/
def IsSigned (i : Int) : Prop :=
  Numeral.minInt64 ≤ i ∧ i ≤ Numeral.maxInt64

theorem le_ofDigitChars (ds : List Char) (n : Nat) : n ≤ Nat.ofDigitChars 10 ds n := by
  induction ds generalizing n with
  | nil => exact Nat.le_refl n
  | cons d ds ih =>
    rw [Nat.ofDigitChars_cons]
    have hrest := ih (10 * n + (d.toNat - '0'.toNat))
    omega

/-- Digits that fit are all collected. -/
theorem collect_eq {ds : List Char} {n : Nat} (h : Nat.ofDigitChars 10 ds n ≤ Numeral.maxNat64) :
    collect n ds = (Nat.ofDigitChars 10 ds n, []) := by
  induction ds generalizing n with
  | nil => rfl
  | cons d ds ih =>
    rw [Nat.ofDigitChars_cons] at h ⊢
    have hstep : n * 10 + digitValue d = 10 * n + (d.toNat - '0'.toNat) := by
      rw [Nat.mul_comm]
      rfl
    rw [collect, hstep, if_pos ((le_ofDigitChars ds _).trans h), ih h]

/-- Only zero is written with a zero in front. -/
theorem exists_digitsText_eq_cons {n : Nat} (hn : 0 < n) :
    ∃ c cs, Decimal.digitsText n = c :: cs ∧ c ≠ '0' := by
  have hdigit : ∀ k, k < 10 → 0 < k → Nat.digitChar k ≠ '0' := by decide
  induction n using Nat.strongRecOn with
  | ind n ih =>
    rcases Nat.lt_or_ge n 10 with hlt | hge
    · exact ⟨_, _, Nat.toDigits_of_lt_base hlt, hdigit n hlt hn⟩
    · obtain ⟨c, cs, htext, hc⟩ := ih (n / 10) (by omega) (by omega)
      refine ⟨c, cs ++ [(n % 10).digitChar], ?_, hc⟩
      rw [Decimal.digitsText] at htext ⊢
      rw [Nat.toDigits_of_base_le (by decide) hge, htext, List.cons_append]

section

variable {r : List Char} (hr : EndsValue r)

include hr

theorem digitsOf_digitsText (n : Nat) :
    digitsOf (Decimal.digitsText n ++ r) = Decimal.digitsText n := by
  rw [digitsOf, List.takeWhile_append_of_pos fun c => Decimal.isDigit_of_mem_digitsText]
  rcases hr.cases with rfl | ⟨r', rfl | rfl | rfl⟩ <;> exact List.append_nil _

theorem afterDigits_digitsText (n : Nat) : afterDigits (Decimal.digitsText n ++ r) = r := by
  rw [afterDigits, List.dropWhile_append_of_pos fun c => Decimal.isDigit_of_mem_digitsText]
  rcases hr.cases with rfl | ⟨r', rfl | rfl | rfl⟩ <;> rfl

theorem afterWhole_of_endsValue (negative : Bool) (n : Nat) :
    afterWhole negative n r = .ok (wholeNumber negative n, r) := by
  rcases hr.cases with rfl | ⟨r', rfl | rfl | rfl⟩ <;> rfl

theorem unsignedNumber_digitsText (negative : Bool) {n : Nat} (hn : n ≤ Numeral.maxNat64) :
    unsignedNumber negative (Decimal.digitsText n ++ r) = .ok (wholeNumber negative n, r) := by
  rw [unsignedNumber, digitsOf_digitsText hr, afterDigits_digitsText hr]
  rcases Nat.eq_zero_or_pos n with rfl | hpos
  · exact afterWhole_of_endsValue hr negative 0
  · have hvalue : Nat.ofDigitChars 10 (Decimal.digitsText n) 0 = n :=
      Nat.ofDigitChars_ten_toDigits
    have hcollect : collect 0 (Decimal.digitsText n) = (n, []) := by
      rw [collect_eq (by rwa [hvalue]), hvalue]
    obtain ⟨c, cs, htext, hc⟩ := exists_digitsText_eq_cons hpos
    rw [htext] at hcollect ⊢
    split
    · next h => cases h
    · next h => exact absurd (List.cons.inj h).1 hc
    · next h => exact absurd (List.cons.inj h).1 hc
    · rw [hcollect]
      exact afterWhole_of_endsValue hr negative n

/-- A whole number is read back from its text. -/
theorem number_intText {i : Int} (hi : IsSigned i) :
    number (Decimal.intText i ++ r) = .ok (.int i, r) := by
  obtain ⟨hleast, hgreatest⟩ := hi
  rw [Numeral.minInt64] at hleast
  rw [Numeral.maxInt64] at hgreatest
  have hfits : i.natAbs ≤ Numeral.maxNat64 := by
    rw [Numeral.maxNat64]
    omega
  rw [Decimal.intText]
  split
  · next hneg =>
    have hnone : ¬ (i.natAbs = 0 ∨ 0x8000000000000000 < i.natAbs) := by omega
    have hvalue : -(i.natAbs : Int) = i := by omega
    rw [List.cons_append, number, unsignedNumber_digitsText hr true hfits, wholeNumber,
      if_neg (by decide), if_neg hnone, hvalue]
  · next hpos =>
    have hvalue : (i.natAbs : Int) = i := by omega
    have hread := unsignedNumber_digitsText hr false hfits
    rw [wholeNumber, if_pos rfl, hvalue] at hread
    rw [← hread]
    obtain ⟨c, hc, hdigit⟩ := Decimal.head?_digitsText i.natAbs
    obtain ⟨cs, hcs⟩ := List.head?_eq_some_iff.1 hc
    rw [hcs, List.cons_append, number]
    rintro _ ⟨⟩
    exact absurd hdigit (by decide)

end

/-! ## Values without containers -/

/-- Whether a value holds no doubles, and no whole numbers beyond sixty-four bits. -/
inductive Plain : Json → Prop
  | null : Plain .null
  | bool (b : Bool) : Plain (.bool b)
  | int {i : Int} (fits : IsSigned i) : Plain (.int i)
  | text (s : String) : Plain (.text s)
  | list {items : List Json} (plain : ∀ x ∈ items, Plain x) : Plain (.list items)
  | object {entries : List (String × Json)} (plain : ∀ e ∈ entries, Plain e.2) :
      Plain (.object entries)

theorem scalar_of_number {c : Char} (h : c = '-' ∨ c.isDigit = true) (r : List Char) :
    scalar (c :: r) = number (c :: r) := by
  rw [scalar, if_pos h]
  all_goals
    rintro rfl
    revert h
    decide

theorem scalar_chars {j : Json} (hj : j.Plain) (hnesting : j.nesting = 0) {r : List Char}
    (hr : EndsValue r) : scalar (j.chars ++ r) = .ok (j, r) := by
  cases hj with
  | null => rfl
  | bool b => cases b <;> rfl
  | int fits =>
    rename_i i
    rw [chars, ← number_intText hr fits]
    have hmark : ∃ c cs, Decimal.intText i = c :: cs ∧ (c = '-' ∨ c.isDigit = true) := by
      rw [Decimal.intText]
      split
      · exact ⟨_, _, rfl, Or.inl rfl⟩
      · obtain ⟨c, hc, hdigit⟩ := Decimal.head?_digitsText i.natAbs
        obtain ⟨cs, hcs⟩ := List.head?_eq_some_iff.1 hc
        exact ⟨c, cs, hcs, Or.inr hdigit⟩
    obtain ⟨c, cs, hcs, hc⟩ := hmark
    rw [hcs, List.cons_append, scalar_of_number hc]
  | text s =>
    rw [chars, textChars_append, scalar, scanText_escapes]
    rfl
  | list plain => cases hnesting
  | object plain => cases hnesting

/-! ## Scans that take values -/

/-- A scan takes the text of a value, whatever follows it. -/
def PathScan.Takes {α : Type} (scan : PathScan α) (j : Json) (x : α) : Prop :=
  ∀ r, EndsValue r → scan (j.chars ++ r) = .ok (x, r)

theorem PathScan.within_of_ok {α : Type} {scan : PathScan α} {cs : List Char} {p : α × List Char}
    (h : scan cs = .ok p) (step : Segment) : scan.within step cs = .ok p := by
  rw [within, h]
  rfl

/-! ### Lists -/

theorem length_le_itemTail (js : List Json) : js.length ≤ (itemTail js).length := by
  induction js with
  | nil => exact Nat.le_refl 0
  | cons j js ih =>
    rw [itemTail] at ih ⊢
    rw [List.flatMap_cons, List.cons_append, List.length_cons, List.length_cons,
      List.length_append]
    omega

theorem itemTail_cons_append (j : Json) (js : List Json) (r : List Char) :
    itemTail (j :: js) ++ ']' :: r = ',' :: (j.chars ++ (itemTail js ++ ']' :: r)) := by
  simp only [itemTail, List.flatMap_cons, List.cons_append, List.append_assoc]

theorem nextItem_first (j : Json) (r : List Char) :
    nextItem true (j.chars ++ r) = .ok (some (j.chars ++ r)) := by
  rw [nextItem, skipBlanks_chars]
  obtain ⟨c, cs, hchars, -⟩ := j.exists_chars_eq_cons
  have hend := j.chars_append_ne_end (Or.inl rfl) r
  rw [hchars, List.cons_append] at hend ⊢
  split
  · next h => cases h
  · next h => exact absurd h (hend _)
  · next h =>
    rw [if_pos rfl, ← h]

theorem nextItem_comma (j : Json) (r : List Char) :
    nextItem false (',' :: (j.chars ++ r)) = .ok (some (j.chars ++ r)) := by
  rw [nextItem, skipBlanks_cons (by decide)]
  split
  · next h => cases h
  · next h => exact absurd (List.cons.inj h).1 (by decide)
  · next h =>
    obtain ⟨rfl, rfl⟩ := List.cons.inj h
    rw [if_neg Bool.false_ne_true, if_pos rfl, skipBlanks_chars]
    obtain ⟨c, cs, hchars, -⟩ := j.exists_chars_eq_cons
    have hend := j.chars_append_ne_end (Or.inl rfl) r
    rw [hchars, List.cons_append] at hend ⊢
    split
    · next h => cases h
    · next h => exact absurd h (hend _)
    · rfl

section

variable {α : Type} {item : PathScan α} {js : List Json} {xs : List α}
  (h : List.Forall₂ item.Takes js xs)

include h

theorem items_itemTail {fuel : Nat} (hfuel : js.length < fuel) (i : Nat) (r : List Char) :
    items item fuel (i + 1) (itemTail js ++ ']' :: r) = .ok (xs, ']' :: r) := by
  induction h generalizing fuel i with
  | nil =>
    obtain ⟨fuel, rfl, -⟩ := exists_budget hfuel
    rfl
  | cons hfirst hrest ih =>
    rename_i j x js xs
    obtain ⟨fuel, rfl, hleft⟩ := exists_budget hfuel
    have htaken := hfirst _ (endsValue_itemTail js r)
    have hmore := ih hleft (i + 1)
    have hlater : (i + 1 == 0) = false := rfl
    rw [itemTail_cons_append, items, hlater, nextItem_comma]
    simp only [PathScan.within_of_ok htaken, hmore, bind, Except.bind, pure, Except.pure]

/-- **A list is read item by item.** -/
theorem listBody_chars (r : List Char) :
    listBody item (itemChars js ++ ']' :: r) = .ok (xs, r) := by
  have hitems : items item ((itemChars js ++ ']' :: r).length + 1) 0 (itemChars js ++ ']' :: r) =
      .ok (xs, ']' :: r) := by
    cases h with
    | nil => rfl
    | cons hfirst hrest =>
      rename_i j x js xs
      rw [itemChars_cons, List.append_assoc, items]
      have htaken := hfirst _ (endsValue_itemTail js r)
      have hfuel : js.length < (j.chars ++ (itemTail js ++ ']' :: r)).length := by
        have hlength := length_le_itemTail js
        simp only [List.length_append, List.length_cons]
        omega
      have hmore := items_itemTail hrest hfuel 0 r
      have hstart : (0 == 0) = true := rfl
      rw [hstart, nextItem_first]
      simp only [PathScan.within_of_ok htaken, hmore, bind, Except.bind, pure, Except.pure]
  rw [listBody, hitems]
  rfl

end

/-! ### Objects -/

theorem length_le_entryTail (es : List (String × Json)) : es.length ≤ (entryTail es).length := by
  induction es with
  | nil => exact Nat.le_refl 0
  | cons e es ih =>
    rw [entryTail] at ih ⊢
    rw [List.flatMap_cons, List.cons_append, List.length_cons, List.length_cons,
      List.length_append]
    omega

theorem entryTail_cons_append (key : String) (j : Json) (es : List (String × Json))
    (r : List Char) :
    entryTail ((key, j) :: es) ++ '\x7d' :: r = ',' :: '"' :: (key.toList.flatMap escape ++
      '"' :: ':' :: (j.chars ++ (entryTail es ++ '\x7d' :: r))) := by
  simp only [entryTail, textChars, List.flatMap_cons, List.cons_append, List.append_assoc,
    List.nil_append]

theorem entryChars_cons_append (key : String) (j : Json) (es : List (String × Json))
    (r : List Char) :
    entryChars ((key, j) :: es) ++ '\x7d' :: r = '"' :: (key.toList.flatMap escape ++
      '"' :: ':' :: (j.chars ++ (entryTail es ++ '\x7d' :: r))) := by
  simp only [entryChars_cons, textChars, List.cons_append, List.append_assoc, List.nil_append]

/-- Taking entries into account one after another leads from one state to another. -/
inductive EntersAll {σ : Type} (enter : σ → String → Except Fault (Entry σ)) :
    σ → List (String × Json) → σ → Prop
  | nil (acc : σ) : EntersAll enter acc [] acc
  | cons {acc acc' acc'' : σ} {key : String} {j : Json} {es : List (String × Json)}
      {entry : Entry σ} (entered : enter acc key = .ok entry) (taken : entry.scan.Takes j acc')
      (rest : EntersAll enter acc' es acc'') : EntersAll enter acc ((key, j) :: es) acc''

/-- Entries that are collected one after another stand in the opposite order. -/
theorem EntersAll.collect {γ : Type} {enter : List γ → String → Except Fault (Entry (List γ))}
    {fits : String × Json → γ → Prop}
    (henter : ∀ acc e x, fits e x →
      ∃ entry, enter acc e.1 = .ok entry ∧ entry.scan.Takes e.2 (x :: acc))
    {es : List (String × Json)} {xs : List γ} (h : List.Forall₂ fits es xs) (acc : List γ) :
    EntersAll enter acc es (xs.reverse ++ acc) := by
  induction h generalizing acc with
  | nil => exact .nil acc
  | cons hfits _ ih =>
    obtain ⟨entry, hentry, htaken⟩ := henter acc _ _ hfits
    rw [List.reverse_cons, List.append_assoc, List.singleton_append]
    exact .cons hentry htaken (ih _)

section

variable {σ : Type} {enter : σ → String → Except Fault (Entry σ)} {acc acc' : σ}

/-- The first of some entries, from its key on, is taken into account. -/
theorem entries_of_nextKey {fuel : Nat} {first : Bool} {cs r : List Char} {key : String} {j : Json}
    {entry : Entry σ} (hkey : nextKey first cs =
      .ok (some (key.toList.flatMap escape ++ '"' :: ':' :: (j.chars ++ r))))
    (hentry : enter acc key = .ok entry) (htaken : entry.scan.Takes j acc') (hr : EndsValue r) :
    entries enter (fuel + 1) first acc cs = entries enter fuel false acc' r := by
  have hscan : (Scan.here scanText) (key.toList.flatMap escape ++ '"' :: ':' :: (j.chars ++ r)) =
      .ok (key, ':' :: (j.chars ++ r)) := by
    rw [Scan.here, scanText_escapes]
    rfl
  have hcolon : colon (':' :: (j.chars ++ r)) = .ok (j.chars ++ r) := rfl
  rw [entries, hkey]
  simp only [PathScan.within_of_ok hscan, hentry, hcolon, Except.mapError,
    PathScan.within_of_ok (htaken r hr), bind, Except.bind]

theorem entries_entryTail {es : List (String × Json)} (h : EntersAll enter acc es acc')
    {fuel : Nat} (hfuel : es.length < fuel) (r : List Char) :
    entries enter fuel false acc (entryTail es ++ '\x7d' :: r) = .ok (acc', '\x7d' :: r) := by
  induction h generalizing fuel with
  | nil acc =>
    obtain ⟨fuel, rfl, -⟩ := exists_budget hfuel
    rfl
  | cons hentered htaken hrest ih =>
    rename_i _ _ _ key j es _
    obtain ⟨fuel, rfl, hleft⟩ := exists_budget hfuel
    rw [entryTail_cons_append, entries_of_nextKey rfl hentered htaken (endsValue_entryTail es r)]
    exact ih hleft

/-- **An object is read entry by entry.** -/
theorem objectBody_chars {es : List (String × Json)} (h : EntersAll enter acc es acc')
    (r : List Char) : objectBody acc enter (entryChars es ++ '\x7d' :: r) = .ok (acc', r) := by
  have hentries : entries enter ((entryChars es ++ '\x7d' :: r).length + 1) true acc
      (entryChars es ++ '\x7d' :: r) = .ok (acc', '\x7d' :: r) := by
    cases h with
    | nil acc => rfl
    | cons hentered htaken hrest =>
      rename_i key j es _
      rw [entryChars_cons_append, entries_of_nextKey rfl hentered htaken (endsValue_entryTail es r)]
      refine entries_entryTail hrest ?_ r
      have hlength := length_le_entryTail es
      simp only [List.length_append, List.length_cons]
      omega
  rw [objectBody, hentries]
  rfl

end

/-- What is collected from an object stands in the opposite order. -/
theorem objectBody_collect {γ : Type} {enter : List γ → String → Except Fault (Entry (List γ))}
    {fits : String × Json → γ → Prop}
    (henter : ∀ acc e x, fits e x →
      ∃ entry, enter acc e.1 = .ok entry ∧ entry.scan.Takes e.2 (x :: acc))
    {es : List (String × Json)} {xs : List γ} (h : List.Forall₂ fits es xs) (r : List Char) :
    objectBody [] enter (entryChars es ++ '\x7d' :: r) = .ok (xs.reverse, r) := by
  rw [← List.append_nil xs.reverse]
  exact objectBody_chars (EntersAll.collect henter h []) r

/-- **An object with any keys is read entry by entry.** -/
theorem entriesBody_chars {α : Type} {item : PathScan α} {es : List (String × Json)}
    {xs : List (String × α)} (h : List.Forall₂ (fun e x => e.1 = x.1 ∧ item.Takes e.2 x.2) es xs)
    (r : List Char) : entriesBody item (entryChars es ++ '\x7d' :: r) = .ok (xs, r) := by
  rw [entriesBody, objectBody_collect _ h r]
  · simp only [bind, Except.bind, pure, Except.pure, List.reverse_reverse]
  · rintro acc e x ⟨hkey, htaken⟩
    refine ⟨_, rfl, fun r hr => ?_⟩
    simp only [htaken r hr, hkey, bind, Except.bind, pure, Except.pure]

/-! ## Any value -/

theorem nesting_le_itemNesting {x : Json} {items : List Json} (h : x ∈ items) :
    x.nesting ≤ itemNesting items := by
  induction items with
  | nil => cases h
  | cons y items ih =>
    rw [itemNesting]
    rcases List.mem_cons.1 h with rfl | h
    · exact Nat.le_max_left ..
    · exact (ih h).trans (Nat.le_max_right ..)

theorem nesting_le_entryNesting {e : String × Json} {es : List (String × Json)} (h : e ∈ es) :
    e.2.nesting ≤ entryNesting es := by
  induction es with
  | nil => cases h
  | cons f es ih =>
    obtain ⟨key, j⟩ := f
    rw [entryNesting]
    rcases List.mem_cons.1 h with rfl | h
    · exact Nat.le_max_left ..
    · exact (ih h).trans (Nat.le_max_right ..)

theorem itemNesting_le {xs : List Json} {n : Nat} :
    itemNesting xs ≤ n ↔ ∀ x ∈ xs, x.nesting ≤ n := by
  induction xs with
  | nil => simp [itemNesting]
  | cons x xs ih => rw [itemNesting, Nat.max_le, ih, List.forall_mem_cons]

theorem entryNesting_le {es : List (String × Json)} {n : Nat} :
    entryNesting es ≤ n ↔ ∀ e ∈ es, e.2.nesting ≤ n := by
  induction es with
  | nil => simp [entryNesting]
  | cons e es ih => rw [entryNesting, Nat.max_le, ih, List.forall_mem_cons]

theorem value_of_scalar {j : Json} (hj : j.Plain) (hnesting : j.nesting = 0) (budget : Nat) :
    (value budget).Takes j j := by
  intro r hr
  have hscalar : Scan.here scalar (j.chars ++ r) = .ok (j, r) := by
    rw [Scan.here, scalar_chars hj hnesting hr]
    rfl
  obtain ⟨c, cs, hchars, hlead⟩ := j.exists_chars_eq_cons
  have hblanks := skipBlanks_chars j r
  rw [hchars, List.cons_append] at hscalar hblanks ⊢
  have hlist : c ≠ '[' := by
    rintro rfl
    obtain ⟨items, rfl⟩ := list_of_lead (hlead.symm.trans (by decide))
    cases hnesting
  have hobject : c ≠ '\x7b' := by
    rintro rfl
    obtain ⟨entries, rfl⟩ := object_of_lead (hlead.symm.trans (by decide))
    cases hnesting
  cases budget <;>
  · rw [value, hblanks]
    split
    · next h => exact absurd (List.cons.inj h).1 hlist
    · next h => exact absurd (List.cons.inj h).1 hobject
    · exact hscalar

/-- **A plain value is read back from its text**, as long as it is nested no deeper than
containers may be opened. -/
theorem value_chars {j : Json} (hj : j.Plain) {budget : Nat} (hnesting : j.nesting ≤ budget) :
    (value budget).Takes j j := by
  induction budget generalizing j with
  | zero => exact value_of_scalar hj (Nat.le_zero.1 hnesting) 0
  | succ budget ih =>
    cases hj with
    | list plain =>
      rename_i items
      rw [nesting] at hnesting
      have hitems : List.Forall₂ (value budget).Takes items items :=
        List.forall₂_same.2 fun x hx =>
          ih (plain x hx) ((nesting_le_itemNesting hx).trans (Nat.le_of_succ_le_succ hnesting))
      intro r _
      rw [chars, List.cons_append, List.append_assoc, value, skipBlanks_cons (by decide)]
      simp only [List.singleton_append, listBody_chars hitems, bind, Except.bind, pure, Except.pure]
    | object plain =>
      rename_i es
      rw [nesting] at hnesting
      have hentries : List.Forall₂ (fun e x => e.1 = x.1 ∧ (value budget).Takes e.2 x.2) es es :=
        List.forall₂_same.2 fun e he =>
          ⟨rfl, ih (plain e he)
            ((nesting_le_entryNesting he).trans (Nat.le_of_succ_le_succ hnesting))⟩
      intro r _
      rw [chars, List.cons_append, List.append_assoc, value, skipBlanks_cons (by decide)]
      simp only [List.singleton_append, entriesBody_chars hentries, bind, Except.bind, pure,
        Except.pure]
    | _ => exact value_of_scalar (by constructor <;> assumption) rfl (budget + 1)

end Json
end WireSchema
