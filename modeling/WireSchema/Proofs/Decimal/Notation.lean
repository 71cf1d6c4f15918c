import Mathlib.Data.List.TakeWhile
import WireSchema.Proofs.Decimal.Shortest

/-!
# Number texts can be read back

A number text is read by its shape alone: what stands in front of an `e` are digits with
at most one point among them, and what stands behind it is a power of ten.  `reading` is
the number found so, and the text of a decimal reads as its value, wherever its point is
placed (`Decimal.reading_text`).  So a text that two numbers share forces them to be equal:

* `Decimal.intText_injective` for whole numbers,
* `Binary64.text_injective` for doubles, with `Binary64.magnitude_eq_of_value_shortest`.

In documents a double keeps its point or has an exponent, which a whole number never does
(`Binary64.exists_mem_text_document`).
-/

namespace WireSchema
namespace Decimal

/-! ## Digits -/

theorem isDigit_of_mem_digitsText {n : Nat} {c : Char} (h : c ∈ digitsText n) :
    c.isDigit = true :=
  Nat.isDigit_of_mem_toDigits (by decide) (by decide) h

theorem digitsText_ne_nil (n : Nat) : digitsText n ≠ [] :=
  Nat.toDigits_ne_nil

/-- The number that digits stand for. -/
def digitsValue (cs : List Char) : Nat :=
  Nat.ofDigitChars 10 cs 0

@[simp] theorem digitsValue_digitsText (n : Nat) : digitsValue (digitsText n) = n :=
  Nat.ofDigitChars_ten_toDigits

/-- Zeros behind digits multiply by ten. -/
theorem digitsValue_append_zeros (cs : List Char) (k : Nat) :
    digitsValue (cs ++ List.replicate k '0') = digitsValue cs * 10 ^ k := by
  rw [digitsValue, Nat.ofDigitChars_append, Nat.ofDigitChars_replicate_zero, mul_comm]
  rfl

/-- Zeros in front of digits change nothing. -/
theorem digitsValue_zeros_append (cs : List Char) (k : Nat) :
    digitsValue (List.replicate k '0' ++ cs) = digitsValue cs := by
  rw [digitsValue, Nat.ofDigitChars_append, Nat.ofDigitChars_replicate_zero, mul_zero]
  rfl

/-! ## Reading a number text -/

/-- The whole number that digits with a sign in front stand for. -/
def signedValue : List Char → Int
  | '-' :: cs => -(digitsValue cs : Int)
  | '+' :: cs => digitsValue cs
  | cs => digitsValue cs

/-- How many digits stand behind the point. -/
def places (cs : List Char) : Nat :=
  (cs.dropWhile (· ≠ '.')).length - 1

/-- The number that a text without an exponent stands for. -/
def mantissaValue (cs : List Char) : ℚ :=
  digitsValue (cs.filter (· ≠ '.')) * (10 : ℚ) ^ (-(places cs : Int))

/-- The number that a text stands for. -/
def reading (cs : List Char) : ℚ :=
  mantissaValue (cs.takeWhile (· ≠ 'e')) *
    (10 : ℚ) ^ signedValue ((cs.dropWhile (· ≠ 'e')).drop 1)

section Reading

variable {whole fraction ds : List Char}

theorem ne_of_isDigit {c d : Char} (hc : c.isDigit = true) (hd : d.isDigit = false) : c ≠ d := by
  rintro rfl
  rw [hc] at hd
  cases hd

theorem filter_digits (h : ∀ c ∈ ds, c.isDigit = true) : ds.filter (· ≠ '.') = ds := by
  rw [List.filter_eq_self]
  intro c hc
  simpa using ne_of_isDigit (h c hc) (by decide)

theorem mantissaValue_digits (h : ∀ c ∈ ds, c.isDigit = true) :
    mantissaValue ds = digitsValue ds := by
  have hdrop : ds.dropWhile (· ≠ '.') = [] := by
    rw [List.dropWhile_eq_nil_iff]
    intro c hc
    simpa using ne_of_isDigit (h c hc) (by decide)
  rw [mantissaValue, places, filter_digits h, hdrop]
  simp

theorem mantissaValue_point (hw : ∀ c ∈ whole, c.isDigit = true)
    (hf : ∀ c ∈ fraction, c.isDigit = true) :
    mantissaValue (whole ++ '.' :: fraction) =
      digitsValue (whole ++ fraction) * (10 : ℚ) ^ (-(fraction.length : Int)) := by
  have hdrop : (whole ++ '.' :: fraction).dropWhile (· ≠ '.') = '.' :: fraction := by
    rw [List.dropWhile_append_of_pos]
    · simp
    · intro c hc
      simpa using ne_of_isDigit (hw c hc) (by decide)
  have hfilter : (whole ++ '.' :: fraction).filter (· ≠ '.') = whole ++ fraction := by
    rw [List.filter_append, filter_digits hw, List.filter_cons_of_neg (by simp), filter_digits hf]
  rw [mantissaValue, places, hdrop, hfilter, List.length_cons, Nat.add_sub_cancel]

/-- A text without an exponent. -/
theorem reading_mantissa (h : ∀ c ∈ ds, c ≠ 'e') : reading ds = mantissaValue ds := by
  have htake : ds.takeWhile (· ≠ 'e') = ds := by
    rw [List.takeWhile_eq_self_iff]
    intro c hc
    simpa using h c hc
  have hdrop : ds.dropWhile (· ≠ 'e') = [] := by
    rw [List.dropWhile_eq_nil_iff]
    intro c hc
    simpa using h c hc
  rw [reading, htake, hdrop]
  simp [signedValue, digitsValue]

/-- A text with an exponent. -/
theorem reading_exponent (h : ∀ c ∈ ds, c ≠ 'e') (exponent : List Char) :
    reading (ds ++ 'e' :: exponent) = mantissaValue ds * (10 : ℚ) ^ signedValue exponent := by
  have htake : (ds ++ 'e' :: exponent).takeWhile (· ≠ 'e') = ds := by
    rw [List.takeWhile_append_of_pos]
    · simp
    · intro c hc
      simpa using h c hc
  have hdrop : (ds ++ 'e' :: exponent).dropWhile (· ≠ 'e') = 'e' :: exponent := by
    rw [List.dropWhile_append_of_pos]
    · simp
    · intro c hc
      simpa using h c hc
  rw [reading, htake, hdrop, List.drop_one, List.tail_cons]

/-- Digits do not mark an exponent, nor does the point among them. -/
theorem ne_e_of_point (hw : ∀ c ∈ whole, c.isDigit = true)
    (hf : ∀ c ∈ fraction, c.isDigit = true) : ∀ c ∈ whole ++ '.' :: fraction, c ≠ 'e' := by
  intro c hc
  rw [List.mem_append, List.mem_cons] at hc
  rcases hc with hc | rfl | hc
  · exact ne_of_isDigit (hw c hc) (by decide)
  · decide
  · exact ne_of_isDigit (hf c hc) (by decide)

end Reading

/-! ## The text of a decimal -/

theorem isDigit_append_zeros {ds : List Char} (h : ∀ c ∈ ds, c.isDigit = true) (k : Nat) :
    ∀ c ∈ ds ++ List.replicate k '0', c.isDigit = true := by
  intro c hc
  rcases List.mem_append.1 hc with hc | hc
  · exact h c hc
  · rw [List.eq_of_mem_replicate hc]
    decide

theorem isDigit_zeros_append {ds : List Char} (h : ∀ c ∈ ds, c.isDigit = true) (k : Nat) :
    ∀ c ∈ List.replicate k '0' ++ ds, c.isDigit = true := by
  intro c hc
  exact isDigit_append_zeros h k c (List.mem_append.2 (List.mem_append.1 hc).symm)

/-- A decimal written positionally reads as its value. -/
theorem reading_positional (keepsPoint : Bool) (n : Nat) (e : Int) :
    reading (positional keepsPoint (digitsText n) e) = n * (10 : ℚ) ^ e := by
  have hdigits : ∀ c ∈ digitsText n, c.isDigit = true := fun c hc => isDigit_of_mem_digitsText hc
  rw [positional]
  split
  · next he =>
    obtain ⟨k, rfl⟩ := Int.eq_ofNat_of_zero_le he
    have hzeros := isDigit_append_zeros hdigits k
    rw [Int.toNat_natCast, zpow_natCast]
    cases keepsPoint with
    | true =>
      have hpoint : ∀ c ∈ ['0'], c.isDigit = true := by simp
      rw [if_pos rfl, reading_mantissa (ne_e_of_point hzeros hpoint),
        mantissaValue_point hzeros hpoint, show ['0'] = List.replicate 1 '0' from rfl,
        digitsValue_append_zeros, digitsValue_append_zeros, digitsValue_digitsText,
        List.length_replicate, zpow_neg]
      push_cast
      field_simp
    | false =>
      rw [if_neg Bool.false_ne_true, List.append_nil,
        reading_mantissa fun c hc => ne_of_isDigit (hzeros c hc) (by decide),
        mantissaValue_digits hzeros, digitsValue_append_zeros, digitsValue_digitsText]
      push_cast
      rfl
  · next he =>
    obtain ⟨k, hk, rfl⟩ : ∃ k : Nat, 0 < k ∧ e = -(k : Int) := ⟨(-e).toNat, by omega, by omega⟩
    simp only [neg_neg, Int.toNat_natCast]
    split
    · next hlen =>
      have hzero : ∀ c ∈ ['0'], c.isDigit = true := by simp
      have hfraction := isDigit_zeros_append hdigits (k - (digitsText n).length)
      have hsplit : '0' :: '.' ::
          (List.replicate (k - (digitsText n).length) '0' ++ digitsText n) =
          ['0'] ++ '.' :: (List.replicate (k - (digitsText n).length) '0' ++ digitsText n) := rfl
      rw [hsplit, reading_mantissa (ne_e_of_point hzero hfraction),
        mantissaValue_point hzero hfraction, show ['0'] = List.replicate 1 '0' from rfl,
        digitsValue_zeros_append, digitsValue_zeros_append, digitsValue_digitsText,
        List.length_append, List.length_replicate, Nat.sub_add_cancel hlen]
    · next hlen =>
      have hwhole : ∀ c ∈ (digitsText n).take ((digitsText n).length - k), c.isDigit = true :=
        fun c hc => hdigits c (List.mem_of_mem_take hc)
      have hfraction : ∀ c ∈ (digitsText n).drop ((digitsText n).length - k), c.isDigit = true :=
        fun c hc => hdigits c (List.mem_of_mem_drop hc)
      have hplaces : (digitsText n).length - ((digitsText n).length - k) = k := by omega
      rw [reading_mantissa (ne_e_of_point hwhole hfraction),
        mantissaValue_point hwhole hfraction, List.take_append_drop, digitsValue_digitsText,
        List.length_drop, hplaces]

theorem signedValue_sign (k : Int) :
    signedValue ((if k < 0 then '-' else '+') :: digitsText k.natAbs) = k := by
  split
  · rw [signedValue, digitsValue_digitsText]
    omega
  · rw [signedValue, digitsValue_digitsText]
    omega

/-- A decimal written with an exponent reads as its value. -/
theorem reading_scientific (n : Nat) (e : Int) :
    reading (scientific (digitsText n) (e + (digitsText n).length - 1)) = n * (10 : ℚ) ^ e := by
  have hdigits : ∀ c ∈ digitsText n, c.isDigit = true := fun c hc => isDigit_of_mem_digitsText hc
  have hvalue := digitsValue_digitsText n
  have hne := digitsText_ne_nil n
  generalize digitsText n = ds at hdigits hvalue hne ⊢
  match ds, hne with
  | [d], _ =>
    have hes : ∀ c ∈ [d], c ≠ 'e' := fun c hc => ne_of_isDigit (hdigits c hc) (by decide)
    have hshape : scientific [d] (e + ([d].length : Nat) - 1) =
        [d] ++ 'e' :: ((if e + ([d].length : Nat) - 1 < 0 then '-' else '+') ::
          digitsText (e + ([d].length : Nat) - 1).natAbs) := rfl
    rw [hshape, reading_exponent hes, signedValue_sign, mantissaValue_digits hdigits, hvalue]
    simp
  | d :: f :: rest, _ =>
    have hwhole : ∀ c ∈ [d], c.isDigit = true := fun c hc =>
      hdigits c (List.mem_cons.2 (Or.inl (List.mem_singleton.1 hc)))
    have hfraction : ∀ c ∈ f :: rest, c.isDigit = true := fun c hc =>
      hdigits c (List.mem_cons_of_mem _ hc)
    have hshape : scientific (d :: f :: rest) (e + ((d :: f :: rest).length : Nat) - 1) =
        ([d] ++ '.' :: f :: rest) ++
          'e' :: ((if e + ((d :: f :: rest).length : Nat) - 1 < 0 then '-' else '+') ::
            digitsText (e + ((d :: f :: rest).length : Nat) - 1).natAbs) := rfl
    rw [hshape, reading_exponent (ne_e_of_point hwhole hfraction), signedValue_sign,
      mantissaValue_point hwhole hfraction, List.singleton_append, hvalue, mul_assoc,
      ← zpow_add₀ (by norm_num)]
    congr 2
    simp only [List.length_cons]
    push_cast
    ring

/-- **A decimal reads as its value**, in every number format. -/
theorem reading_text (l : Layout) (d : Decimal) : reading (d.text l) = d.value := by
  simp only [text]
  split
  · exact reading_positional l.keepsPoint d.digits d.exponent
  · exact reading_scientific d.digits d.exponent

theorem head?_digitsText (n : Nat) : ∃ c ∈ (digitsText n).head?, c.isDigit = true := by
  match h : digitsText n, digitsText_ne_nil n with
  | c :: cs, _ => exact ⟨c, rfl, isDigit_of_mem_digitsText (h ▸ List.mem_cons_self ..)⟩

/-- The text of a decimal begins with a digit, and so not with a sign. -/
theorem head?_text (l : Layout) (d : Decimal) : ∃ c ∈ (d.text l).head?, c.isDigit = true := by
  obtain ⟨c, hc, hdigit⟩ := head?_digitsText d.digits
  simp only [text]
  generalize digitsText d.digits = ds at hc ⊢
  match ds, hc with
  | d' :: rest, hc =>
    split
    · rw [positional]
      split
      · exact ⟨c, hc, hdigit⟩
      · simp only
        split
        · exact ⟨'0', rfl, by decide⟩
        · next hlen =>
          obtain ⟨k, hk⟩ : ∃ k, (d' :: rest).length - (-d.exponent).toNat = k + 1 :=
            ⟨(d' :: rest).length - (-d.exponent).toNat - 1, by omega⟩
          rw [hk]
          exact ⟨c, hc, hdigit⟩
    · refine ⟨c, ?_, hdigit⟩
      cases rest <;> exact hc

/-! ## Whole numbers -/

theorem signedValue_intText (i : Int) : signedValue (intText i) = i := by
  rw [intText]
  split
  · rw [signedValue, digitsValue_digitsText]
    omega
  · obtain ⟨c, hc, hdigit⟩ := head?_digitsText i.natAbs
    have hvalue := digitsValue_digitsText i.natAbs
    generalize digitsText i.natAbs = ds at hc hvalue ⊢
    match ds, hc with
    | c' :: rest, hc =>
      cases hc
      rw [signedValue, hvalue]
      · omega
      · rintro _ ⟨⟩
        revert hdigit
        decide
      · rintro _ ⟨⟩
        revert hdigit
        decide

/-- Whole numbers are told apart by their texts. -/
theorem intText_injective {i j : Int} (h : intText i = intText j) : i = j := by
  rw [← signedValue_intText i, h, signedValue_intText]

end Decimal

/-! ## Doubles -/

namespace Binary64

/-- **Doubles are told apart by their texts**, in every number format. -/
theorem text_injective (l : Decimal.Layout) : Function.Injective (Binary64.text l) := by
  intro x y h
  have hhead := Decimal.head?_text l
  have hsigns : ∀ d d' : Decimal, '-' :: d.text l ≠ d'.text l := by
    intro d d' heq
    obtain ⟨c, hc, hdigit⟩ := hhead d'
    rw [← heq] at hc
    cases hc
    revert hdigit
    decide
  have hvalue : ∀ d d' : Decimal, d.text l = d'.text l → d.value = d'.value := by
    intro d d' heq
    rw [← Decimal.reading_text l, heq, Decimal.reading_text]
  simp only [text] at h
  cases hx : x.isNegative <;> cases hy : y.isNegative <;>
    simp only [hx, hy, Bool.false_eq_true, if_true, if_false] at h
  · exact eq_of_magnitude (hx.trans hy.symm) (magnitude_eq_of_value_shortest (hvalue _ _ h))
  · exact absurd h.symm (hsigns _ _)
  · exact absurd h (hsigns _ _)
  · exact eq_of_magnitude (hx.trans hy.symm)
      (magnitude_eq_of_value_shortest (hvalue _ _ (List.cons.inj h).2))

/-- In a document a double has a point or an exponent. -/
theorem exists_mem_text_document (x : Binary64) :
    ∃ c ∈ x.text Decimal.document, c = '.' ∨ c = 'e' := by
  have hdecimal : ∀ d : Decimal, ∃ c ∈ d.text Decimal.document, c = '.' ∨ c = 'e' := by
    intro d
    simp only [Decimal.text]
    split
    · rw [Decimal.positional]
      split
      · exact ⟨'.', by simp [Decimal.document], Or.inl rfl⟩
      · simp only
        split
        · exact ⟨'.', by simp, Or.inl rfl⟩
        · exact ⟨'.', by simp, Or.inl rfl⟩
    · exact ⟨'e', by simp [Decimal.scientific], Or.inr rfl⟩
  obtain ⟨c, hc, hmark⟩ := hdecimal (x.shortest Decimal.document.tie)
  refine ⟨c, ?_, hmark⟩
  simp only [text]
  split
  · exact List.mem_cons_of_mem _ hc
  · exact hc

end Binary64
end WireSchema
