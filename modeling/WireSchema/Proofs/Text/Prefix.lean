import Mathlib.Tactic.Common

/-!
# Texts taken apart from the left

A text that is put together from parts says what the parts are if each of them shows where it
ends.  There are two ways to show this here.  A run of characters of one sort, such as the digits
of a number or the letters of a word, ends where another character stands (`append_inj_of_forall`).
Between quotes characters are escaped, and the part ends at the first quote that is not
(`escapes_append_inj`).

A number is known from its decimal digits (`repr_injective`).

The statements on parts carry the rest of the text behind the part, so that they can be applied
to one part after the other.
-/

namespace WireSchema
namespace Text

variable {cs ds r r' : List Char}

/-- Two runs of characters of one sort, with something else behind them, are equal if the whole
is. -/
theorem append_inj_of_forall {p : Char → Bool} (hcs : ∀ c ∈ cs, p c = true)
    (hds : ∀ c ∈ ds, p c = true) (hr : ∀ c ∈ r.head?, p c = false)
    (hr' : ∀ c ∈ r'.head?, p c = false) (h : cs ++ r = ds ++ r') : cs = ds ∧ r = r' := by
  induction cs generalizing ds with
  | nil =>
    cases ds with
    | nil => exact ⟨rfl, h⟩
    | cons d ds =>
      have hd := hds d (List.mem_cons_self ..)
      rw [List.nil_append, List.cons_append] at h
      rw [hr d (by rw [h]; rfl)] at hd
      cases hd
  | cons c cs ih =>
    cases ds with
    | nil =>
      have hc := hcs c (List.mem_cons_self ..)
      rw [List.nil_append, List.cons_append] at h
      rw [hr' c (by rw [← h]; rfl)] at hc
      cases hc
    | cons d ds =>
      obtain ⟨rfl, hrest⟩ := List.cons.inj h
      obtain ⟨rfl, rfl⟩ := ih (fun x hx => hcs x (List.mem_cons_of_mem _ hx))
        (fun x hx => hds x (List.mem_cons_of_mem _ hx)) hrest
      exact ⟨rfl, rfl⟩

/-- Two texts of characters of one sort, with something else behind them, are equal if the whole
is. -/
theorem text_append_inj {p : Char → Bool} {s t u v : String} (hs : ∀ c ∈ s.toList, p c = true)
    (ht : ∀ c ∈ t.toList, p c = true) (hu : ∀ c ∈ u.toList.head?, p c = false)
    (hv : ∀ c ∈ v.toList.head?, p c = false) (h : s ++ u = t ++ v) : s = t ∧ u = v := by
  rw [← String.toList_inj, String.toList_append, String.toList_append] at h
  obtain ⟨htext, hrest⟩ := append_inj_of_forall hs ht hu hv h
  exact ⟨String.toList_inj.1 htext, String.toList_inj.1 hrest⟩

/-- Decimal digits say which number they stand for. -/
theorem repr_injective {m n : Nat} (h : m.repr = n.repr) : m = n := by
  rw [← Nat.ofDigitChars_ten_toDigits (n := m), ← Nat.toList_repr, h, Nat.toList_repr,
    Nat.ofDigitChars_ten_toDigits]

/-- Escaped characters in front of a quote are equal if the whole is, provided that a character
is read back from its escape and not from a quote. -/
theorem escapes_append_inj {escape : Char → List Char}
    {unescape : List Char → Option (Char × List Char)}
    (hread : ∀ c r, unescape (escape c ++ r) = some (c, r))
    (hquote : ∀ r, unescape ('"' :: r) = none)
    (h : cs.flatMap escape ++ '"' :: r = ds.flatMap escape ++ '"' :: r') : cs = ds ∧ r = r' := by
  have hne : ∀ c r r', escape c ++ r ≠ '"' :: r' := by
    intro c r r' heq
    have hc := hread c r
    rw [heq, hquote] at hc
    cases hc
  induction cs generalizing ds with
  | nil =>
    cases ds with
    | nil =>
      cases h
      exact ⟨rfl, rfl⟩
    | cons d ds =>
      rw [List.flatMap_cons, List.append_assoc] at h
      exact absurd h.symm (hne d _ _)
  | cons c cs ih =>
    rw [List.flatMap_cons, List.append_assoc] at h
    cases ds with
    | nil => exact absurd h (hne c _ _)
    | cons d ds =>
      rw [List.flatMap_cons, List.append_assoc] at h
      have hcd := (hread c _).symm.trans ((congrArg unescape h).trans (hread d _))
      obtain ⟨rfl, hrest⟩ := Prod.mk.inj (Option.some.inj hcd)
      obtain ⟨rfl, rfl⟩ := ih hrest
      exact ⟨rfl, rfl⟩

end Text
end WireSchema
