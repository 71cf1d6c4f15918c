import WireSchema.Proofs.Json.Reading

/-!
# What is nested too deep is refused

A written value that is nested deeper than containers may be opened is refused, whatever
follows it (`value_refuses`).  A loop over items or entries takes them one after another until
it comes to one that is refused (`TakesUntil`, `EntersUntil`), and so it fails as a whole.  As
for what is taken, this is stated for any scan of the items and for any way to take entries
into account.
-/

namespace WireSchema
namespace Json

/-- A scan refuses the text of a value, whatever follows it. -/
def PathScan.Refuses {α : Type} (scan : PathScan α) (j : Json) : Prop :=
  ∀ r, EndsValue r → ∃ fault, scan (j.chars ++ r) = .error fault

theorem bind_refused {α β : Type} {x : Except Fault α} {f : α → Except Fault β}
    (h : ∃ fault, x = .error fault) : ∃ fault, (x >>= f) = .error fault := by
  obtain ⟨fault, rfl⟩ := h
  exact ⟨fault, rfl⟩

theorem PathScan.Refuses.within {α : Type} {scan : PathScan α} {j : Json} (h : scan.Refuses j)
    (step : Segment) : (scan.within step).Refuses j := by
  intro r hr
  obtain ⟨fault, hfault⟩ := h r hr
  refine ⟨fault.within step, ?_⟩
  rw [PathScan.within, hfault]
  rfl

/-! ## Lists -/

/-- The items of a list are taken one after another until one is refused. -/
inductive TakesUntil {α : Type} (item : PathScan α) : List Json → Prop
  | refused {j : Json} {js : List Json} (refuses : item.Refuses j) : TakesUntil item (j :: js)
  | cons {j : Json} {x : α} {js : List Json} (taken : item.Takes j x)
      (rest : TakesUntil item js) : TakesUntil item (j :: js)

section

variable {α : Type} {item : PathScan α} {js : List Json}

/-- If all is taken that is nested no deeper than `n`, and all else refused, then a list that is
nested deeper comes to an item that is refused. -/
theorem takesUntil_of_nesting {n : Nat}
    (htaken : ∀ j ∈ js, j.nesting ≤ n → ∃ x, item.Takes j x)
    (hrefused : ∀ j ∈ js, n < j.nesting → item.Refuses j) (h : n < itemNesting js) :
    TakesUntil item js := by
  induction js with
  | nil => cases h
  | cons j js ih =>
    obtain ⟨htaken, htakenRest⟩ := List.forall_mem_cons.1 htaken
    obtain ⟨hrefused, hrefusedRest⟩ := List.forall_mem_cons.1 hrefused
    by_cases hj : j.nesting ≤ n
    · obtain ⟨x, hx⟩ := htaken hj
      rw [itemNesting, lt_max_iff] at h
      exact .cons hx (ih htakenRest hrefusedRest (h.resolve_left hj.not_gt))
    · exact .refused (hrefused (Nat.lt_of_not_le hj))

theorem items_itemTail_refused (h : TakesUntil item js) (fuel i : Nat) (r : List Char) :
    ∃ fault, items item fuel (i + 1) (itemTail js ++ ']' :: r) = .error fault := by
  have hlater : (i + 1 == 0) = false := rfl
  induction h generalizing fuel i with
  | refused hrefused =>
    rename_i j js
    cases fuel with
    | zero => exact ⟨_, rfl⟩
    | succ fuel =>
      rw [itemTail_cons_append, items, hlater, nextItem_comma]
      exact bind_refused (hrefused.within (.index (i + 1)) _ (endsValue_itemTail js r))
  | cons htaken _ ih =>
    rename_i j x js _
    cases fuel with
    | zero => exact ⟨_, rfl⟩
    | succ fuel =>
      have hfirst := PathScan.within_of_ok (htaken _ (endsValue_itemTail js r)) (.index (i + 1))
      rw [itemTail_cons_append, items, hlater, nextItem_comma]
      simp only [hfirst, bind, Except.bind]
      exact bind_refused (ih fuel (i + 1) rfl)

/-- **A list with an item that is refused is refused.** -/
theorem listBody_refused (h : TakesUntil item js) (r : List Char) :
    ∃ fault, listBody item (itemChars js ++ ']' :: r) = .error fault := by
  have hstart : (0 == 0) = true := rfl
  refine bind_refused ?_
  cases h with
  | refused hrefused =>
    rename_i j js
    rw [itemChars_cons, List.append_assoc, items, hstart, nextItem_first]
    exact bind_refused (hrefused.within (.index 0) _ (endsValue_itemTail js r))
  | cons htaken hrest =>
    rename_i j x js
    have hfirst := PathScan.within_of_ok (htaken _ (endsValue_itemTail js r)) (.index 0)
    rw [itemChars_cons, List.append_assoc, items, hstart, nextItem_first]
    simp only [hfirst, bind, Except.bind]
    exact bind_refused (items_itemTail_refused hrest _ 0 r)

end

/-! ## Objects -/

/-- Entries are taken into account one after another until one is refused. -/
inductive EntersUntil {σ : Type} (enter : σ → String → Except Fault (Entry σ)) :
    σ → List (String × Json) → Prop
  | refused {acc : σ} {key : String} {j : Json} {es : List (String × Json)} {entry : Entry σ}
      (entered : enter acc key = .ok entry) (refuses : entry.scan.Refuses j) :
      EntersUntil enter acc ((key, j) :: es)
  | cons {acc acc' : σ} {key : String} {j : Json} {es : List (String × Json)} {entry : Entry σ}
      (entered : enter acc key = .ok entry) (taken : entry.scan.Takes j acc')
      (rest : EntersUntil enter acc' es) : EntersUntil enter acc ((key, j) :: es)

section

variable {σ : Type} {enter : σ → String → Except Fault (Entry σ)} {acc : σ}

/-- If every entry is taken whose value is nested no deeper than `n`, and all else refused, then
entries that are nested deeper come to one that is refused. -/
theorem entersUntil_of_nesting {n : Nat} {es : List (String × Json)}
    (htaken : ∀ e ∈ es, e.2.nesting ≤ n → ∀ acc,
      ∃ entry acc', enter acc e.1 = .ok entry ∧ entry.scan.Takes e.2 acc')
    (hrefused : ∀ e ∈ es, n < e.2.nesting → ∀ acc,
      ∃ entry, enter acc e.1 = .ok entry ∧ entry.scan.Refuses e.2)
    (h : n < entryNesting es) : EntersUntil enter acc es := by
  induction es generalizing acc with
  | nil => cases h
  | cons e es ih =>
    obtain ⟨key, j⟩ := e
    obtain ⟨htaken, htakenRest⟩ := List.forall_mem_cons.1 htaken
    obtain ⟨hrefused, hrefusedRest⟩ := List.forall_mem_cons.1 hrefused
    by_cases hj : j.nesting ≤ n
    · obtain ⟨entry, acc', hentry, hacc'⟩ := htaken hj acc
      rw [entryNesting, lt_max_iff] at h
      exact .cons hentry hacc' (ih htakenRest hrefusedRest (h.resolve_left hj.not_gt))
    · obtain ⟨entry, hentry, hrefused⟩ := hrefused (Nat.lt_of_not_le hj) acc
      exact .refused hentry hrefused

/-- The first of some entries, from its key on, is refused. -/
theorem entries_refused_of_nextKey {first : Bool} {cs r : List Char} {key : String} {j : Json}
    {entry : Entry σ} (hkey : nextKey first cs =
      .ok (some (key.toList.flatMap escape ++ '"' :: ':' :: (j.chars ++ r))))
    (hentry : enter acc key = .ok entry) (hrefused : entry.scan.Refuses j) (hr : EndsValue r)
    (fuel : Nat) : ∃ fault, entries enter fuel first acc cs = .error fault := by
  cases fuel with
  | zero => exact ⟨_, rfl⟩
  | succ fuel =>
    have hscan : (Scan.here scanText)
        (key.toList.flatMap escape ++ '"' :: ':' :: (j.chars ++ r)) =
        .ok (key, ':' :: (j.chars ++ r)) := by
      rw [Scan.here, scanText_escapes]
      rfl
    have hcolon : colon (':' :: (j.chars ++ r)) = .ok (j.chars ++ r) := rfl
    obtain ⟨fault, hfault⟩ := hrefused.within entry.step r hr
    refine ⟨fault, ?_⟩
    rw [entries, hkey]
    simp only [PathScan.within_of_ok hscan, hentry, hcolon, Except.mapError, hfault, bind,
      Except.bind]

theorem entries_entryTail_refused {es : List (String × Json)} (h : EntersUntil enter acc es)
    (fuel : Nat) (r : List Char) :
    ∃ fault, entries enter fuel false acc (entryTail es ++ '\x7d' :: r) = .error fault := by
  induction h generalizing fuel with
  | refused hentered hrefused =>
    rename_i key j es _
    rw [entryTail_cons_append]
    exact entries_refused_of_nextKey rfl hentered hrefused (endsValue_entryTail es r) fuel
  | cons hentered htaken _ ih =>
    rename_i key j es _ _
    cases fuel with
    | zero => exact ⟨_, rfl⟩
    | succ fuel =>
      rw [entryTail_cons_append,
        entries_of_nextKey rfl hentered htaken (endsValue_entryTail es r)]
      exact ih fuel

/-- **An object with an entry that is refused is refused.** -/
theorem objectBody_refused {es : List (String × Json)} (h : EntersUntil enter acc es)
    (r : List Char) :
    ∃ fault, objectBody acc enter (entryChars es ++ '\x7d' :: r) = .error fault := by
  refine bind_refused ?_
  cases h with
  | refused hentered hrefused =>
    rename_i key j es _
    rw [entryChars_cons_append]
    exact entries_refused_of_nextKey rfl hentered hrefused (endsValue_entryTail es r) _
  | cons hentered htaken hrest =>
    rename_i key j es _
    rw [entryChars_cons_append, entries_of_nextKey rfl hentered htaken (endsValue_entryTail es r)]
    exact entries_entryTail_refused hrest _ r

end

/-- An object with any keys is refused if it is nested too deep for its entries. -/
theorem entriesBody_refused {α : Type} {item : PathScan α} {n : Nat} {es : List (String × Json)}
    (htaken : ∀ e ∈ es, e.2.nesting ≤ n → ∃ x, item.Takes e.2 x)
    (hrefused : ∀ e ∈ es, n < e.2.nesting → item.Refuses e.2) (h : n < entryNesting es)
    (r : List Char) : ∃ fault, entriesBody item (entryChars es ++ '\x7d' :: r) = .error fault := by
  refine bind_refused (objectBody_refused (entersUntil_of_nesting ?taken ?refused h) r)
  case taken =>
    intro e he hn acc
    obtain ⟨x, hx⟩ := htaken e he hn
    refine ⟨_, (e.1, x) :: acc, rfl, fun r hr => ?_⟩
    simp only [hx r hr, bind, Except.bind, pure, Except.pure]
  case refused =>
    exact fun e he hn acc => ⟨_, rfl, fun r hr => bind_refused (hrefused e he hn r hr)⟩

/-! ## Any value -/

/-- **A plain value that is nested deeper than containers may be opened is refused.** -/
theorem value_refuses {j : Json} (hj : j.Plain) {budget : Nat} (hnesting : budget < j.nesting) :
    (value budget).Refuses j := by
  induction budget generalizing j with
  | zero =>
    cases hj with
    | list plain => exact fun r _ => ⟨_, rfl⟩
    | object plain => exact fun r _ => ⟨_, rfl⟩
    | _ => cases hnesting
  | succ budget ih =>
    cases hj with
    | list plain =>
      rename_i items
      rw [nesting] at hnesting
      have huntil : TakesUntil (value budget) items :=
        takesUntil_of_nesting (fun j hj hn => ⟨j, value_chars (plain j hj) hn⟩)
          (fun j hj hn => ih (plain j hj) hn) (Nat.lt_of_succ_lt_succ hnesting)
      intro r _
      rw [chars, List.cons_append, List.append_assoc, value, skipBlanks_cons (by decide)]
      exact bind_refused (listBody_refused huntil r)
    | object plain =>
      rename_i es
      rw [nesting] at hnesting
      intro r _
      rw [chars, List.cons_append, List.append_assoc, value, skipBlanks_cons (by decide)]
      exact bind_refused (entriesBody_refused (fun e he hn => ⟨e.2, value_chars (plain e he) hn⟩)
        (fun e he hn => ih (plain e he) hn) (Nat.lt_of_succ_lt_succ hnesting) r)
    | _ => cases hnesting

end Json
end WireSchema
