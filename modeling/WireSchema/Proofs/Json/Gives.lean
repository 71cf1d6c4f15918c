import WireSchema.Proofs.Json.Reading

/-!
# What scans give

Whatever the characters are, a scan gives only what has some property (`PathScan.Gives`).  The
loops over items and entries hand the property of what they take on to the whole list or
object, and so a value is nested no deeper than containers may be opened to read it
(`gives_value`).
-/

namespace WireSchema
namespace Json

/-! ## Scans without a fault -/

theorem exists_of_bind_eq_ok {ε α β : Type} {x : Except ε α} {f : α → Except ε β} {b : β}
    (h : (x >>= f) = .ok b) : ∃ a, x = .ok a ∧ f a = .ok b := by
  cases x with
  | error e => cases h
  | ok a => exact ⟨a, rfl, h⟩

theorem eq_ok_of_mapError {ε ε' α : Type} {x : Except ε α} {f : ε → ε'} {a : α}
    (h : x.mapError f = .ok a) : x = .ok a := by
  cases x with
  | error e => cases h
  | ok a' =>
    cases h
    rfl

/-- Whatever a scan takes satisfies a property. -/
def PathScan.Gives {α : Type} (scan : PathScan α) (P : α → Prop) : Prop :=
  ∀ cs x rest, scan cs = .ok (x, rest) → P x

theorem PathScan.Gives.within {α : Type} {scan : PathScan α} {P : α → Prop} (h : scan.Gives P)
    (step : Segment) : (scan.within step).Gives P :=
  fun cs x rest heq => h cs x rest (eq_ok_of_mapError heq)

/-! ### Lists and objects -/

section

variable {α : Type} {item : PathScan α} {P : α → Prop}

theorem gives_items (h : item.Gives P) (fuel i : Nat) :
    (items item fuel i).Gives fun xs => ∀ x ∈ xs, P x := by
  induction fuel generalizing i with
  | zero =>
    intro cs xs rest heq
    cases heq
  | succ fuel ih =>
    intro cs xs rest heq
    rw [items] at heq
    split at heq
    · cases heq
    · cases heq
      exact List.forall_mem_nil _
    · obtain ⟨⟨x, cs'⟩, hx, heq⟩ := exists_of_bind_eq_ok heq
      obtain ⟨⟨xs', cs''⟩, hxs, heq⟩ := exists_of_bind_eq_ok heq
      cases heq
      exact List.forall_mem_cons.2 ⟨h.within _ _ _ _ hx, ih _ _ _ _ hxs⟩

theorem gives_listBody (h : item.Gives P) : (listBody item).Gives fun xs => ∀ x ∈ xs, P x := by
  intro cs xs rest heq
  obtain ⟨⟨xs', cs'⟩, hxs, heq⟩ := exists_of_bind_eq_ok heq
  obtain ⟨rest', -, heq⟩ := exists_of_bind_eq_ok heq
  cases heq
  exact gives_items h _ _ _ _ _ hxs

end

section

variable {σ : Type} {enter : σ → String → Except Fault (Entry σ)} {I : σ → Prop}

/-- What every entry keeps up is kept up by all of them. -/
theorem gives_entries
    (henter : ∀ acc key entry, I acc → enter acc key = .ok entry → entry.scan.Gives I)
    (fuel : Nat) (first : Bool) {acc : σ} (hacc : I acc) :
    (entries enter fuel first acc).Gives I := by
  induction fuel generalizing first acc with
  | zero => nofun
  | succ fuel ih =>
    intro cs acc' rest heq
    rw [entries] at heq
    split at heq
    · cases heq
    · cases heq
      exact hacc
    · obtain ⟨⟨key, cs'⟩, -, heq⟩ := exists_of_bind_eq_ok heq
      obtain ⟨entry, hentry, heq⟩ := exists_of_bind_eq_ok heq
      obtain ⟨cs'', -, heq⟩ := exists_of_bind_eq_ok heq
      obtain ⟨⟨acc'', cs'''⟩, hscan, heq⟩ := exists_of_bind_eq_ok heq
      exact ih false ((henter acc key entry hacc hentry).within _ _ _ _ hscan) _ _ _ heq

theorem gives_objectBody {start : σ} (hstart : I start)
    (henter : ∀ acc key entry, I acc → enter acc key = .ok entry → entry.scan.Gives I) :
    (objectBody start enter).Gives I := by
  intro cs acc rest heq
  obtain ⟨⟨acc', cs'⟩, hacc, heq⟩ := exists_of_bind_eq_ok heq
  obtain ⟨rest', -, heq⟩ := exists_of_bind_eq_ok heq
  cases heq
  exact gives_entries henter _ _ hstart _ _ _ hacc

end

theorem gives_entriesBody {α : Type} {item : PathScan α} {P : α → Prop} (h : item.Gives P) :
    (entriesBody item).Gives fun es => ∀ e ∈ es, P e.2 := by
  intro cs es rest heq
  obtain ⟨⟨acc, cs'⟩, hacc, heq⟩ := exists_of_bind_eq_ok heq
  cases heq
  have hall : ∀ e ∈ acc, P e.2 := by
    refine gives_objectBody (I := fun acc => ∀ e ∈ acc, P e.2) nofun ?_ _ _ _ hacc
    rintro acc key _ hacc ⟨⟩ cs acc' rest heq
    obtain ⟨⟨x, cs'⟩, hx, heq⟩ := exists_of_bind_eq_ok heq
    cases heq
    exact List.forall_mem_cons.2 ⟨h _ _ _ hx, hacc⟩
  exact fun e he => hall e (List.mem_reverse.1 he)

/-! ### Any value -/

theorem nesting_of_scaled {negative : Bool} {significand : Nat} {exponent : Int} {j : Json}
    (h : scaled negative significand exponent = .ok j) : j.nesting = 0 := by
  rw [scaled] at h
  dsimp only at h
  split at h
  · cases h
    rfl
  · split at h
    · split at h
      · cases h
        rfl
      · cases h
    · split at h
      · cases h
        rfl
      · cases h

theorem nesting_wholeNumber (negative : Bool) (significand : Nat) :
    (wholeNumber negative significand).nesting = 0 := by
  rw [wholeNumber]
  split
  · rfl
  · split <;> rfl

section

variable {negative : Bool} {significand : Nat} {cs rest : List Char} {j : Json}

theorem nesting_of_exponentPart {start : Int}
    (h : exponentPart negative significand start cs = .ok (j, rest)) : j.nesting = 0 := by
  rw [exponentPart.eq_def] at h
  dsimp only at h
  split at h
  · cases h
  -- The sign of the exponent only decides which number it is.
  · split at h <;>
    · split at h
      · split at h
        · cases h
        · cases h
          rfl
      · obtain ⟨x, hx, h⟩ := exists_of_bind_eq_ok h
        cases h
        exact nesting_of_scaled hx

theorem nesting_of_numberEnd {exponent : Int}
    (h : numberEnd negative significand exponent cs = .ok (j, rest)) : j.nesting = 0 := by
  rw [numberEnd.eq_def] at h
  split at h
  · exact nesting_of_exponentPart h
  · exact nesting_of_exponentPart h
  · obtain ⟨x, hx, h⟩ := exists_of_bind_eq_ok h
    cases h
    exact nesting_of_scaled hx

theorem nesting_of_fractionPart {start : Int}
    (h : fractionPart negative significand start cs = .ok (j, rest)) : j.nesting = 0 := by
  rw [fractionPart] at h
  split at h
  · cases h
  · exact nesting_of_numberEnd h

theorem nesting_of_afterWhole (h : afterWhole negative significand cs = .ok (j, rest)) :
    j.nesting = 0 := by
  rw [afterWhole.eq_def] at h
  split at h
  · exact nesting_of_fractionPart h
  · exact nesting_of_exponentPart h
  · exact nesting_of_exponentPart h
  · cases h
    exact nesting_wholeNumber negative significand

theorem nesting_of_unsignedNumber (h : unsignedNumber negative cs = .ok (j, rest)) :
    j.nesting = 0 := by
  rw [unsignedNumber] at h
  split at h
  · cases h
  · exact nesting_of_afterWhole h
  · cases h
  · split at h
    · exact nesting_of_afterWhole h
    · split at h
      · exact nesting_of_fractionPart h
      · exact nesting_of_numberEnd h

theorem nesting_of_scalar (h : scalar cs = .ok (j, rest)) : j.nesting = 0 := by
  rw [scalar.eq_def] at h
  split at h
  case h_1 => cases h
  case h_6 =>
    split at h
    · rw [number.eq_def] at h
      split at h <;> exact nesting_of_unsignedNumber h
    · cases h
  all_goals
    obtain ⟨x, -, h⟩ := exists_of_bind_eq_ok h
    cases h
    rfl

end

/-- A value is nested no deeper than containers may be opened to read it. -/
theorem gives_value (budget : Nat) : (value budget).Gives fun j => j.nesting ≤ budget := by
  have hscalar : (Scan.here scalar).Gives fun j => j.nesting = 0 :=
    fun _ _ _ h => nesting_of_scalar (eq_ok_of_mapError h)
  induction budget with
  | zero =>
    intro cs j rest h
    rw [value] at h
    split at h
    · cases h
    · cases h
    · exact (hscalar _ _ _ h).le
  | succ budget ih =>
    intro cs j rest h
    rw [value] at h
    split at h
    · obtain ⟨⟨xs, rest'⟩, hxs, h⟩ := exists_of_bind_eq_ok h
      cases h
      exact Nat.succ_le_succ (itemNesting_le.2 (gives_listBody ih _ _ _ hxs))
    · obtain ⟨⟨es, rest'⟩, hes, h⟩ := exists_of_bind_eq_ok h
      cases h
      exact Nat.succ_le_succ (entryNesting_le.2 (gives_entriesBody ih _ _ _ hes))
    · exact (hscalar _ _ _ h).le.trans (Nat.zero_le _)

end Json
end WireSchema
