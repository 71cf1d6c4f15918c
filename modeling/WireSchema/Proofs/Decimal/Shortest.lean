import Mathlib.Algebra.Order.Field.Rat
import Mathlib.Algebra.Order.Field.Power
import Mathlib.Tactic.FieldSimp
import Mathlib.Tactic.Linarith
import Mathlib.Tactic.Positivity
import Mathlib.Tactic.Ring
import WireSchema.Decimal.Notation

/-!
# The shortest decimal singles out its double

The decimal that is written for a double lies among the numbers that round to it.  This
module shows that no number rounds to two doubles, and so that different magnitudes are
written as different numbers.

* `Binary64.within_shortest`: the value of the shortest decimal lies in the
  neighbourhood of the double.  Every branch of the search ends in a test of this
  (`Neighbourhood.nearestOnGrid?_within`), and the exact expansion behind it needs none.
* `upper_eq_lower_succ`: in units of `2 ^ (-1076)` all ends of neighbourhoods are natural
  numbers, and each neighbourhood begins where the one before it ends.
* `sig_odd_of_even`: of two adjacent doubles one has an odd significand, so the common
  end belongs to one of them only.
* `Binary64.eq_of_within`: hence a number lies in one neighbourhood at most.
-/

namespace WireSchema

/-! ## The number that a decimal stands for -/

namespace Decimal

/-- The number that a decimal stands for. -/
def value (d : Decimal) : ℚ :=
  d.digits * (10 : ℚ) ^ d.exponent

/-- Zeros at the end of the digits move into the exponent. -/
theorem value_stripZeros (limit : Nat) (d : Decimal) : (stripZeros limit d).value = d.value := by
  induction limit generalizing d with
  | zero => rfl
  | succ limit ih =>
    rw [stripZeros]
    split
    · next h =>
      rw [ih]
      have hdigits : d.digits = d.digits / 10 * 10 := by omega
      have hcast : (d.digits : ℚ) = (d.digits / 10 : ℕ) * 10 := by exact_mod_cast hdigits
      rw [value, value, hcast, zpow_add_one₀ (by norm_num)]
      ring
    · rfl

end Decimal

/-! ## Neighbourhoods -/

namespace Binary64.Neighbourhood

/-- A number lies in a neighbourhood; an end of an open one does not. -/
structure Within (I : Neighbourhood) (v : ℚ) : Prop where
  low_le : I.low * (2 : ℚ) ^ I.exponent ≤ v
  le_high : v ≤ I.high * (2 : ℚ) ^ I.exponent
  ne_ends : I.closed = false →
    I.low * (2 : ℚ) ^ I.exponent ≠ v ∧ v ≠ I.high * (2 : ℚ) ^ I.exponent

/-- A power with an integer exponent, times the power that clears its denominator. -/
theorem zpow_mul_pow_toNat {b : ℚ} (hb : b ≠ 0) (k : Int) :
    b ^ k * b ^ (-k).toNat = b ^ k.toNat := by
  rw [← zpow_natCast, ← zpow_natCast, ← zpow_add₀ hb]
  congr 1
  omega

/-- The test in natural numbers is the test in rational ones. -/
theorem within_of_contains {I : Neighbourhood} {c : Nat} {k : Int} (h : I.contains c k = true) :
    I.Within (c * (10 : ℚ) ^ k) := by
  obtain ⟨low, value, high, e, closed⟩ := I
  have hten := zpow_mul_pow_toNat (b := 10) (by norm_num) k
  have htwo := zpow_mul_pow_toNat (b := 2) (by norm_num) e
  set D : ℚ := (10 : ℚ) ^ (-k).toNat * (2 : ℚ) ^ (-e).toNat with hD
  have hpos : 0 < D := by positivity
  have hpoint : c * (10 : ℚ) ^ k * D = ((c * 10 ^ k.toNat * 2 ^ (-e).toNat : ℕ) : ℚ) := by
    push_cast
    rw [← hten, hD]
    ring
  have hend : ∀ n : ℕ, n * (2 : ℚ) ^ e * D = ((n * (2 ^ e.toNat * 10 ^ (-k).toNat) : ℕ) : ℚ) := by
    intro n
    push_cast
    rw [← htwo, hD]
    ring
  simp only [contains, Nat.pow_eq] at h
  cases closed with
  | true =>
    simp only [if_true, Bool.and_eq_true, decide_eq_true_eq] at h
    refine ⟨?_, ?_, fun hopen => by cases hopen⟩
    · refine le_of_mul_le_mul_right ?_ hpos
      rw [hpoint, hend]
      exact_mod_cast h.1
    · refine le_of_mul_le_mul_right ?_ hpos
      rw [hpoint, hend]
      exact_mod_cast h.2
  | false =>
    simp only [Bool.false_eq_true, if_false, Bool.and_eq_true, decide_eq_true_eq] at h
    have hlow : low * (2 : ℚ) ^ e < c * (10 : ℚ) ^ k := by
      refine lt_of_mul_lt_mul_right ?_ hpos.le
      rw [hpoint, hend]
      exact_mod_cast h.1
    have hhigh : c * (10 : ℚ) ^ k < high * (2 : ℚ) ^ e := by
      refine lt_of_mul_lt_mul_right ?_ hpos.le
      rw [hpoint, hend]
      exact_mod_cast h.2
    exact ⟨hlow.le, hhigh.le, fun _ => ⟨hlow.ne, hhigh.ne⟩⟩

/-- What a grid yields has passed the test. -/
theorem nearestOnGrid?_within {I : Neighbourhood} {tie : Tie} {k : Int} {d : Decimal}
    (h : I.nearestOnGrid? tie k = some d) : I.Within d.value := by
  simp only [nearestOnGrid?] at h
  split at h
  · next hbelow habove =>
    cases h
    simp only [Decimal.value]
    split
    · exact within_of_contains hbelow
    · exact within_of_contains habove
  · next hbelow _ =>
    cases h
    exact within_of_contains hbelow
  · next _ habove =>
    cases h
    exact within_of_contains habove
  · cases h

theorem firstOnGrids_within {I : Neighbourhood} {tie : Tie} {top : Int} {d : Decimal}
    {limit count : Nat} (h : I.firstOnGrids tie top limit count = some d) :
    I.Within d.value := by
  induction limit generalizing count with
  | zero => cases h
  | succ limit ih =>
    rw [firstOnGrids] at h
    split at h
    · next hgrid =>
      cases h
      exact nearestOnGrid?_within hgrid
    · exact ih h

/-- The exact expansion is the value. -/
theorem value_exact (I : Neighbourhood) : I.exact.value = I.value * (2 : ℚ) ^ I.exponent := by
  obtain ⟨low, value, high, e, closed⟩ := I
  simp only [exact, Decimal.value, Nat.pow_eq]
  rcases le_total 0 e with he | he
  · obtain ⟨n, rfl⟩ := Int.eq_ofNat_of_zero_le he
    have hneg : (-(n : Int)).toNat = 0 := by omega
    rw [min_eq_right he, hneg, Int.toNat_natCast, zpow_natCast]
    push_cast
    ring
  · obtain ⟨n, hn⟩ : ∃ n : Nat, e = -(n : Int) := ⟨(-e).toNat, by omega⟩
    subst hn
    have hneg : (-(n : Int)).toNat = 0 := by omega
    rw [min_eq_left he, neg_neg, Int.toNat_natCast, hneg]
    push_cast
    have hfive : (5 : ℚ) ^ n * (10 : ℚ) ^ (-(n : Int)) = (2 : ℚ) ^ (-(n : Int)) := by
      rw [zpow_neg, zpow_neg, zpow_natCast, zpow_natCast, show (10 : ℚ) = 5 * 2 by norm_num,
        mul_pow]
      field_simp
    rw [mul_assoc, hfive]
    ring

end Binary64.Neighbourhood

/-! ## Magnitudes in quarter units

A magnitude is the pattern without its sign.  Patterns are in the order of the magnitudes
that they stand for, so neighbours are consecutive numbers. -/

namespace Binary64

/-- The exponent field of a magnitude. -/
def magField (n : Nat) : Nat :=
  n / leadingPlace

/-- The significand of a magnitude. -/
def magSig (n : Nat) : Nat :=
  if magField n = 0 then n % leadingPlace else n % leadingPlace + leadingPlace

/-- The lower end of the neighbourhood of a magnitude, in units of `2 ^ (-1076)`. -/
def lower (n : Nat) : Nat :=
  (if magSig n = leadingPlace ∧ 1 < magField n then 4 * magSig n - 1 else 4 * magSig n - 2) *
    2 ^ (magField n - 1)

/-- The upper end of the neighbourhood of a magnitude, in units of `2 ^ (-1076)`. -/
def upper (n : Nat) : Nat :=
  (4 * magSig n + 2) * 2 ^ (magField n - 1)

theorem lower_lt_upper (n : Nat) : lower n < upper n := by
  have hpos : 0 < 2 ^ (magField n - 1) := Nat.two_pow_pos _
  refine Nat.mul_lt_mul_of_pos_right ?_ hpos
  split <;> omega

/-- The fields of the next magnitude: the fraction counts on, or it is full and the
exponent does. -/
theorem mag_succ (n : Nat) :
    n % leadingPlace = leadingPlace - 1 ∧ (n + 1) % leadingPlace = 0 ∧
        magField (n + 1) = magField n + 1 ∨
      n % leadingPlace < leadingPlace - 1 ∧ (n + 1) % leadingPlace = n % leadingPlace + 1 ∧
        magField (n + 1) = magField n := by
  simp only [magField, leadingPlace]
  omega

/-- **Neighbourhoods touch.**  Each begins where the one before it ends. -/
theorem upper_eq_lower_succ (n : Nat) : upper n = lower (n + 1) := by
  have hplace : 1 < leadingPlace := by decide
  rcases mag_succ n with ⟨hfull, hzero, hfield⟩ | ⟨hless, hnext, hfield⟩
  · rcases Nat.eq_zero_or_pos (magField n) with h0 | hpos
    · have hsig : magSig n = leadingPlace - 1 := by rw [magSig, if_pos h0, hfull]
      have hsig' : magSig (n + 1) = leadingPlace := by
        rw [magSig, if_neg (by omega), hzero, Nat.zero_add]
      rw [upper, lower, hsig, hsig', hfield, h0, if_neg (by omega)]
      simp only [Nat.zero_add, Nat.sub_self, Nat.zero_sub, pow_zero]
      omega
    · obtain ⟨f, hf⟩ : ∃ f, magField n = f + 1 := ⟨magField n - 1, by omega⟩
      have hsig : magSig n = leadingPlace - 1 + leadingPlace := by
        rw [magSig, if_neg (by omega), hfull]
      have hsig' : magSig (n + 1) = leadingPlace := by
        rw [magSig, if_neg (by omega), hzero, Nat.zero_add]
      rw [upper, lower, hsig, hsig', hfield, hf, if_pos ⟨rfl, by omega⟩, Nat.add_sub_cancel,
        Nat.add_sub_cancel, pow_succ', ← mul_assoc]
      congr 1
  · have hsig : magSig (n + 1) = magSig n + 1 := by
      simp only [magSig, hfield, hnext]
      split <;> omega
    have hne : ¬ (magSig (n + 1) = leadingPlace ∧ 1 < magField (n + 1)) := by
      rintro ⟨heq, hlt⟩
      rw [magSig, if_neg (by omega)] at heq
      omega
    rw [upper, lower, if_neg hne, hsig, hfield]
    congr 1

/-- A later neighbourhood begins at the end of an earlier one or behind it, and at the end
only if it is the next one. -/
theorem upper_le_lower {n m : Nat} (h : n < m) :
    upper n ≤ lower m ∧ (upper n = lower m → m = n + 1) := by
  obtain ⟨k, rfl⟩ : ∃ k, m = n + 1 + k := ⟨m - (n + 1), by omega⟩
  clear h
  induction k with
  | zero => exact ⟨(upper_eq_lower_succ n).le, fun _ => rfl⟩
  | succ k ih =>
    have hstep : lower (n + 1 + k) < lower (n + 1 + (k + 1)) := by
      rw [← Nat.add_assoc, ← upper_eq_lower_succ]
      exact lower_lt_upper _
    exact ⟨by omega, fun heq => by omega⟩

/-- Of two adjacent magnitudes one has an odd significand. -/
theorem sig_odd_of_even (n : Nat) (h : magSig n % 2 = 0) : magSig (n + 1) % 2 ≠ 0 := by
  have hplace : leadingPlace % 2 = 0 ∧ 1 < leadingPlace := by decide
  rcases mag_succ n with ⟨hfull, -, -⟩ | ⟨-, hnext, hfield⟩
  · rw [magSig, hfull] at h
    split at h <;> omega
  · simp only [magSig, hfield, hnext] at h ⊢
    split at h <;> split <;> omega

/-! ## Doubles -/

/-- The magnitude of a double: its pattern without the sign. -/
def magnitude (x : Binary64) : Nat :=
  x.bits.toNat % signPlace

theorem exponentField_eq (x : Binary64) : x.exponentField = magField x.magnitude := by
  have h := x.bits.toNat_lt
  simp only [exponentField, magField, magnitude, signPlace, leadingPlace]
  omega

theorem significand_eq (x : Binary64) : x.significand = magSig x.magnitude := by
  have hfraction : x.fraction = x.magnitude % leadingPlace := by
    simp only [fraction, magnitude, signPlace, leadingPlace]
    omega
  rw [significand, magSig, exponentField_eq, hfraction]

/-- A double is its sign and its magnitude. -/
theorem eq_of_magnitude {x y : Binary64} (hsign : x.isNegative = y.isNegative)
    (hmag : x.magnitude = y.magnitude) : x = y := by
  obtain ⟨bx⟩ := x
  obtain ⟨bY⟩ := y
  have hx := bx.toNat_lt
  have hy := bY.toNat_lt
  simp only [isNegative, magnitude, signPlace] at hsign hmag
  congr 1
  rw [← UInt64.toNat_inj]
  have hdiv : bx.toNat / 9223372036854775808 = bY.toNat / 9223372036854775808 := by
    have hbool := Bool.eq_iff_iff.1 hsign
    simp only [beq_iff_eq] at hbool
    omega
  omega

/-- The exponent of a quarter unit, counted from the least one. -/
theorem exponent_neighbourhood (x : Binary64) :
    x.neighbourhood.exponent = ((magField x.magnitude - 1 : ℕ) : Int) + -1076 := by
  simp only [neighbourhood, exponent, exponentField_eq]
  split <;> omega

theorem low_neighbourhood (x : Binary64) :
    x.neighbourhood.low * (2 : ℚ) ^ x.neighbourhood.exponent =
      lower x.magnitude * (2 : ℚ) ^ (-1076 : Int) := by
  rw [exponent_neighbourhood, zpow_add₀ two_ne_zero, zpow_natCast, ← mul_assoc]
  congr 1
  simp only [neighbourhood, lower, significand_eq, exponentField_eq]
  push_cast
  rfl

theorem high_neighbourhood (x : Binary64) :
    x.neighbourhood.high * (2 : ℚ) ^ x.neighbourhood.exponent =
      upper x.magnitude * (2 : ℚ) ^ (-1076 : Int) := by
  rw [exponent_neighbourhood, zpow_add₀ two_ne_zero, zpow_natCast, ← mul_assoc]
  congr 1
  simp only [neighbourhood, upper, significand_eq]
  push_cast
  rfl

theorem closed_neighbourhood (x : Binary64) :
    x.neighbourhood.closed = (magSig x.magnitude % 2 == 0) := by
  simp only [neighbourhood, significand_eq]

/-- No number lies in the neighbourhoods of a magnitude and of a greater one. -/
theorem not_within_of_lt {x y : Binary64} {v : ℚ} (hx : x.neighbourhood.Within v)
    (hy : y.neighbourhood.Within v) : ¬ x.magnitude < y.magnitude := by
  intro hlt
  obtain ⟨hle, hnext⟩ := upper_le_lower hlt
  have hunit : (0 : ℚ) < (2 : ℚ) ^ (-1076 : Int) := by positivity
  have hends : lower y.magnitude * (2 : ℚ) ^ (-1076 : Int) ≤
      upper x.magnitude * (2 : ℚ) ^ (-1076 : Int) := by
    rw [← low_neighbourhood, ← high_neighbourhood]
    exact hy.low_le.trans hx.le_high
  have hge : lower y.magnitude ≤ upper x.magnitude := by
    exact_mod_cast le_of_mul_le_mul_right hends hunit
  have heq : upper x.magnitude = lower y.magnitude := le_antisymm hle hge
  have hhigh : v = x.neighbourhood.high * (2 : ℚ) ^ x.neighbourhood.exponent := by
    refine le_antisymm hx.le_high ?_
    rw [high_neighbourhood, heq, ← low_neighbourhood]
    exact hy.low_le
  have hlow : y.neighbourhood.low * (2 : ℚ) ^ y.neighbourhood.exponent = v := by
    rw [hhigh, low_neighbourhood, high_neighbourhood, heq]
  -- the common end belongs to both, so both significands are even
  have hclosed : ∀ z : Binary64, z.neighbourhood.Within v →
      (z.neighbourhood.low * (2 : ℚ) ^ z.neighbourhood.exponent = v ∨
        v = z.neighbourhood.high * (2 : ℚ) ^ z.neighbourhood.exponent) →
      magSig z.magnitude % 2 = 0 := by
    intro z hz hend
    by_contra hodd
    have hopen : z.neighbourhood.closed = false := by
      rw [closed_neighbourhood]
      simpa using hodd
    obtain ⟨hne, hne'⟩ := hz.ne_ends hopen
    exact hend.elim hne hne'
  have hevenx := hclosed x hx (Or.inr hhigh)
  have heveny := hclosed y hy (Or.inl hlow)
  rw [hnext heq] at heveny
  exact sig_odd_of_even _ hevenx heveny

/-- **A number rounds to one magnitude at most.** -/
theorem eq_of_within {x y : Binary64} {v : ℚ} (hx : x.neighbourhood.Within v)
    (hy : y.neighbourhood.Within v) : x.magnitude = y.magnitude :=
  Nat.le_antisymm (Nat.not_lt.1 (not_within_of_lt hy hx)) (Nat.not_lt.1 (not_within_of_lt hx hy))

/-! ## The shortest decimal -/

/-- The value of a double other than zero lies inside its neighbourhood. -/
theorem within_exact {x : Binary64} (h : x.significand ≠ 0) :
    x.neighbourhood.Within x.neighbourhood.exact.value := by
  have hpow : (0 : ℚ) < (2 : ℚ) ^ x.neighbourhood.exponent := by positivity
  have hlow : x.neighbourhood.low < x.neighbourhood.value := by
    simp only [neighbourhood]
    split <;> omega
  have hhigh : x.neighbourhood.value < x.neighbourhood.high := by
    simp only [neighbourhood]
    omega
  rw [Neighbourhood.value_exact]
  have hlt : x.neighbourhood.low * (2 : ℚ) ^ x.neighbourhood.exponent <
      x.neighbourhood.value * (2 : ℚ) ^ x.neighbourhood.exponent := by
    refine mul_lt_mul_of_pos_right ?_ hpow
    exact_mod_cast hlow
  have hgt : x.neighbourhood.value * (2 : ℚ) ^ x.neighbourhood.exponent <
      x.neighbourhood.high * (2 : ℚ) ^ x.neighbourhood.exponent := by
    refine mul_lt_mul_of_pos_right ?_ hpow
    exact_mod_cast hhigh
  exact ⟨hlt.le, hgt.le, fun _ => ⟨hlt.ne, hgt.ne⟩⟩

/-- **The shortest decimal rounds to its double.** -/
theorem within_shortest (tie : Tie) {x : Binary64} (h : x.significand ≠ 0) :
    x.neighbourhood.Within (x.shortest tie).value := by
  rw [shortest, if_neg h, Decimal.value_stripZeros]
  cases hfound : x.neighbourhood.firstOnGrids tie
      (Decimal.leadingExponent x.numerator x.denominator) 17 1 with
  | some d => exact Neighbourhood.firstOnGrids_within hfound
  | none => exact within_exact h

theorem value_shortest_zero (tie : Tie) {x : Binary64} (h : x.significand = 0) :
    (x.shortest tie).value = 0 := by
  rw [shortest, if_pos h, Decimal.value, Nat.cast_zero, zero_mul]

theorem value_shortest_pos (tie : Tie) {x : Binary64} (h : x.significand ≠ 0) :
    0 < (x.shortest tie).value := by
  have hlow : 0 < x.neighbourhood.low := by
    simp only [neighbourhood]
    split <;> omega
  have hcast : (0 : ℚ) < x.neighbourhood.low := by exact_mod_cast hlow
  exact lt_of_lt_of_le (by positivity) (within_shortest tie h).low_le

/-- Doubles without a significand are zeros. -/
theorem magnitude_eq_zero {x : Binary64} (h : x.significand = 0) : x.magnitude = 0 := by
  rw [significand_eq, magSig] at h
  have hplace : 0 < leadingPlace := by decide
  split at h
  · next hfield =>
    rw [magField] at hfield
    have hmod := Nat.div_add_mod x.magnitude leadingPlace
    rw [hfield, h] at hmod
    omega
  · omega

/-- **Different magnitudes are written as different numbers.** -/
theorem magnitude_eq_of_value_shortest {tie : Tie} {x y : Binary64}
    (h : (x.shortest tie).value = (y.shortest tie).value) : x.magnitude = y.magnitude := by
  by_cases hx : x.significand = 0 <;> by_cases hy : y.significand = 0
  · rw [magnitude_eq_zero hx, magnitude_eq_zero hy]
  · rw [value_shortest_zero tie hx] at h
    exact absurd h (value_shortest_pos tie hy).ne
  · rw [value_shortest_zero tie hy] at h
    exact absurd h (value_shortest_pos tie hx).ne'
  · exact eq_of_within (within_shortest tie hx) (h ▸ within_shortest tie hy)

end Binary64
end WireSchema
