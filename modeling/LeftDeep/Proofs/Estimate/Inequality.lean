import LeftDeep.JoinEstimate
import LeftDeep.Proofs.Double.Nearest

/-!
# The rows of an inequality

A comparison other than equality is estimated to pass three tenths of all pairs of rows, rounded
down. The fraction is no double, and neither are most of the products, so the estimate is rounded
after each step before it is rounded down. As long as the pairs number less than `2 ^ 50`, all this
moves it by less than a tenth of a row. That matters only where three tenths of the pairs are a
whole number: there the estimate may be one row short, unless the rows of the left side are a
multiple of ten.

## Main definitions

* `Comparison.passing`: the pairs that are estimated to pass, before they are rounded down.
* `Comparison.IsNear`: an estimate that is exact or one row short.

## Main statements

* `Comparison.toNat_joinRows`: the estimate in integers, for all numbers of rows.
* `Comparison.passing_div_bounds`: it is one row short at most.
* `Comparison.passing_div_of_dvd`: it is exact if the left side has a multiple of ten rows.
* `Comparison.joinRows_near`: the estimate of a join and of its exchanged sides.
-/

namespace LeftDeep.Comparison

open Double

/-! ## The estimate in integers -/

/-- Three tenths in parts of `2 ^ 54`, less the fifth of a part that a double cannot hold. -/
def threeTenths : ℕ := 5404319552844595

theorem isMultiple_inequalityFraction : IsMultiple inequalityFraction threeTenths 1020 := by
  have size_eq : size inequalityFraction = scaled threeTenths (-54) := by decide +kernel
  have exponent : (-54 + 1074 : ℤ).toNat = 1020 := by decide
  refine ⟨by decide +kernel, by decide +kernel, ?_⟩
  rw [size_eq, scaled, exponent]

/-- The pairs that are estimated to pass, in parts of `2 ^ 54`, rounded after each product. -/
def passing (left right : ℕ) : ℕ :=
  roundTo 0 (roundTo 0 (threeTenths * roundTo 0 left) * roundTo 0 right)

theorem toNat_joinRows {op : Comparison} (different : op ≠ .equal) (left right : Rows)
    (leftKeyed rightKeyed : Bool) :
    (op.joinRows left right leftKeyed rightKeyed).toNat =
      min (passing left.toNat right.toNat / 2 ^ 54) (2 ^ 64 - 1) := by
  have unequal : ¬op.isEqual = true := by
    rw [isEqual, beq_iff_eq]
    exact different
  have bits : threeTenths < 2 ^ 53 := by decide
  have room : 53 + 65 + 1020 ≤ 53 + topShift := by
    rw [topShift]
    omega
  have room' : 53 + 65 + 65 + 1020 ≤ 53 + topShift := by
    rw [topShift]
    omega
  have places : 1020 + 54 = 1074 := rfl
  have first := isMultiple_inequalityFraction.mul_toFloat bits room left
  have second := first.mul_toFloat (IsMultiple.mul_lt bits left) room' right
  rw [joinRows, if_neg unequal, toNat_toUInt64 second.nonneg, second.whole_eq places, passing]

/-! ## How far the estimate is off -/

variable {left right : ℕ}

/-- Without pairs, none passes. -/
theorem passing_of_mul_eq_zero (none : left * right = 0) : passing left right = 0 := by
  rcases Nat.mul_eq_zero.1 none with rfl | rfl
  · simp only [passing, roundTo_zero, Nat.mul_zero, Nat.zero_mul]
  · simp only [passing, roundTo_zero, Nat.mul_zero]

/-- If there are pairs, but not too many, the rows of both sides are doubles. -/
theorem passing_of_pos (some : 0 < left * right) (small : left * right < 2 ^ 50) :
    passing left right = roundTo 0 (roundTo 0 (threeTenths * left) * right) := by
  have le : left ≤ left * right := Nat.le_mul_of_pos_right left (Nat.pos_of_mul_pos_left some)
  have le' : right ≤ left * right := Nat.le_mul_of_pos_left right (Nat.pos_of_mul_pos_right some)
  rw [passing, roundTo_of_lt (n := left) (by omega), roundTo_of_lt (n := right) (by omega)]

/-- Each of the two products is rounded by one part in `2 ^ 53` at most. -/
theorem passing_bounds (small : left * right < 2 ^ 50) :
    2 ^ 106 * passing left right ≤ (2 ^ 53 + 1) ^ 2 * (threeTenths * (left * right)) ∧
      (2 ^ 53 - 1) ^ 2 * (threeTenths * (left * right)) ≤ 2 ^ 106 * passing left right := by
  rcases Nat.eq_zero_or_pos (left * right) with none | some
  · rw [passing_of_mul_eq_zero none, none]
    simp
  · rw [passing_of_pos some small]
    have above := Nat.mul_le_mul_right right (roundTo_le (threeTenths * left))
    have below := Nat.mul_le_mul_right right (le_roundTo (threeTenths * left))
    have above' := roundTo_le (roundTo 0 (threeTenths * left) * right)
    have below' := le_roundTo (roundTo 0 (threeTenths * left) * right)
    rw [Nat.mul_assoc, Nat.mul_assoc, Nat.mul_assoc] at above
    rw [Nat.add_mul, Nat.mul_assoc, Nat.mul_assoc, Nat.mul_assoc] at below
    omega

/-- The estimate is three tenths of the pairs, rounded down, or one row less where these are a whole
number. -/
theorem passing_div_bounds (small : left * right < 2 ^ 50) :
    passing left right / 2 ^ 54 = 3 * (left * right) / 10 ∨
      10 ∣ left * right ∧ passing left right / 2 ^ 54 + 1 = 3 * (left * right) / 10 := by
  obtain ⟨above, below⟩ := passing_bounds small
  have above' : 10 * passing left right ≤ 3 * 2 ^ 54 * (left * right) + 11 * (left * right) := by
    rw [threeTenths] at above
    omega
  have below' : 3 * 2 ^ 54 * (left * right) ≤ 10 * passing left right + 14 * (left * right) := by
    rw [threeTenths] at below
    omega
  -- Three tenths of the pairs are a whole number, or at least a tenth away from one.
  have tenths := Nat.div_add_mod (3 * (left * right)) 10
  rcases Nat.eq_zero_or_pos (3 * (left * right) % 10) with whole | broken
  · have dvd : 10 ∣ left * right := by omega
    omega
  · left
    omega

/-- Three tenths of a multiple of ten are a double, and near enough to what is rounded. -/
theorem roundTo_threeTenths_mul {d : ℕ} (small : d < 2 ^ 47) :
    roundTo 0 (threeTenths * (10 * d)) = 3 * d * 2 ^ 54 := by
  have dvd : 2 ^ lastBit (threeTenths * (10 * d)) ∣ 3 * d * 2 ^ 54 := by
    apply dvd_mul_of_dvd_right
    apply pow_dvd_pow
    apply lastBit_le
    rw [threeTenths]
    omega
  have bits := lt_two_pow_lastBit (threeTenths * (10 * d))
  apply roundTo_eq_of_near dvd
  · rw [threeTenths] at *
    omega
  · rw [threeTenths] at *
    omega

theorem passing_div_of_dvd (small : left * right < 2 ^ 50) (dvd : 10 ∣ left) :
    passing left right / 2 ^ 54 = 3 * (left * right) / 10 := by
  rcases Nat.eq_zero_or_pos (left * right) with none | some
  · rw [passing_of_mul_eq_zero none, none]
    rfl
  · obtain ⟨d, rfl⟩ := dvd
    have le : 10 * d ≤ 10 * d * right :=
      Nat.le_mul_of_pos_right (10 * d) (Nat.pos_of_mul_pos_left some)
    have assoc : 10 * d * right = 10 * (d * right) := Nat.mul_assoc _ _ _
    have product : 3 * d * 2 ^ 54 * right = 3 * (d * right) * 2 ^ 54 := by
      rw [Nat.mul_right_comm, Nat.mul_assoc 3]
    rw [passing_of_pos some small, roundTo_threeTenths_mul (by omega), product, roundTo_shift,
      roundTo_of_lt (by omega), Nat.mul_div_cancel _ (Nat.two_pow_pos 54), assoc]
    omega

/-! ## Both arrangements of a join -/

/-- The estimated rows are three tenths of the pairs, rounded down. One row may be missing, but only
if three tenths of the pairs are a whole number and the rows of the left side no multiple of ten. -/
def IsNear (left right rows : ℕ) : Prop :=
  rows = 3 * (left * right) / 10 ∨
    10 ∣ left * right ∧ ¬10 ∣ left ∧ rows + 1 = 3 * (left * right) / 10

theorem isNear_joinRows {op : Comparison} (different : op ≠ .equal) {left right : Rows}
    (small : left.toNat * right.toNat < 2 ^ 50) (leftKeyed rightKeyed : Bool) :
    IsNear left.toNat right.toNat (op.joinRows left right leftKeyed rightKeyed).toNat := by
  have bounds := passing_div_bounds small
  have fits : passing left.toNat right.toNat / 2 ^ 54 ≤ 2 ^ 64 - 1 := by omega
  rw [toNat_joinRows different, Nat.min_eq_left fits]
  rcases bounds with eq | ⟨dvd, short⟩
  · exact .inl eq
  · by_cases dvd' : 10 ∣ left.toNat
    · exact .inl (passing_div_of_dvd small dvd')
    · exact .inr ⟨dvd, dvd', short⟩

/-- The estimate of an inequality is three tenths of the pairs, rounded down, or one row less. So
the sides of a join can be exchanged without any difference to the estimate, or with a difference of
one row; the latter only if the pairs are a multiple of ten and the rows of one side are not. -/
theorem joinRows_near {op op' : Comparison} (different : op ≠ .equal) (different' : op' ≠ .equal)
    {left right : Rows} (small : left.toNat * right.toNat < 2 ^ 50)
    (leftKeyed rightKeyed leftKeyed' rightKeyed' : Bool) :
    IsNear left.toNat right.toNat (op.joinRows left right leftKeyed rightKeyed).toNat ∧
    (op'.joinRows right left rightKeyed' leftKeyed' = op.joinRows left right leftKeyed rightKeyed ∨
      10 ∣ left.toNat * right.toNat ∧ ¬(10 ∣ left.toNat ∧ 10 ∣ right.toNat) ∧
        ((op'.joinRows right left rightKeyed' leftKeyed').toNat + 1 =
            (op.joinRows left right leftKeyed rightKeyed).toNat ∨
          (op'.joinRows right left rightKeyed' leftKeyed').toNat =
            (op.joinRows left right leftKeyed rightKeyed).toNat + 1)) := by
  have near := isNear_joinRows different small leftKeyed rightKeyed
  have near' := isNear_joinRows different' (Nat.mul_comm _ _ ▸ small) rightKeyed' leftKeyed'
  refine ⟨near, ?_⟩
  rw [← UInt64.toNat_inj]
  rw [IsNear, Nat.mul_comm right.toNat] at near'
  rcases near with eq | ⟨dvd, notDvd, short⟩
  · rcases near' with eq' | ⟨dvd, notDvd, short'⟩
    · exact .inl (eq'.trans eq.symm)
    · exact .inr ⟨dvd, fun both => notDvd both.2, .inl (short'.trans eq.symm)⟩
  · rcases near' with eq' | ⟨-, -, short'⟩
    · exact .inr ⟨dvd, fun both => notDvd both.1, .inr (eq'.trans short.symm)⟩
    · exact .inl (Nat.succ.inj (short'.trans short.symm))

/-- Of 90 pairs, 27 pass, but one of them is lost if the side with 3 rows is the left one. -/
theorem three_thirty_joinRows_near :
    (less ≠ equal ∧ greater ≠ equal ∧ (3 : Rows).toNat * (30 : Rows).toNat < 2 ^ 50) ∧
    (less.joinRows 3 30 false true).toNat + 1 = 3 * (3 * 30) / 10 ∧
    (greater.joinRows 30 3 true false).toNat = (less.joinRows 3 30 false true).toNat + 1 := by
  have different : less ≠ equal ∧ greater ≠ equal := by decide
  have small : (3 : Rows).toNat * (30 : Rows).toNat < 2 ^ 50 := by decide
  obtain ⟨near, exchanged⟩ := joinRows_near different.1 different.2 small false true false true
  refine ⟨⟨different.1, different.2, small⟩, ?_, ?_⟩
  · rcases near with eq | ⟨-, -, short⟩
    · exact absurd eq (by decide +kernel)
    · exact short
  · rcases exchanged with eq | ⟨-, -, less | greater⟩
    · exact absurd eq (by decide +kernel)
    · exact absurd less (by decide +kernel)
    · exact greater

/-- Not every estimate is three tenths of the pairs, rounded down, even of few pairs. -/
theorem not_toNat_joinRows_eq :
    ¬∀ (op : Comparison) (left right : Rows) (leftKeyed rightKeyed : Bool), op ≠ .equal →
      left.toNat * right.toNat < 2 ^ 50 →
        (op.joinRows left right leftKeyed rightKeyed).toNat =
          3 * (left.toNat * right.toNat) / 10 := by
  intro same
  have estimate := same .less 3 30 false false (by decide) (by decide)
  exact absurd estimate (by decide +kernel)

end LeftDeep.Comparison
