import LeftDeep.Proofs.Double.Arithmetic

/-!
# Whole parts

A double that is not negative is converted to an integer by dropping what is less than one. What is
too large for an integer of 64 bits becomes the largest one.

## Main definitions

* `Double.whole`: the whole part of a double.

## Main statements

* `Double.toNat_toUInt64`: the conversion to an integer takes the whole part.
-/

namespace LeftDeep.Double

open Float.Model Float.Model.UnpackedFloat

/-- The whole part of a double that is not negative: how many times its quanta make a one. -/
def whole (x : Float) : ℕ := size x / scaled 1 0

/-- Shifting the mantissa until the exponent is zero leaves the whole part. -/
theorem roundToInt_positive (m : ℕ) {e : ℤ} (least : -1074 ≤ e) :
    roundToInt .positive m e = (scaled m e / scaled 1 0 : ℕ) := by
  have shifted := (shiftedFrom_shiftRight (m <<< (e - 0).toNat)
    (0 - (e - (e - 0).toNat)).toNat).mantissa
  have unfolded : roundToInt .positive m e =
      (m <<< (e - 0).toNat / 2 ^ (0 - (e - (e - 0).toNat)).toNat : ℕ) := by
    rw [← shifted]
    rfl
  rw [unfolded, Nat.shiftLeft_eq, scaled, scaled, Nat.one_mul]
  congr 1
  -- Only one of the two shifts does something: to the left for whole numbers, else to the right.
  rcases le_total 0 e with nonneg | neg
  · have left : (e - 0).toNat = e.toNat := by omega
    have right : (0 - (e - (e - 0).toNat)).toNat = 0 := by omega
    have whole : (e + 1074).toNat = e.toNat + (0 + 1074 : ℤ).toNat := by omega
    rw [right, left, whole, pow_add, ← Nat.mul_assoc, pow_zero, Nat.div_one,
      Nat.mul_div_cancel _ (Nat.two_pow_pos _)]
  · have left : (e - 0).toNat = 0 := by omega
    have right : (0 - (e - (e - 0).toNat)).toNat = (-e).toNat := by omega
    have whole : (0 + 1074 : ℤ).toNat = (-e).toNat + (e + 1074).toNat := by omega
    rw [right, left, whole, pow_add, pow_zero, Nat.mul_one,
      Nat.mul_div_mul_right _ _ (Nat.two_pow_pos _)]

/-- The infinity is beyond the integers of 64 bits. -/
theorem two_pow_le_infinite : 2 ^ 64 * scaled 1 0 ≤ infinite := by
  have regular : Regular (2 ^ 52) 12 := ⟨by decide, by decide, .inl le_rfl⟩
  have exponent : (12 + 1074 : ℤ).toNat = 12 + (0 + 1074 : ℤ).toNat := by decide
  have eq : scaled (2 ^ 52) 12 = 2 ^ 64 * scaled 1 0 := by
    rw [scaled, scaled, exponent, pow_add, Nat.one_mul, ← Nat.mul_assoc, ← pow_add]
  exact eq ▸ (scaled_lt_infinite regular (by decide)).le

theorem toNat_ofNatClamp (n : ℕ) : (UInt64.ofNatClamp n).toNat = min n (2 ^ 64 - 1) := by
  rw [UInt64.ofNatClamp]
  split
  · next lt =>
    have le : n ≤ 2 ^ 64 - 1 := Nat.le_sub_one_of_lt lt
    rw [Nat.min_eq_left le]
    rfl
  · next ge =>
    have le : 2 ^ 64 - 1 ≤ n := (Nat.sub_le _ 1).trans (not_lt.1 ge)
    rw [Nat.min_eq_right le]
    rfl

/-- A double that is not negative is converted to its whole part, as far as that fits. -/
theorem toNat_toUInt64 {x : Float} (h : 0 ≤ x) : x.toUInt64.toNat = min (whole x) (2 ^ 64 - 1) := by
  have rounded := (rounded_of_nonneg h).1
  have unfolded : x.toUInt64 =
      UInt64.ofNatClamp (toInt 0 (UInt64.size - 1) x.toModel.unpack).toNat := rfl
  rw [unfolded, toNat_ofNatClamp, whole, size]
  cases eq : x.toModel.unpack with
  | notANumber =>
    rw [eq] at rounded
    exact rounded.elim
  | infinity s =>
    rw [eq] at rounded
    obtain rfl : s = .positive := rounded
    have large : 2 ^ 64 ≤ infinite / scaled 1 0 :=
      (Nat.le_div_iff_mul_le (scaled_pos 0 Nat.one_pos)).2 two_pow_le_infinite
    rw [magnitude_infinity, Nat.min_eq_right ((Nat.sub_le _ 1).trans large)]
    rfl
  | zero s =>
    rw [magnitude_zero, Nat.zero_div]
    rfl
  | finite s m e pos =>
    rw [eq] at rounded
    obtain ⟨rfl, regular⟩ := rounded
    rw [magnitude_finite, toInt, roundToInt_positive m regular.least_le, Int.toNat_natCast]

end LeftDeep.Double
