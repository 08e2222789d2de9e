import LeftDeep.Proofs.Double.Truncation

/-!
# How close rounding is

Rounding a number to the precision of a double moves it by at most half of the last bit that is
kept, and so by at most one part in `2 ^ 53`. It keeps a number that has no further bits. This is
all that happens to an integer of 64 bits when it is converted to a double, and to the exact product
when a double is multiplied by an integer.

## Main definitions

* `lastBit`: the place of the last bit that rounding keeps.
* `IsMultiple`: a double as a multiple of a power of two.

## Main statements

* `roundTo_le`, `le_roundTo`: rounding moves a number by at most one part in `2 ^ 53`.
* `roundTo_eq_of_near`: it moves a number to whatever is near enough and has no further bits.
* `toNat_toUInt64_toFloat`: what becomes of an integer.
* `IsMultiple.mul_toFloat`: the product of a double and an integer.
-/

namespace LeftDeep.Double

/-! ## The error of rounding -/

/-- The place of the last bit that rounding to the precision of a double keeps. -/
def lastBit (n : ℕ) : ℕ := n.log2 - 52

theorem roundTo_zero_eq (n : ℕ) : roundTo 0 n = nearestEven n (lastBit n) * 2 ^ lastBit n := by
  rw [roundTo, Nat.max_zero, Nat.sub_zero, lastBit]

/-- The rounded quotient is off by at most one half. -/
theorem nearestEven_near (n k : ℕ) :
    2 * (nearestEven n k * 2 ^ k) ≤ 2 * n + 2 ^ k ∧
      2 * n ≤ 2 * (nearestEven n k * 2 ^ k) + 2 ^ k := by
  have quotient := Nat.div_add_mod' n (2 ^ k)
  have rest := Nat.mod_lt n (Nat.two_pow_pos k)
  rw [nearestEven]
  split_ifs with below half
  · omega
  · rcases Nat.mod_two_eq_zero_or_one (n / 2 ^ k) with even | odd
    · rw [even, Nat.add_zero]
      omega
    · rw [odd, Nat.add_mul]
      omega
  · rw [Nat.add_mul]
    omega

theorem roundTo_near (n : ℕ) :
    2 * roundTo 0 n ≤ 2 * n + 2 ^ lastBit n ∧ 2 * n ≤ 2 * roundTo 0 n + 2 ^ lastBit n := by
  rw [roundTo_zero_eq]
  exact nearestEven_near n (lastBit n)

/-- Of the numbers that have no bits beyond the last one that is kept, no other one is as near. -/
theorem roundTo_eq_of_near {n g : ℕ} (dvd : 2 ^ lastBit n ∣ g)
    (above : 2 * g < 2 * n + 2 ^ lastBit n) (below : 2 * n < 2 * g + 2 ^ lastBit n) :
    roundTo 0 n = g := by
  obtain ⟨q, rfl⟩ := dvd_iff_exists_eq_mul_left.1 dvd
  have near := roundTo_near n
  rw [roundTo_zero_eq] at *
  -- Two multiples that differ are at least one multiple apart.
  have apart {i j : ℕ} (lt : i < j) : i * 2 ^ lastBit n + 2 ^ lastBit n ≤ j * 2 ^ lastBit n := by
    rw [← Nat.succ_mul]
    exact Nat.mul_le_mul_right _ lt
  rcases lt_trichotomy (nearestEven n (lastBit n)) q with lt | eq | gt
  · have gap := apart lt
    omega
  · rw [eq]
  · have gap := apart gt
    omega

/-- A number without further bits is kept. -/
theorem roundTo_of_dvd {n : ℕ} (dvd : 2 ^ lastBit n ∣ n) : roundTo 0 n = n := by
  have pos := Nat.two_pow_pos (lastBit n)
  exact roundTo_eq_of_near dvd (by omega) (by omega)

theorem lastBit_le {n k : ℕ} (h : n < 2 ^ (53 + k)) : lastBit n ≤ k := by
  by_cases zero : n = 0
  · rw [zero]
    exact Nat.zero_le k
  · have log := (Nat.log2_lt zero).2 h
    rw [lastBit]
    omega

/-- A number has 53 bits down to the last one that is kept, or fewer. -/
theorem lt_two_pow_lastBit (n : ℕ) : n < 2 ^ 53 * 2 ^ lastBit n := by
  rw [← pow_add]
  calc n < 2 ^ (n.log2 + 1) := Nat.lt_log2_self
    _ ≤ 2 ^ (53 + lastBit n) := by
      apply Nat.pow_le_pow_right (by decide)
      rw [lastBit]
      omega

theorem roundTo_of_lt {n : ℕ} (h : n < 2 ^ 53) : roundTo 0 n = n := by
  have zero : lastBit n = 0 := Nat.le_zero.1 (lastBit_le h)
  apply roundTo_of_dvd
  rw [zero]
  exact one_dvd n

/-- Above the first 53 bits, the last bit is one part in `2 ^ 52`. -/
theorem two_pow_lastBit_le {n : ℕ} (h : 2 ^ 53 ≤ n) : 2 ^ 52 * 2 ^ lastBit n ≤ n := by
  have ne : n ≠ 0 := by omega
  have log : 53 ≤ n.log2 := (Nat.le_log2 ne).2 h
  have sum : 52 + lastBit n = n.log2 := by
    rw [lastBit]
    omega
  rw [← pow_add, sum]
  exact Nat.log2_self_le ne

theorem roundTo_le (n : ℕ) : 2 ^ 53 * roundTo 0 n ≤ (2 ^ 53 + 1) * n := by
  rcases Nat.lt_or_ge n (2 ^ 53) with small | large
  · rw [roundTo_of_lt small]
    omega
  · have near := (roundTo_near n).1
    have last := two_pow_lastBit_le large
    omega

theorem le_roundTo (n : ℕ) : 2 ^ 53 * n ≤ 2 ^ 53 * roundTo 0 n + n := by
  rcases Nat.lt_or_ge n (2 ^ 53) with small | large
  · rw [roundTo_of_lt small]
    omega
  · have near := (roundTo_near n).2
    have last := two_pow_lastBit_le large
    omega

/-- Zero bits at the end are kept. -/
theorem roundTo_shift (n a : ℕ) : roundTo 0 (n * 2 ^ a) = roundTo 0 n * 2 ^ a := by
  by_cases zero : n = 0
  · rw [zero, Nat.zero_mul, roundTo_zero, Nat.zero_mul]
  · rcases Nat.lt_or_ge n.log2 52 with short | long
    · have lt : n < 2 ^ 53 := (Nat.log2_lt zero).1 (by omega)
      have dvd : 2 ^ lastBit (n * 2 ^ a) ∣ n * 2 ^ a := by
        apply dvd_mul_of_dvd_right
        apply pow_dvd_pow
        rw [lastBit, log2_mul_two_pow zero]
        omega
      rw [roundTo_of_dvd dvd, roundTo_of_lt lt]
    · have shift : lastBit n + a = max (n.log2 + a - 52) 0 := by
        rw [lastBit]
        omega
      rw [roundTo_mul zero shift, roundTo_zero_eq, Nat.sub_zero, pow_add, Nat.mul_assoc]

/-! ## Integers -/

theorem scaled_zero (n : ℕ) : scaled n 0 = n * 2 ^ 1074 := by
  have exponent : (0 + 1074 : ℤ).toNat = 1074 := by decide
  rw [scaled, exponent]

theorem size_toFloat (n : UInt64) : size n.toFloat = roundTo 0 n.toNat * 2 ^ 1074 := by
  have value := (quanta_toFloat n).2
  have finite := (isFinite_iff.1 (isFinite_toFloat n)).2.2
  rw [quanta_eq_size (toFloat_nonneg n)] at value finite
  rw [scaled_zero, roundTo_shift] at value
  omega

/-- An integer becomes the nearest double. -/
theorem whole_toFloat (n : UInt64) : whole n.toFloat = roundTo 0 n.toNat := by
  rw [whole, size_toFloat, scaled_zero, Nat.one_mul, Nat.mul_div_cancel _ (Nat.two_pow_pos _)]

/-- There and back, an integer becomes the nearest double, or the largest integer. -/
theorem toNat_toUInt64_toFloat (n : UInt64) :
    n.toFloat.toUInt64.toNat = min (roundTo 0 n.toNat) (2 ^ 64 - 1) := by
  rw [toNat_toUInt64 (toFloat_nonneg n), whole_toFloat]

/-- A word becomes a double of at most `2 ^ 64`. -/
theorem roundTo_toNat_le (n : UInt64) : roundTo 0 n.toNat ≤ 2 ^ 64 := by
  have top : roundTo 0 (2 ^ 64) = 2 ^ 64 := by
    rw [← Nat.one_mul (2 ^ 64), roundTo_shift, roundTo_of_lt (by decide)]
  exact (roundTo_mono 0 n.toNat_lt.le).trans_eq top

/-! ## Products with integers -/

/-- The double that is `m` times the `a`-th power of two, in quanta. -/
structure IsMultiple (x : Float) (m a : ℕ) : Prop where
  nonneg : 0 ≤ x
  isFinite : x.isFinite = true
  size_eq : size x = m * 2 ^ a

namespace IsMultiple

variable {x : Float} {m a b s : ℕ}

/-- The whole part leaves out the bits below a one. -/
theorem whole_eq (h : IsMultiple x m a) (places : a + s = 1074) : whole x = m / 2 ^ s := by
  rw [whole, h.size_eq, scaled_zero, Nat.one_mul, ← places, Nat.add_comm a s, pow_add,
    Nat.mul_div_mul_right _ _ (Nat.two_pow_pos a)]

/-- A product with a word has at most 65 bits more. -/
theorem mul_lt (bits : m < 2 ^ b) (n : UInt64) :
    roundTo 0 (m * roundTo 0 n.toNat) < 2 ^ (b + 65) := by
  have rounded := roundTo_le (m * roundTo 0 n.toNat)
  have word : m * roundTo 0 n.toNat < 2 ^ b * 2 ^ 64 :=
    Nat.mul_lt_mul_of_lt_of_le bits (roundTo_toNat_le n) (Nat.two_pow_pos 64)
  rw [pow_add]
  omega

/-- The product with an integer is the exact one, rounded at the bits of the double. -/
theorem mul_toFloat (h : IsMultiple x m a) (bits : m < 2 ^ b) (room : b + 65 + a ≤ 53 + topShift)
    (n : UInt64) : IsMultiple (x * n.toFloat) (roundTo 0 (m * roundTo 0 n.toNat)) a := by
  have below : roundTo 0 (m * roundTo 0 n.toNat) * 2 ^ a < infinite := by
    calc roundTo 0 (m * roundTo 0 n.toNat) * 2 ^ a
        < 2 ^ (b + 65) * 2 ^ a := Nat.mul_lt_mul_of_pos_right (mul_lt bits n) (Nat.two_pow_pos a)
      _ = 2 ^ (b + 65 + a) := (pow_add 2 _ _).symm
      _ ≤ 2 ^ (53 + topShift) := Nat.pow_le_pow_right (by decide) room
      _ = infinite := by rw [infinite, pow_add]
  have exact_product : size x * size n.toFloat = m * roundTo 0 n.toNat * 2 ^ a * 2 ^ 1074 := by
    rw [h.size_eq, size_toFloat, Nat.mul_mul_mul_comm, ← Nat.mul_assoc]
  obtain ⟨nonneg, value⟩ := quanta_mul h.nonneg (toFloat_nonneg n) h.isFinite (isFinite_toFloat n)
  rw [quanta_eq_size nonneg, exact_product, roundTo_mul_two_pow, roundTo_shift] at value
  have size_eq : size (x * n.toFloat) = roundTo 0 (m * roundTo 0 n.toNat) * 2 ^ a := by omega
  exact ⟨nonneg, isFinite_of_size_lt nonneg (size_eq ▸ below), size_eq⟩

end IsMultiple
end LeftDeep.Double
