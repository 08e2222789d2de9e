import LeftDeep.Json.Number
import LeftDeep.Proofs.Double.Quotient

/-!
# Numbers in range

A number that is read as a double is finite: what reaches infinity by a product is refused, and a
quotient by a power of ten does not reach it. The numbers of words are always in range.

## Main statements

* `Number.isFinite_of_toFloat?`: only finite doubles are read.
* `Number.absorb_eq`: which digits of a number that fits into a word are taken.
* `Number.isSome_toFloat?_ofUInt64`: the number of a word is in range.
-/

namespace LeftDeep.Json.Number

open Double

variable {x : Float} {e : Int}

/-! ## Scaling -/

theorem powerOfTen_bounds {n : ℕ} (h : n ≤ 308) :
    1 ≤ powerOfTen n ∧ (powerOfTen n).isFinite = true := by
  have all : ∀ n ≤ 308, (decide (1 ≤ powerOfTen n) && (powerOfTen n).isFinite) = true := by
    decide +kernel
  simpa using all n h

theorem powerOfTen_nonneg {n : ℕ} (h : n ≤ 308) : 0 ≤ powerOfTen n :=
  le_trans (by decide +kernel) (powerOfTen_bounds h).1

/-- The bits that a word has as a double, in quanta. -/
@[irreducible] def wordBits : ℕ := 52 + (12 + 1074 : ℤ).toNat + 1

theorem size_lt_wordBits (n : UInt64) : size n.toFloat < 2 ^ wordBits := by
  calc size n.toFloat
      ≤ scaled (2 ^ 52) 12 := size_toFloat_le n
    _ = 2 ^ (52 + (12 + 1074 : ℤ).toNat) := (pow_add 2 52 _).symm
    _ < 2 ^ wordBits := by
      rw [wordBits]
      exact Nat.pow_lt_pow_right (by decide) (Nat.lt_succ_self _)

theorem two_pow_lt_infinite {b : ℕ} (h : b ≤ wordBits + 1) : 2 ^ b < infinite := by
  have lt : b < 53 + topShift := by
    rw [wordBits] at h
    rw [topShift]
    omega
  rw [infinite, ← pow_add]
  exact Nat.pow_lt_pow_right (by decide) lt

/-- A quotient by a power of ten keeps to the bits of the dividend, but for one. -/
theorem div_powerOfTen {b n : ℕ} (h : 0 ≤ x) (finite : x.isFinite = true) (lt : size x < 2 ^ b)
    (bits : wordBits ≤ b) (le : b ≤ wordBits + 1) (power : n ≤ 308) :
    0 ≤ x / powerOfTen n ∧ (x / powerOfTen n).isFinite = true ∧
      size (x / powerOfTen n) < 2 ^ (b + 1) := by
  have enough : 53 ≤ b := by
    rw [wordBits] at bits
    omega
  obtain ⟨one_le, finite'⟩ := powerOfTen_bounds power
  obtain ⟨nonneg, size⟩ := size_div_le h enough lt finite one_le finite'
  exact ⟨nonneg, isFinite_of_size_lt nonneg (size.trans_lt (two_pow_lt_infinite le)),
    size.trans_lt (Nat.pow_lt_pow_right (by decide) (Nat.lt_succ_self b))⟩

/-- A word that is scaled stays finite. -/
theorem isFinite_of_scale? {n : UInt64} (h : scale? n.toFloat e = some x) :
    x.isFinite = true := by
  have nonneg := toFloat_nonneg n
  have finite := isFinite_toFloat n
  simp only [scale?] at h
  split at h
  · next positive =>
    split at h
    · next small =>
      split at h
      · exact absurd h (by simp)
      · next notInf =>
        have power : e.toNat ≤ 308 := by omega
        obtain rfl := Option.some.inj h
        have product := mul_nonneg nonneg (powerOfTen_nonneg power) finite
          (powerOfTen_bounds power).2
        exact isFinite_of_isInf (nonneg_iff.1 product).1 (by simpa using notInf)
    · split at h
      · obtain rfl := Option.some.inj h
        exact finite
      · exact absurd h (by simp)
  · next negative =>
    split at h
    · next large =>
      have power : (-e).toNat ≤ 308 := by omega
      obtain rfl := Option.some.inj h
      exact (div_powerOfTen nonneg finite (size_lt_wordBits n) le_rfl (Nat.le_succ _) power).2.1
    · split at h
      · next large =>
        have power : (-e - 308).toNat ≤ 308 := by omega
        obtain rfl := Option.some.inj h
        obtain ⟨nonneg', finite', size'⟩ :=
          div_powerOfTen nonneg finite (size_lt_wordBits n) le_rfl (Nat.le_succ _) le_rfl
        exact (div_powerOfTen nonneg' finite' size' (Nat.le_succ _) le_rfl power).2.1
      · obtain rfl := Option.some.inj h
        decide +kernel

/-- Only finite doubles are read. -/
theorem isFinite_of_toFloat? {n : Number} (h : n.toFloat? = some x) : x.isFinite = true := by
  rw [toFloat?] at h
  obtain ⟨y, scaled, rfl⟩ := Option.map_eq_some_iff.1 h
  have finite := isFinite_of_scale? scaled
  split
  · exact isFinite_neg finite
  · exact finite

/-! ## Words -/

/-- All digits are taken of a number that fits into a word. -/
theorem absorb_eq (significand : ℕ) (ds : List Digit)
    (lt : ds.foldl (fun n d => 10 * n + d.val) significand < UInt64.size) :
    absorb significand ds =
      (ds.foldl (fun n d => 10 * n + d.val) significand, ds.length) := by
  have grows (n : ℕ) (ds : List Digit) : n ≤ ds.foldl (fun n d => 10 * n + d.val) n := by
    induction ds generalizing n with
    | nil => exact le_rfl
    | cons d ds ih => exact le_trans (by omega) (ih (10 * n + d.val))
  induction ds generalizing significand with
  | nil => rfl
  | cons d ds ih =>
    rw [List.foldl_cons] at lt ⊢
    have first := grows (10 * significand + d.val) ds
    rw [absorb, if_pos (first.trans_lt lt), ih _ lt]
    rfl

theorem isSome_scale?_zero (n : UInt64) : (scale? n.toFloat 0).isSome = true := by
  have le : n ≤ 0xFFFFFFFFFFFFFFFF := by
    have lt := n.toNat_lt
    rw [UInt64.le_iff_toNat_le, show (0xFFFFFFFFFFFFFFFF : UInt64).toNat = 2 ^ 64 - 1 from rfl]
    omega
  have nonneg : 0 ≤ powerOfTen 0 := powerOfTen_nonneg (Nat.zero_le _)
  have finite : (powerOfTen 0).isFinite = true := (powerOfTen_bounds (Nat.zero_le _)).2
  have top := mul_le_mul (toFloat_nonneg n) nonneg (toFloat_le_toFloat le)
    (le_refl (isNaN_of_isFinite finite)) (isFinite_toFloat _) finite
  have bound : ((0xFFFFFFFFFFFFFFFF : UInt64).toFloat * powerOfTen 0).isFinite = true := by
    decide +kernel
  have product := mul_nonneg (toFloat_nonneg n) nonneg (isFinite_toFloat n) finite
  have inRange : (n.toFloat * powerOfTen 0).isInf = false :=
    isInf_of_isFinite (isFinite_of_le product top bound)
  simp [scale?, inRange]

/-- The number of a word is in range. -/
theorem isSome_toFloat?_ofUInt64 (n : UInt64) : (ofUInt64 n).toFloat?.isSome = true := by
  have value : (Digit.ofNat n.toNat).foldl (fun n d => 10 * n + d.val) 0 = n.toNat :=
    Digit.value_ofNat n.toNat
  have whole := absorb_eq 0 (Digit.ofNat n.toNat) (by rw [value]; exact n.toNat_lt)
  rw [value] at whole
  have scaled := isSome_scale?_zero n
  simpa [toFloat?, ofUInt64, whole, absorb] using scaled

end LeftDeep.Json.Number
