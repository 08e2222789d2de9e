import LeftDeep.Proofs.Double.Arithmetic

/-!
# Quotients that do not overflow

A quotient by a double that is not less than one is at most the next power of two above the
dividend. So it is finite, and may be divided again.

## Main definitions

* `quotientExponent`, `dividendShift`: the exponent of a quotient before it is rounded, and how far
  the dividend is shifted up for it.

## Main statements

* `exists_quotient_eq`: what is rounded is a quotient of mantissas.
* `rounded_of_long`: rounding a mantissa and a remainder.
* `rounded_div_finite`: the quotient of two finite doubles.
* `size_div_le`: dividing by at least one does not pass a power of two above the dividend.
-/

namespace LeftDeep.Double

open Float.Model Float.Model.UnpackedFloat

/-! ## Mantissas that are not exact -/

theorem mantissa_shiftRight (m : ℕ) (accuracy : Accuracy) (k : ℕ) :
    (ExtendedMantissa.ofMantissaAndAccuracy m accuracy >>> k).mantissa = m / 2 ^ k := by
  induction k with
  | zero =>
    rw [pow_zero, Nat.div_one]
    cases accuracy with
    | exact => rfl
    | inexact o => cases o <;> rfl
  | succ k ih =>
    calc (ExtendedMantissa.ofMantissaAndAccuracy m accuracy >>> (k + 1)).mantissa
        = (ExtendedMantissa.ofMantissaAndAccuracy m accuracy >>> k).mantissa / 2 := rfl
      _ = m / 2 ^ (k + 1) := by rw [ih, pow_succ, Nat.div_div_eq_div_mul]

theorem roundedMantissa_bounds (em : ExtendedMantissa) :
    em.mantissa ≤ em.roundedMantissa ∧ em.roundedMantissa ≤ em.mantissa + 1 := by
  obtain ⟨m, round, sticky⟩ := em
  cases round <;> cases sticky <;>
    simp [ExtendedMantissa.roundedMantissa, ExtendedMantissa.accuracy, Accuracy.roundToNearestEven]
  omega

/-! ## Quotients of finite doubles -/

/-- The quotient of two unpacked doubles. -/
abbrev quotient (u v : UnpackedFloat) : UnpackedFloat := UnpackedFloat.div Format.binary64 u v

theorem log2_add_lt {m : ℕ} {e : ℤ} {b : ℕ} (pos : 0 < m) (least : -1074 ≤ e)
    (lt : scaled m e < 2 ^ b) : (m.log2 : ℤ) + e + 1074 < b := by
  have power : 2 ^ (m.log2 + (e + 1074).toNat) < 2 ^ b := by
    calc 2 ^ (m.log2 + (e + 1074).toNat)
        = 2 ^ m.log2 * 2 ^ (e + 1074).toNat := pow_add 2 _ _
      _ ≤ scaled m e := Nat.mul_le_mul_right _ (Nat.log2_self_le pos.ne')
      _ < 2 ^ b := lt
  have exponent := (Nat.pow_lt_pow_iff_right (by decide : 1 < 2)).1 power
  omega

theorem log2_add_nonneg {m : ℕ} {e : ℤ} (least : -1074 ≤ e) (le : scaled 1 0 ≤ scaled m e) :
    0 ≤ (m.log2 : ℤ) + e := by
  have power : 2 ^ (0 + 1074 : ℤ).toNat < 2 ^ (m.log2 + 1 + (e + 1074).toNat) := by
    calc 2 ^ (0 + 1074 : ℤ).toNat
        = scaled 1 0 := (Nat.one_mul _).symm
      _ ≤ scaled m e := le
      _ < 2 ^ (m.log2 + 1) * 2 ^ (e + 1074).toNat :=
        Nat.mul_lt_mul_of_pos_right Nat.lt_log2_self (Nat.two_pow_pos _)
      _ = 2 ^ (m.log2 + 1 + (e + 1074).toNat) := (pow_add 2 _ _).symm
  have exponent := (Nat.pow_lt_pow_iff_right (by decide : 1 < 2)).1 power
  omega

/-- How many bits a quotient of mantissas has. -/
theorem log2_div_le {n d : ℕ} (pos : 0 < d) (ne : n / d ≠ 0) :
    (n / d).log2 + d.log2 ≤ n.log2 := by
  have nonzero : n ≠ 0 := by
    rintro rfl
    exact ne (Nat.zero_div d)
  rw [Nat.le_log2 nonzero, pow_add]
  calc 2 ^ (n / d).log2 * 2 ^ d.log2
      ≤ n / d * d := Nat.mul_le_mul (Nat.log2_self_le ne) (Nat.log2_self_le pos.ne')
    _ ≤ n := Nat.div_mul_le_self n d

/-- A dividend that is long enough gives a quotient with all bits of a double. -/
theorem two_pow_le_div {n d : ℕ} (ne : n ≠ 0) (pos : 0 < d) (long : n.log2 = 53 + d.log2) :
    2 ^ 52 ≤ n / d := by
  rw [Nat.le_div_iff_mul_le pos]
  calc 2 ^ 52 * d
      ≤ 2 ^ 52 * 2 ^ (d.log2 + 1) := Nat.mul_le_mul_left _ Nat.lt_log2_self.le
    _ = 2 ^ n.log2 := by
      rw [← pow_add, long]
      congr 1
      omega
    _ ≤ n := Nat.log2_self_le ne

/-- A mantissa with a few bits too many is rounded to the bits of a double. -/
theorem roundedMantissa_le_top {q k : ℕ} (accuracy : Accuracy) (h : q.log2 - 52 ≤ k) :
    (ExtendedMantissa.ofMantissaAndAccuracy q accuracy >>> k).roundedMantissa ≤ 2 ^ 53 := by
  have le := (roundedMantissa_bounds
    (ExtendedMantissa.ofMantissaAndAccuracy q accuracy >>> k)).2
  have short := div_lt_top h
  rw [mantissa_shiftRight] at le
  omega

theorem le_roundedMantissa {q k : ℕ} (accuracy : Accuracy) (long : 52 ≤ q.log2)
    (h : k = q.log2 - 52) :
    2 ^ 52 ≤ (ExtendedMantissa.ofMantissaAndAccuracy q accuracy >>> k).roundedMantissa := by
  have le := (roundedMantissa_bounds
    (ExtendedMantissa.ofMantissaAndAccuracy q accuracy >>> k)).1
  rw [mantissa_shiftRight] at le
  exact (h ▸ le_div_of_log2 long).trans le

/-- The exponent of a quotient of mantissas before it is rounded: low enough for all bits of a
double, but not below the least one unless the exponents of dividend and divisor require it. -/
def quotientExponent (m : ℕ) (e : ℤ) (m' : ℕ) (e' : ℤ) : ℤ :=
  min (e - e') (max ((m.log2 : ℤ) + e - (m'.log2 + e') - 53) (-1074))

/-- How far the dividend is shifted up before the division. -/
def dividendShift (m : ℕ) (e : ℤ) (m' : ℕ) (e' : ℤ) : ℕ :=
  (e - e' - quotientExponent m e m' e').toNat

/-- A quotient is that of the mantissas, rounded with the remainder in mind. -/
theorem exists_quotient_eq {m m' : ℕ} (e e' : ℤ) (pos : 0 < m) (pos' : 0 < m') :
    ∃ accuracy, quotient (.finite .positive m e pos) (.finite .positive m' e' pos') =
      roundWithAccuracy Format.binary64 .positive (m * 2 ^ dividendShift m e m' e' / m')
        (quotientExponent m e m' e') accuracy := by
  have target : Format.binary64.targetExponent (totalExponent m e - totalExponent m' e') =
      max ((m.log2 : ℤ) + e - (m'.log2 + e') - 53) (-1074) := by
    change max ((m.log2 : ℤ) + 1 + e - ((m'.log2 : ℤ) + 1 + e') - 53) (-1074) = _
    congr 1
    ring
  refine ⟨accuracyOfFraction (m * 2 ^ dividendShift m e m' e' % m') m', ?_⟩
  rw [quotient, UnpackedFloat.div, divCore]
  simp only [target, Nat.shiftLeft_eq]
  rfl

/-- The quotient has all bits of a double, unless its exponent is the least one or below. -/
theorem le_log2_quotient {m m' : ℕ} {e e' : ℤ} (pos : 0 < m) (pos' : 0 < m') (lt : m < 2 ^ 53) :
    52 ≤ (m * 2 ^ dividendShift m e m' e' / m').log2 ∨ quotientExponent m e m' e' ≤ -1074 := by
  by_cases small : quotientExponent m e m' e' ≤ -1074
  · exact .inr small
  · left
    have nonzero : m * 2 ^ dividendShift m e m' e' ≠ 0 :=
      (Nat.mul_pos pos (Nat.two_pow_pos _)).ne'
    have long : (m * 2 ^ dividendShift m e m' e').log2 = 53 + m'.log2 := by
      have log : m.log2 < 53 := (Nat.log2_lt pos.ne').2 lt
      rw [log2_mul_two_pow pos.ne']
      rw [quotientExponent] at small
      rw [dividendShift, quotientExponent]
      omega
    have enough := two_pow_le_div nonzero pos' long
    have quotientPos := (Nat.two_pow_pos 52).trans_le enough
    exact (Nat.le_log2 quotientPos.ne').2 enough

/-- A quotient that is not zero has no more bits than the dividend has above the divisor. -/
theorem log2_quotient_le {m m' : ℕ} {e e' : ℤ} (pos : 0 < m) (pos' : 0 < m')
    (ne : m * 2 ^ dividendShift m e m' e' / m' ≠ 0) :
    ((m * 2 ^ dividendShift m e m' e' / m').log2 : ℤ) + quotientExponent m e m' e' ≤
      m.log2 + e - (m'.log2 + e') := by
  have bits := log2_div_le pos' ne
  rw [log2_mul_two_pow pos.ne'] at bits
  have shift : (dividendShift m e m' e' : ℤ) = e - e' - quotientExponent m e m' e' := by
    rw [dividendShift, quotientExponent]
    omega
  omega

/-- Rounding `q * 2 ^ t` and a remainder, if `q` has bits enough to fill a double unless the
exponent is small. -/
theorem rounded_of_long {q b : ℕ} {t : ℤ} (accuracy : Accuracy) (long : 52 ≤ q.log2 ∨ t ≤ -1074)
    (bits : 53 ≤ b) (below : q.log2 + t + 1074 < b) :
    Rounded (roundWithAccuracy Format.binary64 .positive q t accuracy) ∧
      magnitude (roundWithAccuracy Format.binary64 .positive q t accuracy) ≤ 2 ^ b := by
  obtain ⟨k, hk⟩ : ∃ k, k = (max ((q.log2 : ℤ) + t - 52) (-1074) - t).toNat := ⟨_, rfl⟩
  obtain ⟨r, hr⟩ :
    ∃ r, (ExtendedMantissa.ofMantissaAndAccuracy q accuracy >>> k).roundedMantissa = r := ⟨_, rfl⟩
  have top : r ≤ 2 ^ 53 := hr ▸ roundedMantissa_le_top accuracy (by omega)
  have normal : 2 ^ 52 ≤ r ∨ t + k = -1074 := by
    by_cases exponent : 52 ≤ q.log2 ∧ k = q.log2 - 52
    · exact .inl (hr ▸ le_roundedMantissa accuracy exponent.1 exponent.2)
    · exact .inr (by omega)
  obtain ⟨rounded, value⟩ := rounded_of_roundedMantissa hk hr top normal
  have exponent : 53 + (t + k + 1074).toNat ≤ b := by omega
  refine ⟨rounded, ?_⟩
  calc magnitude (roundWithAccuracy Format.binary64 .positive q t accuracy)
      = r * 2 ^ (t + k + 1074).toNat := value
    _ ≤ 2 ^ 53 * 2 ^ (t + k + 1074).toNat := Nat.mul_le_mul_right _ top
    _ = 2 ^ (53 + (t + k + 1074).toNat) := (pow_add 2 _ _).symm
    _ ≤ 2 ^ b := Nat.pow_le_pow_right (by decide) exponent

/-- A double divided by one that is not less than one, if it is below a power of two. -/
theorem rounded_div_finite {m m' b : ℕ} {e e' : ℤ} (pos : 0 < m) (pos' : 0 < m')
    (h : Regular m e) (h' : Regular m' e') (bits : 53 ≤ b) (lt : scaled m e < 2 ^ b)
    (one_le : scaled 1 0 ≤ scaled m' e') :
    Rounded (quotient (.finite .positive m e pos) (.finite .positive m' e' pos')) ∧
      magnitude (quotient (.finite .positive m e pos) (.finite .positive m' e' pos')) ≤ 2 ^ b := by
  have dividend := log2_add_lt pos h.least_le lt
  have divisor := log2_add_nonneg h'.least_le one_le
  obtain ⟨accuracy, eq⟩ := exists_quotient_eq e e' pos pos'
  rw [eq]
  apply rounded_of_long accuracy (le_log2_quotient pos pos' h.lt) bits
  by_cases zero : m * 2 ^ dividendShift m e m' e' / m' = 0
  · have least := h.least_le
    rw [zero, Nat.log2_zero, quotientExponent]
    omega
  · have length := log2_quotient_le pos pos' zero
    omega

/-! ## Quotients of doubles -/

theorem scaled_one_le_size {y : Float} (h : 1 ≤ y) : scaled 1 0 ≤ size y := by
  have nonneg : (0 : Float) ≤ 1 := by decide +kernel
  have one : size 1 = scaled 1 0 := by decide +kernel
  exact one ▸ size_le_size nonneg h

/-- A rounded result that is finite is a zero or a positive double. -/
theorem Rounded.exists_of_isFinite {u : UnpackedFloat} (h : Rounded u)
    (finite : u.isFinite = true) :
    (∃ s, u = .zero s) ∨ ∃ m e pos, u = .finite .positive m e pos ∧ Regular m e := by
  cases u with
  | notANumber => exact h.elim
  | infinity s => exact absurd finite Bool.false_ne_true
  | zero s => exact .inl ⟨s, rfl⟩
  | finite s m e pos =>
    obtain ⟨rfl, regular⟩ := h
    exact .inr ⟨m, e, pos, rfl, regular⟩

/-- Dividing by at least one gives no more than the next power of two above the dividend. -/
theorem size_div_le {x y : Float} {b : ℕ} (hx : 0 ≤ x) (bits : 53 ≤ b) (lt : size x < 2 ^ b)
    (finite : x.isFinite = true) (hy : 1 ≤ y) (finite' : y.isFinite = true) :
    0 ≤ x / y ∧ size (x / y) ≤ 2 ^ b := by
  have hy' : 0 ≤ y := le_trans (by decide +kernel) hy
  have one_le := scaled_one_le_size hy
  have quotient : Rounded (quotient x.toModel.unpack y.toModel.unpack) ∧
      magnitude (quotient x.toModel.unpack y.toModel.unpack) ≤ 2 ^ b := by
    rw [size] at lt one_le
    rcases (rounded_of_nonneg hy').1.exists_of_isFinite finite' with
      ⟨s', eq'⟩ | ⟨m', e', pos', eq', regular'⟩
    · rw [eq', magnitude_zero] at one_le
      exact absurd one_le (Nat.not_le_of_gt (scaled_pos 0 Nat.one_pos))
    · rw [eq'] at one_le ⊢
      rcases (rounded_of_nonneg hx).1.exists_of_isFinite finite with
        ⟨s, eq⟩ | ⟨m, e, pos, eq, regular⟩
      · rw [eq]
        exact ⟨trivial, Nat.zero_le _⟩
      · rw [eq] at lt ⊢
        exact rounded_div_finite pos pos' regular regular' bits lt one_le
  have result := nonneg_packed quotient.1
  have nonneg : 0 ≤ x / y := result.1
  have value : quanta (x / y) = (min (magnitude _) infinite : ℕ) := result.2
  rw [quanta_eq_size nonneg] at value
  exact ⟨nonneg, by omega⟩

end LeftDeep.Double
