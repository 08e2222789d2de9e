import LeftDeep.Proofs.Double.Packing

/-!
# Rounding

A mantissa that is too long is shifted down one bit at a time, with two bits that tell how the part
shifted out compares with one half. That is rounding a quotient to the nearest integer, and to the
even one from halfway. Rounding a number to a double this way is monotone and keeps the doubles.

## Main definitions

* `nearestEven`: the rounded quotient by a power of two.
* `roundTo`: a number rounded to the precision of a double.

## Main statements

* `roundTo_mono`: rounding is monotone.
* `roundTo_scaled`: rounding keeps a double.
* `rounded_roundWithAccuracy`, `rounded_round`: the results of rounding.
-/

namespace LeftDeep.Double

open Float.Model Float.Model.UnpackedFloat

/-! ## The rounded quotient -/

/-- The quotient of `n` by `2 ^ k`, rounded to the nearest integer and from halfway to the even
one. -/
def nearestEven (n k : ℕ) : ℕ :=
  if 2 * (n % 2 ^ k) < 2 ^ k then n / 2 ^ k
  else if 2 * (n % 2 ^ k) = 2 ^ k then n / 2 ^ k + n / 2 ^ k % 2
  else n / 2 ^ k + 1

theorem div_le_nearestEven (n k : ℕ) : n / 2 ^ k ≤ nearestEven n k := by
  by_cases below : 2 * (n % 2 ^ k) < 2 ^ k
  · rw [nearestEven, if_pos below]
  · rw [nearestEven, if_neg below]
    split <;> omega

theorem nearestEven_le (n k : ℕ) : nearestEven n k ≤ n / 2 ^ k + 1 := by
  by_cases below : 2 * (n % 2 ^ k) < 2 ^ k
  · rw [nearestEven, if_pos below]
    omega
  · rw [nearestEven, if_neg below]
    split <;> omega

theorem nearestEven_mono {n n' : ℕ} (k : ℕ) (h : n ≤ n') : nearestEven n k ≤ nearestEven n' k := by
  have quotient : n / 2 ^ k ≤ n' / 2 ^ k := Nat.div_le_div_right h
  rcases Nat.eq_or_lt_of_le quotient with eq | lt
  · have rest : n % 2 ^ k ≤ n' % 2 ^ k := by
      have hn := Nat.div_add_mod n (2 ^ k)
      have hn' := Nat.div_add_mod n' (2 ^ k)
      rw [eq] at hn
      omega
    simp only [nearestEven, eq]
    generalize n' / 2 ^ k = q
    split_ifs <;> omega
  · calc nearestEven n k
        ≤ n / 2 ^ k + 1 := nearestEven_le n k
      _ ≤ n' / 2 ^ k := lt
      _ ≤ nearestEven n' k := div_le_nearestEven n' k

theorem nearestEven_zero (n : ℕ) : nearestEven n 0 = n := by
  simp [nearestEven, Nat.mod_one]

/-- Bits that are zero can be dropped first. -/
theorem nearestEven_mul (n k a : ℕ) : nearestEven (n * 2 ^ a) (k + a) = nearestEven n k := by
  have pos := Nat.two_pow_pos a
  have quotient : n * 2 ^ a / 2 ^ (k + a) = n / 2 ^ k := by
    rw [pow_add, Nat.mul_div_mul_right _ _ pos]
  have rest : n * 2 ^ a % 2 ^ (k + a) = n % 2 ^ k * 2 ^ a := by
    rw [pow_add, Nat.mul_mod_mul_right]
  have lt_iff : 2 * (n % 2 ^ k * 2 ^ a) < 2 ^ (k + a) ↔ 2 * (n % 2 ^ k) < 2 ^ k := by
    rw [pow_add, ← Nat.mul_assoc]
    exact Nat.mul_lt_mul_right pos
  have eq_iff : 2 * (n % 2 ^ k * 2 ^ a) = 2 ^ (k + a) ↔ 2 * (n % 2 ^ k) = 2 ^ k := by
    rw [pow_add, ← Nat.mul_assoc]
    exact Nat.mul_left_inj pos.ne'
  simp only [nearestEven, quotient, rest, lt_iff, eq_iff]

/-! ## Shifting a mantissa -/

/-- What an exact mantissa has become after some shifts: the quotient, whether the part shifted
out is a half or more, and whether it is neither nothing nor a half. -/
structure ShiftedFrom (n k : ℕ) (em : ExtendedMantissa) : Prop where
  mantissa : em.mantissa = n / 2 ^ k
  roundBit : em.roundBit = true ↔ 2 ^ k ≤ 2 * (n % 2 ^ k)
  stickyBit : em.stickyBit = true ↔ n % 2 ^ k ≠ 0 ∧ 2 * (n % 2 ^ k) ≠ 2 ^ k

theorem shiftedFrom_zero (n : ℕ) : ShiftedFrom n 0 ⟨n, false, false⟩ :=
  ⟨by simp, by simp [Nat.mod_one], by simp [Nat.mod_one]⟩

theorem ShiftedFrom.shiftRightOne {n k : ℕ} {em : ExtendedMantissa} (h : ShiftedFrom n k em) :
    ShiftedFrom n (k + 1) em.shiftRightOne := by
  have pos := Nat.two_pow_pos k
  have lt := Nat.mod_lt n pos
  have double : 2 ^ (k + 1) = 2 * 2 ^ k := pow_succ' 2 k
  have quotient : n / 2 ^ (k + 1) = n / 2 ^ k / 2 := by
    rw [pow_succ, Nat.div_div_eq_div_mul]
  have rest : n % 2 ^ (k + 1) = n % 2 ^ k + 2 ^ k * (n / 2 ^ k % 2) := by
    rw [pow_succ, Nat.mod_mul]
  have bit : n / 2 ^ k % 2 = 0 ∨ n / 2 ^ k % 2 = 1 := by omega
  constructor
  · rw [ExtendedMantissa.shiftRightOne, h.mantissa, quotient]
  · simp only [ExtendedMantissa.shiftRightOne, bne_iff_ne, h.mantissa, rest]
    rw [double]
    rcases bit with bit | bit
    · rw [bit]
      omega
    · rw [bit]
      omega
  · simp only [ExtendedMantissa.shiftRightOne, Bool.or_eq_true, h.roundBit, h.stickyBit, rest]
    rw [double]
    rcases bit with bit | bit
    · rw [bit]
      omega
    · rw [bit]
      omega

theorem shiftedFrom_shiftRight (n k : ℕ) :
    ShiftedFrom n k (ExtendedMantissa.ofMantissaAndAccuracy n .exact >>> k) := by
  induction k with
  | zero => exact shiftedFrom_zero n
  | succ k ih => exact ih.shiftRightOne

/-- The two bits decide the rounding. -/
theorem ShiftedFrom.roundedMantissa {n k : ℕ} {em : ExtendedMantissa} (h : ShiftedFrom n k em) :
    em.roundedMantissa = nearestEven n k := by
  obtain ⟨m, round, sticky⟩ := em
  obtain ⟨mantissa, roundBit, stickyBit⟩ := h
  simp only at mantissa roundBit stickyBit
  have pos := Nat.two_pow_pos k
  rw [nearestEven]
  cases round with
  | false =>
    have lt : 2 * (n % 2 ^ k) < 2 ^ k := by simpa using roundBit
    rw [if_pos lt, ← mantissa]
    cases sticky <;> rfl
  | true =>
    have ge : 2 ^ k ≤ 2 * (n % 2 ^ k) := roundBit.1 rfl
    rw [if_neg (by omega), ← mantissa]
    cases sticky with
    | false =>
      have half : 2 * (n % 2 ^ k) = 2 ^ k := by
        by_contra ne
        exact Bool.false_ne_true (stickyBit.2 ⟨by omega, ne⟩)
      rw [if_pos half]
      rfl
    | true =>
      rw [if_neg (stickyBit.1 rfl).2]
      rfl

/-! ## Rounding to the precision of a double -/

/-- A number `n / 2 ^ s` rounded to 53 significant bits, or to an integer if that has fewer. -/
def roundTo (s n : ℕ) : ℕ :=
  nearestEven n (max (n.log2 - 52) s) * 2 ^ (max (n.log2 - 52) s - s)

/-- Shifted down far enough, a number has the bits of a double at most. -/
theorem div_lt_top {n k : ℕ} (h : n.log2 - 52 ≤ k) : n / 2 ^ k < 2 ^ 53 := by
  rw [Nat.div_lt_iff_lt_mul (Nat.two_pow_pos k), ← pow_add]
  calc n < 2 ^ (n.log2 + 1) := Nat.lt_log2_self
    _ ≤ 2 ^ (53 + k) := Nat.pow_le_pow_right (by decide) (by omega)

/-- Shifted down no further than that, it keeps all bits of a double. -/
theorem le_div_of_log2 {n : ℕ} (h : 52 ≤ n.log2) : 2 ^ 52 ≤ n / 2 ^ (n.log2 - 52) := by
  have ne : n ≠ 0 := by
    rintro rfl
    exact absurd h (by decide)
  rw [Nat.le_div_iff_mul_le (Nat.two_pow_pos _), ← pow_add, Nat.add_sub_cancel' h]
  exact Nat.log2_self_le ne

theorem nearestEven_le_top {n k : ℕ} (h : n.log2 - 52 ≤ k) : nearestEven n k ≤ 2 ^ 53 := by
  have quotient := div_lt_top h
  have le := nearestEven_le n k
  omega

theorem le_nearestEven {n : ℕ} (h : 52 ≤ n.log2) : 2 ^ 52 ≤ nearestEven n (n.log2 - 52) :=
  (le_div_of_log2 h).trans (div_le_nearestEven _ _)

theorem log2_mono {n n' : ℕ} (h : n ≤ n') : n.log2 ≤ n'.log2 := by
  by_cases zero : n = 0
  · rw [zero]
    exact Nat.zero_le _
  · exact (Nat.le_log2 (by omega)).2 ((Nat.log2_self_le zero).trans h)

theorem roundTo_mono (s : ℕ) {n n' : ℕ} (h : n ≤ n') : roundTo s n ≤ roundTo s n' := by
  have log : n.log2 ≤ n'.log2 := log2_mono h
  rw [roundTo, roundTo]
  obtain ⟨k, hk⟩ : ∃ k, k = max (n.log2 - 52) s := ⟨_, rfl⟩
  obtain ⟨k', hk'⟩ : ∃ k', k' = max (n'.log2 - 52) s := ⟨_, rfl⟩
  rw [← hk, ← hk']
  have le : k ≤ k' := by omega
  rcases Nat.eq_or_lt_of_le le with rfl | lt
  · exact Nat.mul_le_mul_right _ (nearestEven_mono k h)
  · -- The larger number has more bits, so a power of two lies between the results.
    have top : k' = n'.log2 - 52 := by omega
    calc nearestEven n k * 2 ^ (k - s)
        ≤ 2 ^ 53 * 2 ^ (k - s) := Nat.mul_le_mul_right _ (nearestEven_le_top (by omega))
      _ = 2 ^ 52 * 2 ^ (k - s + 1) := by rw [pow_succ 2 (k - s)]; ring
      _ ≤ nearestEven n' k' * 2 ^ (k' - s) :=
        Nat.mul_le_mul (top ▸ le_nearestEven (by omega))
          (Nat.pow_le_pow_right (by decide) (by omega))

theorem roundTo_zero (s : ℕ) : roundTo s 0 = 0 := by
  simp [roundTo, nearestEven]

theorem log2_mul_two_pow {m : ℕ} (h : m ≠ 0) (a : ℕ) : (m * 2 ^ a).log2 = m.log2 + a := by
  have pos := Nat.two_pow_pos a
  rw [Nat.log2_eq_iff (Nat.mul_ne_zero h pos.ne'), pow_add, Nat.add_right_comm, pow_add]
  exact ⟨Nat.mul_le_mul_right _ (Nat.log2_self_le h),
    Nat.mul_lt_mul_of_pos_right Nat.lt_log2_self pos⟩

/-- Zero bits at the end do not matter, as long as the number has bits enough without them. -/
theorem roundTo_mul {m a s k : ℕ} (h : m ≠ 0) (shift : k + a = max (m.log2 + a - 52) s) :
    roundTo s (m * 2 ^ a) = nearestEven m k * 2 ^ (k + a - s) := by
  rw [roundTo, log2_mul_two_pow h, ← shift, nearestEven_mul]

/-- Zero bits below the point do not matter. -/
theorem roundTo_mul_two_pow (n s : ℕ) : roundTo s (n * 2 ^ s) = roundTo 0 n := by
  rcases Nat.eq_zero_or_pos n with rfl | pos
  · rw [Nat.zero_mul, roundTo_zero, roundTo_zero]
  · have shift : n.log2 - 52 + s = max (n.log2 + s - 52) s := by omega
    rw [roundTo_mul pos.ne' shift, Nat.add_sub_cancel, roundTo, Nat.max_zero, Nat.sub_zero]

/-- A double is kept. -/
theorem roundTo_scaled {m : ℕ} {e : ℤ} (h : Regular m e) : roundTo 0 (scaled m e) = scaled m e := by
  have lt := h.lt
  have least := h.least_le
  by_cases zero : m = 0
  · rw [scaled, zero, Nat.zero_mul, roundTo_zero]
  · have log : m.log2 < 53 := (Nat.log2_lt zero).2 lt
    have shift : 0 + (e + 1074).toNat = max (m.log2 + (e + 1074).toNat - 52) 0 := by
      rcases h.normal with ge | rfl
      · have log := log2_eq_of_normal lt ge
        omega
      · omega
    rw [scaled, roundTo_mul zero shift, nearestEven_zero, Nat.zero_add, Nat.sub_zero]

theorem regular_infinite : Regular (2 ^ 52) 972 := ⟨by decide, by decide, .inl le_rfl⟩

theorem scaled_eq_infinite : scaled (2 ^ 52) 972 = infinite := by
  have shift : (972 + 1074 : ℤ).toNat = topShift + 1 := by
    rw [topShift]
    omega
  rw [scaled, shift, infinite, pow_succ 2 topShift]
  ring

theorem roundTo_infinite : roundTo 0 infinite = infinite := by
  rw [← scaled_eq_infinite, roundTo_scaled regular_infinite]

/-! ## The results of rounding -/

theorem targetExponent_eq (m : ℕ) (e : ℤ) :
    Format.binary64.targetExponent (totalExponent m e) = max (m.log2 + e - 52) (-1074) := by
  change max ((m.log2 : ℤ) + 1 + e - 53) (-1074) = _
  omega

/-- After rounding, the mantissa has at most one bit too many, which then is zero. -/
theorem shiftToTargetExponent_rounded {r : ℕ} {e : ℤ} (le : r ≤ 2 ^ 53) (least : -1074 ≤ e)
    (normal : 2 ^ 52 ≤ r ∨ e = -1074) :
    ∃ m e', (shiftToTargetExponent Format.binary64 r e .exact).1.mantissa = m ∧
      (shiftToTargetExponent Format.binary64 r e .exact).2 = e' ∧
      Regular m e' ∧ scaled m e' = scaled r e := by
  refine ⟨_, _, rfl, rfl, ?_⟩
  simp only [shiftToTargetExponent, shiftToExponent, targetExponent_eq]
  rw [(shiftedFrom_shiftRight r _).mantissa]
  rcases Nat.eq_or_lt_of_le le with rfl | lt
  · have one : (max (((2 ^ 53 : ℕ).log2 : ℤ) + e - 52) (-1074) - e).toNat = 1 := by
      rw [Nat.log2_two_pow]
      omega
    have shift : (e + (1 : ℕ) + 1074).toNat = (e + 1074).toNat + 1 := by omega
    rw [one]
    refine ⟨⟨by decide, by omega, .inl (by decide)⟩, ?_⟩
    rw [scaled, scaled, shift, pow_succ 2 (e + 1074).toNat]
    ring
  · have log : r.log2 ≤ 52 := by
      by_cases zero : r = 0
      · rw [zero]
        exact Nat.zero_le _
      · exact Nat.le_of_lt_succ ((Nat.log2_lt zero).2 lt)
    have none : (max ((r.log2 : ℤ) + e - 52) (-1074) - e).toNat = 0 := by omega
    rw [none, pow_zero, Nat.div_one, Int.natCast_zero, add_zero]
    exact ⟨⟨lt, least, normal⟩, rfl⟩

/-- Rounding, by what the mantissa has become once it has the precision of a double. -/
theorem rounded_of_roundedMantissa {m r k : ℕ} {e : ℤ} {accuracy : Accuracy}
    (hk : k = (max ((m.log2 : ℤ) + e - 52) (-1074) - e).toNat)
    (hr : (ExtendedMantissa.ofMantissaAndAccuracy m accuracy >>> k).roundedMantissa = r)
    (top : r ≤ 2 ^ 53) (normal : 2 ^ 52 ≤ r ∨ e + k = -1074) :
    Rounded (roundWithAccuracy Format.binary64 .positive m e accuracy) ∧
      magnitude (roundWithAccuracy Format.binary64 .positive m e accuracy) = scaled r (e + k) := by
  obtain ⟨m', e', hm, he, regular, eq⟩ :=
    shiftToTargetExponent_rounded (e := e + k) top (by omega) normal
  have unfolded : roundWithAccuracy Format.binary64 .positive m e accuracy =
      if h : m' = 0 then .zero .positive
      else .finite .positive m' e' (Nat.pos_of_ne_zero h) := by
    rw [roundWithAccuracy, shiftToTargetExponent, shiftToExponent]
    simp only [targetExponent_eq, ← hk, hr, hm, he]
  rw [unfolded, ← eq]
  split
  · next zero =>
    refine ⟨trivial, ?_⟩
    rw [zero, scaled, Nat.zero_mul]
    rfl
  · exact ⟨⟨rfl, regular⟩, rfl⟩

/-- Rounding `m * 2 ^ e`, for a mantissa that has bits enough to fill a double unless the exponent
is small. -/
theorem rounded_roundWithAccuracy {m s : ℕ} {e : ℤ} (pos : 0 < m)
    (enough : 2 ^ 52 ≤ m ∨ e ≤ -1074) (scale : 0 ≤ e + 1074 + s) :
    Rounded (roundWithAccuracy Format.binary64 .positive m e .exact) ∧
      magnitude (roundWithAccuracy Format.binary64 .positive m e .exact) =
        roundTo s (m * 2 ^ (e + 1074 + s).toNat) := by
  obtain ⟨k, hk⟩ : ∃ k, k = (max ((m.log2 : ℤ) + e - 52) (-1074) - e).toNat := ⟨_, rfl⟩
  obtain ⟨a, ha⟩ : ∃ a, a = (e + 1074 + s).toNat := ⟨_, rfl⟩
  have log : 52 ≤ m.log2 ∨ e ≤ -1074 := enough.imp_left (Nat.le_log2 pos.ne').2
  have shift : k + a = max (m.log2 + a - 52) s := by omega
  have top : nearestEven m k ≤ 2 ^ 53 := nearestEven_le_top (by omega)
  have normal : 2 ^ 52 ≤ nearestEven m k ∨ e + k = -1074 := by
    by_cases bits : 52 ≤ m.log2 ∧ k = m.log2 - 52
    · exact .inl (bits.2 ▸ le_nearestEven bits.1)
    · exact .inr (by omega)
  have value : scaled (nearestEven m k) (e + k) = roundTo s (m * 2 ^ a) := by
    rw [roundTo_mul pos.ne' shift, scaled]
    congr 2
    omega
  rw [← ha, ← value]
  exact rounded_of_roundedMantissa hk (shiftedFrom_shiftRight m k).roundedMantissa top normal

theorem rounded_round {m : ℕ} {e : ℤ} (pos : 0 < m) (least : -1074 ≤ e) :
    Rounded (UnpackedFloat.round Format.binary64 .positive m e) ∧
      magnitude (UnpackedFloat.round Format.binary64 .positive m e) = roundTo 0 (scaled m e) := by
  obtain ⟨d, hd⟩ : ∃ d, d = (e - max ((m.log2 : ℤ) + e - 52) (-1074)).toNat := ⟨_, rfl⟩
  have unfolded : UnpackedFloat.round Format.binary64 .positive m e =
      roundWithAccuracy Format.binary64 .positive (m * 2 ^ d) (e - d) .exact := by
    rw [UnpackedFloat.round, targetExponent_eq, decreaseExponent, ← hd, Nat.shiftLeft_eq]
  have pos' : 0 < m * 2 ^ d := Nat.mul_pos pos (Nat.two_pow_pos d)
  have enough : 2 ^ 52 ≤ m * 2 ^ d ∨ e - d ≤ -1074 := by
    rw [← Nat.le_log2 pos'.ne', log2_mul_two_pow pos.ne']
    omega
  have same : m * 2 ^ d * 2 ^ (e - d + 1074 + (0 : ℕ)).toNat = scaled m e := by
    rw [scaled, Nat.mul_assoc, ← pow_add]
    congr 2
    omega
  rw [unfolded, ← same]
  exact rounded_roundWithAccuracy pos' enough (by omega)

end LeftDeep.Double
