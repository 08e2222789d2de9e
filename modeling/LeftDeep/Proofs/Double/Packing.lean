import LeftDeep.Proofs.Double.Value

/-!
# Unpacked and packed doubles

Unpacking a double gives a regular mantissa and exponent. Packing keeps a regular number that is in
range and turns a larger one into an infinity, so the value of a packed number that is not negative
is the number, or the infinity if that is less.

## Main statements

* `unpacked_unpack`: what unpacking gives.
* `value_unpack_pack`: the value of a packed number that is not negative.
-/

namespace LeftDeep.Double

open Float.Model Float.Model.UnpackedFloat

/-- The number that the bits of a double stand for. -/
abbrev unpackBits (b : BitVec 64) : UnpackedFloat := UnpackedFloat.unpack Format.binary64 b

/-- The bits of a double that stands for a number. -/
abbrev packBits (u : UnpackedFloat) : BitVec 64 := UnpackedFloat.pack Format.binary64 u

/-! ## Unpacking -/

section Parts

variable (exponent : BitVec 11) (mantissa : BitVec 52)

theorem toNat_allOnes : (-1#11).toNat = 2047 := by decide

theorem toNat_implicit : (1#1 ++ mantissa).toNat = 2 ^ 52 + mantissa.toNat := by
  rw [BitVec.toNat_append, ← Nat.shiftLeft_add_eq_or_of_lt mantissa.isLt]
  rfl

theorem regular_subnormal {m : ℕ} (h : m < 2 ^ 52) : Regular m (-1074) :=
  ⟨by omega, by omega, .inr rfl⟩

theorem regular_normal (pos : exponent ≠ 0#11) :
    Regular (1#1 ++ mantissa).toNat ((exponent.toNat : ℤ) - 1075) := by
  have lt := mantissa.isLt
  have pos : exponent.toNat ≠ 0 := by
    intro zero
    exact pos (BitVec.eq_of_toNat_eq zero)
  rw [toNat_implicit]
  exact ⟨by omega, by omega, .inl (by omega)⟩

theorem exponent_le (h : exponent ≠ -1#11) : (exponent.toNat : ℤ) - 1075 ≤ 971 := by
  have lt := exponent.isLt
  have ne : exponent.toNat ≠ 2047 := by
    intro eq
    exact h (BitVec.eq_of_toNat_eq (eq.trans toNat_allOnes.symm))
  omega

end Parts

theorem unpacked_unpack (b : BitVec 64) : Unpacked (unpackBits b) := by
  have lt := (@unpackMantissa Format.binary64 b).isLt
  simp only [unpackBits, UnpackedFloat.unpack]
  split
  · split <;> trivial
  · next inRange =>
    split
    · next subnormal =>
      split
      · trivial
      · rw [subnormal]
        exact ⟨regular_subnormal lt, by decide⟩
    · next normal => exact ⟨regular_normal _ _ normal, exponent_le _ inRange⟩

/-! ## Packing -/

section Pack

variable (s : Sign) {m : ℕ} {e : ℤ} (pos : 0 < m)

theorem ofBitVec_unpackSign (exponent : BitVec 11) (mantissa : BitVec 52) :
    Sign.ofBitVec (unpackSign (packComponents Format.binary64 s exponent mantissa)) = s := by
  have bit : unpackSign (packComponents Format.binary64 s exponent mantissa) = s.toBitVec := by
    simp only [unpackSign, packComponents, BitVec.extractLsb]
    rw [BitVec.extractLsb'_append_eq_of_le (by omega),
      BitVec.extractLsb'_append_eq_of_le (by omega)]
    cases s <;> rfl
  rw [bit]
  cases s <;> rfl

theorem log2_eq_of_normal (lt : m < 2 ^ 53) (ge : 2 ^ 52 ≤ m) : m.log2 = 52 := by
  have ne : m ≠ 0 := by omega
  exact (Nat.log2_eq_iff ne).2 ⟨ge, lt⟩

theorem log2_lt_of_subnormal (pos : 0 < m) (lt : m < 2 ^ 52) : m.log2 < 52 :=
  (Nat.log2_lt (by omega)).2 lt

/-- A normal number is packed with the bits of its mantissa below the highest. -/
theorem unpackBits_packBits_normal (ge : 2 ^ 52 ≤ m) (lt : m < 2 ^ 53) (least : -1074 ≤ e)
    (le : e ≤ 971) : unpackBits (packBits (.finite s m e pos)) = .finite s m e pos := by
  have log : m.log2 = 52 := log2_eq_of_normal lt ge
  obtain ⟨biased, eq⟩ : ∃ k : ℕ, (k : ℤ) = e + 1075 := ⟨(e + 1075).toNat, by omega⟩
  have bits : (e + Format.binary64.exponentBias + Format.binary64.mantissaBitsWithoutImplicit).toNat
      = biased := by
    change (e + (1023 : ℕ) + (52 : ℕ)).toNat = biased
    omega
  have exponent : (BitVec.ofNat 11 biased).toNat = biased := by
    rw [BitVec.toNat_ofNat]
    omega
  have mantissa : (1#1 ++ BitVec.ofNat 52 m).toNat = m := by
    rw [toNat_implicit, BitVec.toNat_ofNat]
    omega
  have inRange : BitVec.ofNat 11 biased ≠ -1#11 := by
    intro h
    have := congrArg BitVec.toNat h
    rw [exponent, toNat_allOnes] at this
    omega
  have normal : BitVec.ofNat 11 biased ≠ 0#11 := by
    intro h
    have : biased = 0 := exponent ▸ congrArg BitVec.toNat h
    omega
  have full : 52 + 1 = Format.binary64.mantissaBits := rfl
  rw [packBits, UnpackedFloat.pack]
  simp only [bits, log]
  rw [if_neg (by omega), if_pos full, unpackBits, UnpackedFloat.unpack]
  simp only [unpackMantissa_packComponents, unpackExponent_packComponents, ofBitVec_unpackSign]
  rw [if_neg inRange, if_neg normal]
  congr 1
  rw [exponent]
  change (biased : ℤ) - ((1023 : ℕ) + (52 : ℕ)) = e
  omega

/-- A subnormal number is packed with the bits of its mantissa. -/
theorem unpackBits_packBits_subnormal (lt : m < 2 ^ 52) :
    unpackBits (packBits (.finite s m (-1074) pos)) = .finite s m (-1074) pos := by
  have log : m.log2 < 52 := log2_lt_of_subnormal pos lt
  have mantissa : (BitVec.ofNat 52 m).toNat = m := by
    rw [BitVec.toNat_ofNat]
    omega
  have ne : BitVec.ofNat 52 m ≠ 0#52 := by
    intro h
    have : m = 0 := mantissa ▸ congrArg BitVec.toNat h
    omega
  have wide : ¬m.log2 + 1 = Format.binary64.mantissaBits := by
    change ¬m.log2 + 1 = 53
    omega
  rw [packBits, UnpackedFloat.pack]
  simp only
  rw [if_neg (by decide), if_neg wide, unpackBits, UnpackedFloat.unpack]
  simp only [unpackMantissa_packComponents, unpackExponent_packComponents, ofBitVec_unpackSign]
  rw [if_neg (by decide), if_pos trivial, dif_neg ne]
  congr 1

/-- A regular number in range is kept. -/
theorem unpackBits_packBits (h : Regular m e) (le : e ≤ 971) :
    unpackBits (packBits (.finite s m e pos)) = .finite s m e pos := by
  by_cases ge : 2 ^ 52 ≤ m
  · exact unpackBits_packBits_normal s pos ge h.lt h.least_le le
  · obtain rfl : e = -1074 := h.normal.resolve_left ge
    exact unpackBits_packBits_subnormal s pos (by omega)

/-- A number out of range becomes an infinity. -/
theorem unpackBits_packBits_overflow (lt : 971 < e) :
    unpackBits (packBits (.finite s m e pos)) = .infinity s := by
  have top : 2 ^ Format.binary64.exponentBits ≤ (e + Format.binary64.exponentBias +
      Format.binary64.mantissaBitsWithoutImplicit).toNat + 1 := by
    change 2048 ≤ (e + (1023 : ℕ) + (52 : ℕ)).toNat + 1
    omega
  rw [packBits, UnpackedFloat.pack]
  simp only
  rw [if_pos top]
  cases s <;> rfl

end Pack

/-- A number that rounding may give: regular, and not negative. -/
def Rounded : UnpackedFloat → Prop
  | .finite s m e _ => s = .positive ∧ Regular m e
  | .zero _ => True
  | .infinity s => s = .positive
  | .notANumber => False

theorem isNaN_unpackBits_packBits {u : UnpackedFloat} (h : Rounded u) :
    (unpackBits (packBits u)).isNaN = false := by
  cases u with
  | infinity s => cases s <;> rfl
  | notANumber => exact h.elim
  | zero s => cases s <;> rfl
  | finite s m e pos =>
    by_cases le : e ≤ 971
    · rw [unpackBits_packBits s pos h.2 le]
      rfl
    · rw [unpackBits_packBits_overflow s pos (by omega)]
      rfl

/-- The value of a packed number is the number, or the infinity if that is less. -/
theorem value_unpackBits_packBits {u : UnpackedFloat} (h : Rounded u) :
    value (unpackBits (packBits u)) = (min (magnitude u) infinite : ℕ) := by
  cases u with
  | infinity s =>
    obtain rfl : s = .positive := h
    rw [magnitude_infinity, Nat.min_self]
    rfl
  | notANumber => exact h.elim
  | zero s =>
    rw [magnitude_zero, Nat.zero_min]
    cases s <;> rfl
  | finite s m e pos =>
    obtain ⟨rfl, regular⟩ := h
    by_cases le : e ≤ 971
    · have lt := scaled_lt_infinite regular le
      rw [unpackBits_packBits .positive pos regular le, magnitude_finite,
        Nat.min_eq_left lt.le]
      rfl
    · have ge := infinite_le_scaled regular (by omega)
      rw [unpackBits_packBits_overflow .positive pos (by omega), magnitude_finite,
        Nat.min_eq_right ge]
      rfl

end LeftDeep.Double
