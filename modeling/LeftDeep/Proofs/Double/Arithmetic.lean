import LeftDeep.Proofs.Double.Order
import LeftDeep.Proofs.Double.Rounding

/-!
# Monotone arithmetic on doubles

Sums and products of doubles that are not negative are the exact ones, rounded. Rounding is
monotone, so a sum or a product grows with its parts, infinities included; only a product of zero
and an infinity has to be kept out. A sum is no less than its parts, and a product with a factor of
at least one no less than the other factor.

## Main statements

* `add_le_add`, `mul_le_mul`: sums and products are monotone.
* `toFloat_le_toFloat`: so is the conversion of integers.
* `left_le_add`, `right_le_mul`: sums and products are no less than their parts.
-/

namespace LeftDeep.Double

open Float.Model Float.Model.UnpackedFloat

variable {x x' y y' : Float}

/-- A double that is not negative stands for a number without sign. -/
theorem rounded_of_nonneg (h : 0 ≤ x) :
    Rounded x.toModel.unpack ∧ quanta x = magnitude x.toModel.unpack := by
  have number : x.toModel.unpack.isNaN = false := (nonneg_iff.1 h).1
  have nonneg : 0 ≤ value x.toModel.unpack := (nonneg_iff.1 h).2
  have shape := unpacked x
  rw [quanta]
  cases eq : x.toModel.unpack with
  | notANumber =>
    rw [eq] at number
    exact absurd number (by decide)
  | infinity s =>
    cases s with
    | positive => exact ⟨rfl, rfl⟩
    | negative =>
      have pos := infinite_pos
      rw [eq, value_infinity_negative] at nonneg
      omega
  | zero s => exact ⟨trivial, value_zero s⟩
  | finite s m e pos =>
    rw [eq] at shape
    cases s with
    | positive => exact ⟨⟨rfl, shape.1⟩, rfl⟩
    | negative =>
      have pos := scaled_pos e pos
      rw [eq, value_finite_negative] at nonneg
      omega

/-- The value of a double that is not negative, as a natural number. -/
def size (x : Float) : ℕ := magnitude x.toModel.unpack

theorem quanta_eq_size (h : 0 ≤ x) : quanta x = size x := (rounded_of_nonneg h).2

theorem size_le_size (h : 0 ≤ x) (le : x ≤ x') : size x ≤ size x' := by
  have eq := quanta_eq_size h
  have eq' := quanta_eq_size (le_trans h le)
  have le := (le_iff.1 le).2.2
  omega

/-- No double is beyond the infinity. -/
theorem size_le_infinite (x : Float) : size x ≤ infinite := by
  have shape := unpacked x
  rw [size]
  cases eq : x.toModel.unpack with
  | notANumber => exact Nat.zero_le _
  | infinity s => exact Nat.le_refl _
  | zero s => exact Nat.zero_le _
  | finite s m e pos =>
    rw [eq] at shape
    exact (scaled_lt_infinite shape.1 shape.2).le

theorem size_eq_zero (h : 0 ≤ x) (le : x ≤ 0) : size x = 0 := by
  have eq := quanta_eq_size h
  have zero := (le_iff.1 le).2.2
  rw [quanta_zero] at zero
  omega

theorem size_one : size 1 = 2 ^ 1074 := by
  have one : size 1 = scaled 1 0 := by decide +kernel
  have exponent : (0 + 1074 : ℤ).toNat = 1074 := by decide
  rw [one, scaled, exponent, Nat.one_mul]

/-- The double that stands for a number. -/
abbrev packed (u : UnpackedFloat) : Float := .ofModel (Float.Model.pack u)

/-- Whatever rounding gives is packed to a double that is not negative. -/
theorem nonneg_packed {u : UnpackedFloat} (h : Rounded u) :
    0 ≤ packed u ∧ quanta (packed u) = (min (magnitude u) infinite : ℕ) := by
  have value : quanta (packed u) = (min (magnitude u) infinite : ℕ) :=
    value_unpackBits_packBits h
  refine ⟨nonneg_iff.2 ⟨isNaN_unpackBits_packBits h, ?_⟩, value⟩
  rw [value]
  omega

/-! ## Sums -/

/-- The sum of two unpacked doubles. -/
abbrev sum (u v : UnpackedFloat) : UnpackedFloat := UnpackedFloat.add Format.binary64 u v

theorem infinite_le_roundTo {n : ℕ} (h : infinite ≤ n) : infinite ≤ roundTo 0 n :=
  roundTo_infinite ▸ roundTo_mono 0 h

theorem roundTo_magnitude {u : UnpackedFloat} (h : Rounded u) :
    roundTo 0 (magnitude u) = magnitude u := by
  cases u with
  | infinity s => exact roundTo_infinite
  | notANumber => exact h.elim
  | zero s => exact roundTo_zero 0
  | finite s m e pos => exact roundTo_scaled h.2

theorem roundTo_size (h : 0 ≤ x) : roundTo 0 (size x) = size x :=
  roundTo_magnitude (rounded_of_nonneg h).1

/-- A sum is the infinity when the exact one is at least that. -/
theorem rounded_infinity {n : ℕ} (h : infinite ≤ n) :
    Rounded (.infinity .positive) ∧
      min (magnitude (.infinity .positive)) infinite = min (roundTo 0 n) infinite := by
  have le := infinite_le_roundTo h
  rw [magnitude_infinity, Nat.min_self, Nat.min_eq_right le]
  exact ⟨rfl, rfl⟩

theorem rounded_add_finite {m m' : ℕ} {e e' : ℤ} (pos : 0 < m) (pos' : 0 < m')
    (h : Regular m e) (h' : Regular m' e') :
    Rounded (sum (.finite .positive m e pos) (.finite .positive m' e' pos')) ∧
      magnitude (sum (.finite .positive m e pos) (.finite .positive m' e' pos')) =
        roundTo 0 (scaled m e + scaled m' e') := by
  have least := h.least_le
  have least' := h'.least_le
  obtain ⟨d, hd⟩ : ∃ d, d = (e - min e e').toNat := ⟨_, rfl⟩
  obtain ⟨d', hd'⟩ : ∃ d', d' = (e' - min e e').toNat := ⟨_, rfl⟩
  have total : 0 < m * 2 ^ d + m' * 2 ^ d' :=
    Nat.add_pos_left (Nat.mul_pos pos (Nat.two_pow_pos d)) _
  have unfolded : sum (.finite .positive m e pos) (.finite .positive m' e' pos') =
      UnpackedFloat.round Format.binary64 .positive (m * 2 ^ d + m' * 2 ^ d') (min e e') := by
    rw [sum, UnpackedFloat.add]
    simp only [decreaseExponent, ← hd, ← hd', Nat.shiftLeft_eq, Sign.apply, UnpackedFloat.normalize]
    rw [← Int.natCast_add, compare_gt_iff_gt.2 (Int.natCast_pos.2 total)]
    rfl
  have same : scaled (m * 2 ^ d + m' * 2 ^ d') (min e e') = scaled m e + scaled m' e' := by
    rw [scaled, Nat.add_mul, Nat.mul_assoc, Nat.mul_assoc, ← pow_add, ← pow_add, scaled, scaled]
    congr 3 <;> omega
  rw [unfolded, ← same]
  exact rounded_round total (by omega)

/-- The sum of two numbers without sign is the exact sum, rounded and cut off at the infinity. -/
theorem rounded_add {u v : UnpackedFloat} (hu : Rounded u) (hv : Rounded v) :
    Rounded (sum u v) ∧ min (magnitude (sum u v)) infinite =
      min (roundTo 0 (magnitude u + magnitude v)) infinite := by
  have keep := roundTo_magnitude hu
  have keep' := roundTo_magnitude hv
  cases u with
  | notANumber => exact hu.elim
  | infinity s =>
    obtain rfl : s = .positive := hu
    have infinity := rounded_infinity (Nat.le_add_right infinite (magnitude v))
    cases v with
    | notANumber => exact hv.elim
    | infinity s' =>
      obtain rfl : s' = .positive := hv
      exact infinity
    | zero s' => exact infinity
    | finite s' m e pos => exact infinity
  | zero s =>
    cases v with
    | notANumber => exact hv.elim
    | infinity s' =>
      obtain rfl : s' = .positive := hv
      exact rounded_infinity (Nat.le_add_left _ _)
    | zero s' =>
      obtain ⟨t, eq⟩ : ∃ t, sum (.zero s) (.zero s') = .zero t := by
        cases s <;> cases s' <;> exact ⟨_, rfl⟩
      rw [eq, magnitude_zero, magnitude_zero, magnitude_zero, Nat.add_zero, roundTo_zero]
      exact ⟨trivial, rfl⟩
    | finite s' m e pos =>
      have eq : sum (.zero s) (.finite s' m e pos) = .finite s' m e pos := rfl
      rw [eq, magnitude_zero, Nat.zero_add, keep']
      exact ⟨hv, rfl⟩
  | finite s m e pos =>
    cases v with
    | notANumber => exact hv.elim
    | infinity s' =>
      obtain rfl : s' = .positive := hv
      exact rounded_infinity (Nat.le_add_left _ _)
    | zero s' =>
      have eq : sum (.finite s m e pos) (.zero s') = .finite s m e pos := rfl
      rw [eq, magnitude_zero, Nat.add_zero, keep]
      exact ⟨hu, rfl⟩
    | finite s' m' e' pos' =>
      obtain ⟨rfl, regular⟩ := hu
      obtain ⟨rfl, regular'⟩ := hv
      have exact_sum := rounded_add_finite pos pos' regular regular'
      exact ⟨exact_sum.1, congrArg (min · infinite) exact_sum.2⟩

theorem quanta_add (hx : 0 ≤ x) (hy : 0 ≤ y) :
    0 ≤ x + y ∧ quanta (x + y) = (min (roundTo 0 (size x + size y)) infinite : ℕ) := by
  have sum := rounded_add (rounded_of_nonneg hx).1 (rounded_of_nonneg hy).1
  have result := nonneg_packed sum.1
  rw [sum.2] at result
  exact result

theorem add_nonneg (hx : 0 ≤ x) (hy : 0 ≤ y) : 0 ≤ x + y := (quanta_add hx hy).1

theorem add_le_add (hx : 0 ≤ x) (hy : 0 ≤ y) (lex : x ≤ x') (ley : y ≤ y') : x + y ≤ x' + y' := by
  have sum := quanta_add hx hy
  have sum' := quanta_add (le_trans hx lex) (le_trans hy ley)
  have mono := roundTo_mono 0 (Nat.add_le_add (size_le_size hx lex) (size_le_size hy ley))
  rw [le_iff, sum.2, sum'.2]
  exact ⟨(nonneg_iff.1 sum.1).1, (nonneg_iff.1 sum'.1).1, by omega⟩

/-- A sum is at least each of its parts. -/
theorem left_le_add (hx : 0 ≤ x) (hy : 0 ≤ y) : x ≤ x + y := by
  have sum := quanta_add hx hy
  have mono := roundTo_mono 0 (Nat.le_add_right (size x) (size y))
  have bound := size_le_infinite x
  rw [roundTo_size hx] at mono
  rw [le_iff, sum.2, quanta_eq_size hx]
  exact ⟨(nonneg_iff.1 hx).1, (nonneg_iff.1 sum.1).1, by omega⟩

theorem right_le_add (hx : 0 ≤ x) (hy : 0 ≤ y) : y ≤ x + y := by
  have sum := quanta_add hx hy
  have mono := roundTo_mono 0 (Nat.le_add_left (size y) (size x))
  have bound := size_le_infinite y
  rw [roundTo_size hy] at mono
  rw [le_iff, sum.2, quanta_eq_size hy]
  exact ⟨(nonneg_iff.1 hy).1, (nonneg_iff.1 sum.1).1, by omega⟩

/-- A part that is zero adds nothing. -/
theorem add_le_of_le_zero (hx : 0 ≤ x) (hy : 0 ≤ y) (zero : y ≤ 0) : x + y ≤ x := by
  have sum := quanta_add hx hy
  rw [size_eq_zero hy zero, Nat.add_zero, roundTo_size hx] at sum
  rw [le_iff, sum.2, quanta_eq_size hx]
  exact ⟨(nonneg_iff.1 sum.1).1, (nonneg_iff.1 hx).1, by omega⟩

/-! ## Products -/

/-- The product of two unpacked doubles. -/
abbrev product (u v : UnpackedFloat) : UnpackedFloat := UnpackedFloat.mul Format.binary64 u v

theorem rounded_mul_finite {m m' : ℕ} {e e' : ℤ} (pos : 0 < m) (pos' : 0 < m')
    (h : Regular m e) (h' : Regular m' e') :
    Rounded (product (.finite .positive m e pos) (.finite .positive m' e' pos')) ∧
      magnitude (product (.finite .positive m e pos) (.finite .positive m' e' pos')) =
        roundTo 1074 (scaled m e * scaled m' e') := by
  have least := h.least_le
  have least' := h'.least_le
  have enough : 2 ^ 52 ≤ m * m' ∨ e + e' ≤ -1074 := by
    rcases h.normal with ge | eq
    · exact .inl (ge.trans (Nat.le_mul_of_pos_right m pos'))
    · rcases h'.normal with ge' | eq'
      · exact .inl (ge'.trans (Nat.le_mul_of_pos_left m' pos))
      · exact .inr (by omega)
  have same : m * m' * 2 ^ (e + e' + 1074 + (1074 : ℕ)).toNat = scaled m e * scaled m' e' := by
    have exponent : (e + e' + 1074 + (1074 : ℕ)).toNat = (e + 1074).toNat + (e' + 1074).toNat := by
      omega
    rw [exponent, pow_add, scaled, scaled]
    ring
  rw [← same]
  exact rounded_roundWithAccuracy (Nat.mul_pos pos pos') enough (by omega)

/-- The product of two finite numbers without sign is the exact product, rounded. -/
theorem rounded_mul {u v : UnpackedFloat} (hu : Rounded u) (hv : Rounded v)
    (finite : u.isFinite = true) (finite' : v.isFinite = true) :
    Rounded (product u v) ∧
      magnitude (product u v) = roundTo 1074 (magnitude u * magnitude v) := by
  cases u with
  | notANumber => exact hu.elim
  | infinity s => exact absurd finite Bool.false_ne_true
  | zero s =>
    rw [magnitude_zero, Nat.zero_mul, roundTo_zero]
    cases v with
    | notANumber => exact hv.elim
    | infinity s' => exact absurd finite' Bool.false_ne_true
    | zero s' => exact ⟨trivial, rfl⟩
    | finite s' m e pos => exact ⟨trivial, rfl⟩
  | finite s m e pos =>
    cases v with
    | notANumber => exact hv.elim
    | infinity s' => exact absurd finite' Bool.false_ne_true
    | zero s' =>
      rw [magnitude_zero, Nat.mul_zero, roundTo_zero]
      exact ⟨trivial, rfl⟩
    | finite s' m' e' pos' =>
      obtain ⟨rfl, regular⟩ := hu
      obtain ⟨rfl, regular'⟩ := hv
      exact rounded_mul_finite pos pos' regular regular'

theorem quanta_mul (hx : 0 ≤ x) (hy : 0 ≤ y) (finite : x.isFinite = true)
    (finite' : y.isFinite = true) :
    0 ≤ x * y ∧ quanta (x * y) = (min (roundTo 1074 (size x * size y)) infinite : ℕ) := by
  have exact_product :=
    rounded_mul (rounded_of_nonneg hx).1 (rounded_of_nonneg hy).1 finite finite'
  have result := nonneg_packed exact_product.1
  rw [exact_product.2] at result
  exact result

theorem mul_nonneg (hx : 0 ≤ x) (hy : 0 ≤ y) (finite : x.isFinite = true)
    (finite' : y.isFinite = true) : 0 ≤ x * y :=
  (quanta_mul hx hy finite finite').1

theorem mul_le_mul (hx : 0 ≤ x) (hy : 0 ≤ y) (lex : x ≤ x') (ley : y ≤ y')
    (finite : x'.isFinite = true) (finite' : y'.isFinite = true) : x * y ≤ x' * y' := by
  have prod := quanta_mul hx hy (isFinite_of_le hx lex finite) (isFinite_of_le hy ley finite')
  have prod' := quanta_mul (le_trans hx lex) (le_trans hy ley) finite finite'
  have mono := roundTo_mono 1074 (Nat.mul_le_mul (size_le_size hx lex) (size_le_size hy ley))
  rw [le_iff, prod.2, prod'.2]
  exact ⟨(nonneg_iff.1 prod.1).1, (nonneg_iff.1 prod'.1).1, by omega⟩

/-- A product with a factor of at least one is at least the other factor. -/
theorem right_le_mul (hx : 1 ≤ x) (hy : 0 ≤ y) (finite : x.isFinite = true)
    (finite' : y.isFinite = true) : y ≤ x * y := by
  have one : (0 : Float) ≤ 1 := by decide +kernel
  have finiteOne : (1 : Float).isFinite = true := by decide +kernel
  have once : y ≤ 1 * y := by
    have prod := quanta_mul one hy finiteOne finite'
    have bound := size_le_infinite y
    rw [size_one, Nat.mul_comm, roundTo_mul_two_pow, roundTo_size hy] at prod
    rw [le_iff, prod.2, quanta_eq_size hy]
    exact ⟨(nonneg_iff.1 hy).1, (nonneg_iff.1 prod.1).1, by omega⟩
  exact le_trans once (mul_le_mul one hy hx (le_refl (nonneg_iff.1 hy).1) finite finite')

theorem zero_mul_le_zero (hy : 0 ≤ y) (finite : y.isFinite = true) : 0 * y ≤ 0 := by
  have zero : (0 : Float) ≤ 0 := le_refl isNaN_zero
  have prod := quanta_mul zero hy (by decide +kernel) finite
  rw [size_eq_zero zero zero, Nat.zero_mul, roundTo_zero] at prod
  rw [le_iff, prod.2, quanta_zero]
  exact ⟨(nonneg_iff.1 prod.1).1, isNaN_zero, by omega⟩

/-! ## Integers -/

theorem rounded_ofUInt64 (n : UInt64) :
    Rounded (UnpackedFloat.ofUInt64 Format.binary64 n) ∧
      magnitude (UnpackedFloat.ofUInt64 Format.binary64 n) = roundTo 0 (scaled n.toNat 0) := by
  by_cases eq : n.toNat = 0
  · have zero : UnpackedFloat.ofUInt64 Format.binary64 n = .zero .positive := by
      rw [UnpackedFloat.ofUInt64, UnpackedFloat.ofNat, UnpackedFloat.ofInt,
        UnpackedFloat.normalize, eq]
      rfl
    rw [zero, eq, scaled, Nat.zero_mul, roundTo_zero]
    exact ⟨trivial, rfl⟩
  · have pos := Nat.pos_of_ne_zero eq
    have unfolded : UnpackedFloat.ofUInt64 Format.binary64 n =
        UnpackedFloat.round Format.binary64 .positive n.toNat 0 := by
      rw [UnpackedFloat.ofUInt64, UnpackedFloat.ofNat, UnpackedFloat.ofInt, UnpackedFloat.normalize,
        compare_gt_iff_gt.2 (Int.natCast_pos.2 pos)]
      rfl
    rw [unfolded]
    exact rounded_round pos (by decide)

theorem quanta_toFloat (n : UInt64) :
    0 ≤ n.toFloat ∧ quanta n.toFloat = (min (roundTo 0 (scaled n.toNat 0)) infinite : ℕ) := by
  have result := nonneg_packed (rounded_ofUInt64 n).1
  rw [(rounded_ofUInt64 n).2] at result
  exact result

theorem toFloat_nonneg (n : UInt64) : 0 ≤ n.toFloat := (quanta_toFloat n).1

theorem toFloat_le_toFloat {n n' : UInt64} (h : n ≤ n') : n.toFloat ≤ n'.toFloat := by
  have scale : scaled n.toNat 0 ≤ scaled n'.toNat 0 :=
    Nat.mul_le_mul_right _ (UInt64.le_iff_toNat_le.1 h)
  have mono := roundTo_mono 0 scale
  rw [le_iff, (quanta_toFloat n).2, (quanta_toFloat n').2]
  exact ⟨(nonneg_iff.1 (toFloat_nonneg n)).1, (nonneg_iff.1 (toFloat_nonneg n')).1, by omega⟩

/-- A word is at most `2 ^ 64`. -/
theorem size_toFloat_le (n : UInt64) : size n.toFloat ≤ scaled (2 ^ 52) 12 := by
  have regular : Regular (2 ^ 52) 12 := ⟨by decide, by decide, .inl le_rfl⟩
  have bound : scaled n.toNat 0 ≤ scaled (2 ^ 52) 12 := by
    have lt := n.toNat_lt
    have exponent : (12 + 1074 : ℤ).toNat = (0 + 1074 : ℤ).toNat + 12 := by decide
    rw [scaled, scaled, exponent, pow_add]
    generalize (0 + 1074 : ℤ).toNat = k
    calc n.toNat * 2 ^ k
        ≤ 2 ^ 64 * 2 ^ k := Nat.mul_le_mul_right _ lt.le
      _ = 2 ^ 52 * (2 ^ k * 2 ^ 12) := by ring
  have le : roundTo 0 (scaled n.toNat 0) ≤ roundTo 0 (scaled (2 ^ 52) 12) := roundTo_mono 0 bound
  have value := (quanta_toFloat n).2
  rw [roundTo_scaled regular] at le
  rw [quanta_eq_size (toFloat_nonneg n)] at value
  omega

theorem isFinite_of_size_lt (h : 0 ≤ x) (lt : size x < infinite) : x.isFinite = true := by
  have eq := quanta_eq_size h
  have pos := infinite_pos
  rw [isFinite_iff]
  exact ⟨(nonneg_iff.1 h).1, by omega, by omega⟩

theorem isFinite_toFloat (n : UInt64) : n.toFloat.isFinite = true := by
  have regular : Regular (2 ^ 52) 12 := ⟨by decide, by decide, .inl le_rfl⟩
  have lt : scaled (2 ^ 52) 12 < infinite := scaled_lt_infinite regular (by decide)
  exact isFinite_of_size_lt (toFloat_nonneg n) ((size_toFloat_le n).trans_lt lt)

end LeftDeep.Double
