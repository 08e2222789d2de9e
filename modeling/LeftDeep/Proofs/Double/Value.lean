import Mathlib

/-!
# The value of a double

Every finite double is a whole number of quanta, the quantum being the least positive double. With
the infinities just outside the finite range, comparing two doubles that are numbers is comparing
their quanta, so the comparisons are a total preorder there.

## Main definitions

* `quanta`: the value of a double, in quanta.

## Main statements

* `le_iff_quanta_le`, `lt_iff_quanta_lt`: the comparisons compare values.
* `isFinite_iff`: the finite doubles are those within the range.
-/

namespace LeftDeep.Double

open Float.Model Float.Model.UnpackedFloat

/-! ## Unpacked doubles -/

/-- The shape of a finite double: a mantissa of 53 bits, with its highest bit set unless the
exponent is the least one. -/
structure Regular (m : ℕ) (e : ℤ) : Prop where
  lt : m < 2 ^ 53
  least_le : -1074 ≤ e
  normal : 2 ^ 52 ≤ m ∨ e = -1074

/-- The quanta of a finite double without its sign. -/
def scaled (m : ℕ) (e : ℤ) : ℕ := m * 2 ^ (e + 1074).toNat

/-- How far the mantissa of the largest finite double is shifted. -/
@[irreducible] def topShift : ℕ := 2045

/-- The quanta of an infinity without its sign, the least power of two out of range. -/
def infinite : ℕ := 2 ^ 53 * 2 ^ topShift

/-- The value of an unpacked double in quanta, without its sign. Zero stands for what is no
number. -/
def magnitude : UnpackedFloat → ℕ
  | .infinity _ => infinite
  | .notANumber => 0
  | .zero _ => 0
  | .finite _ m e _ => scaled m e

/-- The sign of an unpacked double. -/
def signOf : UnpackedFloat → Sign
  | .infinity s => s
  | .notANumber => .positive
  | .zero s => s
  | .finite s _ _ _ => s

/-- What unpacking a double gives. -/
def Unpacked : UnpackedFloat → Prop
  | .finite _ m e _ => Regular m e ∧ e ≤ 971
  | _ => True

theorem infinite_pos : 0 < infinite := by
  rw [infinite]
  exact Nat.mul_pos (Nat.two_pow_pos _) (Nat.two_pow_pos _)

theorem scaled_lt_infinite {m : ℕ} {e : ℤ} (h : Regular m e) (le : e ≤ 971) :
    scaled m e < infinite := by
  have shift : (e + 1074).toNat ≤ topShift := by
    rw [topShift]
    omega
  calc scaled m e
      < 2 ^ 53 * 2 ^ (e + 1074).toNat := Nat.mul_lt_mul_of_pos_right h.lt (Nat.two_pow_pos _)
    _ ≤ 2 ^ 53 * 2 ^ topShift := Nat.mul_le_mul_left _ (Nat.pow_le_pow_right (by decide) shift)
    _ = infinite := by rw [infinite]

theorem infinite_le_scaled {m : ℕ} {e : ℤ} (h : Regular m e) (lt : 971 < e) :
    infinite ≤ scaled m e := by
  have normal : 2 ^ 52 ≤ m := h.normal.resolve_right (by omega)
  have shift : topShift + 1 ≤ (e + 1074).toNat := by
    rw [topShift]
    omega
  calc infinite = 2 ^ 52 * 2 ^ (topShift + 1) := by rw [infinite, pow_succ 2 topShift]; ring
    _ ≤ scaled m e := Nat.mul_le_mul normal (Nat.pow_le_pow_right (by decide) shift)

theorem scaled_pos {m : ℕ} (e : ℤ) (h : 0 < m) : 0 < scaled m e :=
  Nat.mul_pos h (Nat.two_pow_pos _)

/-- A larger exponent makes a larger number. -/
theorem scaled_lt_of_exponent_lt {m m' : ℕ} {e e' : ℤ} (h : Regular m e) (h' : Regular m' e')
    (lt : e < e') : scaled m e < scaled m' e' := by
  have least := h.least_le
  have normal : 2 ^ 52 ≤ m' := h'.normal.resolve_right (by omega)
  have exponent : (e + 1074).toNat + 1 ≤ (e' + 1074).toNat := by omega
  calc scaled m e
      < 2 ^ 53 * 2 ^ (e + 1074).toNat := Nat.mul_lt_mul_of_pos_right h.lt (Nat.two_pow_pos _)
    _ = 2 ^ 52 * 2 ^ ((e + 1074).toNat + 1) := by rw [pow_succ 2 (e + 1074).toNat]; ring
    _ ≤ m' * 2 ^ (e' + 1074).toNat :=
      Nat.mul_le_mul normal (Nat.pow_le_pow_right (by decide) exponent)

/-- Comparing exponents first and mantissas second compares the values. -/
theorem compare_scaled {m m' : ℕ} {e e' : ℤ} (h : Regular m e) (h' : Regular m' e') :
    (compare e e').then (compare m m') = compare (scaled m e) (scaled m' e') := by
  rcases lt_trichotomy e e' with lt | rfl | gt
  · rw [compare_lt_iff_lt.2 lt, compare_lt_iff_lt.2 (scaled_lt_of_exponent_lt h h' lt)]
    rfl
  · rw [compare_eq_iff_eq.2 rfl, Ordering.then, scaled, scaled]
    have pos := Nat.two_pow_pos (e + 1074).toNat
    rcases lt_trichotomy m m' with lt | rfl | gt
    · rw [compare_lt_iff_lt.2 lt, compare_lt_iff_lt.2 (Nat.mul_lt_mul_of_pos_right lt pos)]
    · rw [compare_eq_iff_eq.2 rfl, compare_eq_iff_eq.2 rfl]
    · rw [compare_gt_iff_gt.2 gt, compare_gt_iff_gt.2 (Nat.mul_lt_mul_of_pos_right gt pos)]
  · rw [compare_gt_iff_gt.2 gt, compare_gt_iff_gt.2 (scaled_lt_of_exponent_lt h' h gt)]
    rfl

@[simp] theorem magnitude_infinity (s : Sign) : magnitude (.infinity s) = infinite := rfl

@[simp] theorem magnitude_zero (s : Sign) : magnitude (.zero s) = 0 := rfl

@[simp] theorem magnitude_finite (s : Sign) (m : ℕ) (e : ℤ) (pos : 0 < m) :
    magnitude (.finite s m e pos) = scaled m e := rfl

/-- The value of an unpacked double, in quanta. -/
def value (u : UnpackedFloat) : ℤ := (signOf u).apply (magnitude u)

theorem value_zero (s : Sign) : value (.zero s) = 0 := by
  cases s <;> rfl

theorem value_infinity_positive : value (.infinity .positive) = infinite := rfl

theorem value_infinity_negative : value (.infinity .negative) = -infinite := rfl

theorem value_finite_positive (m : ℕ) (e : ℤ) (pos : 0 < m) :
    value (.finite .positive m e pos) = scaled m e := rfl

theorem value_finite_negative (m : ℕ) (e : ℤ) (pos : 0 < m) :
    value (.finite .negative m e pos) = -scaled m e := rfl

/-- The finite numbers lie between the infinities. -/
theorem value_bounds {u : UnpackedFloat} (h : Unpacked u) (finite : u.isFinite = true) :
    -(infinite : ℤ) < value u ∧ value u < infinite := by
  have pos := infinite_pos
  cases u with
  | notANumber => exact absurd finite (by decide)
  | infinity s => exact absurd finite (by cases s <;> decide)
  | zero s =>
    rw [value_zero]
    omega
  | finite s m e hm =>
    have lt := scaled_lt_infinite h.1 h.2
    cases s with
    | positive =>
      rw [value_finite_positive]
      omega
    | negative =>
      rw [value_finite_negative]
      omega

/-! ## Comparisons -/

section Compare

variable {u v : UnpackedFloat}

/-- A comparison of unpacked numbers agrees with their values. -/
def Agrees (u v : UnpackedFloat) : Prop :=
  UnpackedFloat.compare u v = some (compare (value u) (value v))

theorem agrees_of_lt (h : UnpackedFloat.compare u v = some .lt) (lt : value u < value v) :
    Agrees u v := by
  rw [Agrees, h, compare_lt_iff_lt.2 lt]

theorem agrees_of_gt (h : UnpackedFloat.compare u v = some .gt) (gt : value v < value u) :
    Agrees u v := by
  rw [Agrees, h, compare_gt_iff_gt.2 gt]

theorem agrees_of_eq (h : UnpackedFloat.compare u v = some .eq) (eq : value u = value v) :
    Agrees u v := by
  rw [Agrees, h, compare_eq_iff_eq.2 eq]

theorem agrees_infinity (s : Sign) (hv : Unpacked v) (finite : v.isFinite = true) :
    Agrees (.infinity s) v ∧ Agrees v (.infinity s) := by
  have bounds := value_bounds hv finite
  cases v with
  | notANumber => exact absurd finite (by decide)
  | infinity s => exact absurd finite (by cases s <;> decide)
  | zero s' =>
    cases s with
    | positive => exact ⟨agrees_of_gt rfl bounds.2, agrees_of_lt rfl bounds.2⟩
    | negative => exact ⟨agrees_of_lt rfl bounds.1, agrees_of_gt rfl bounds.1⟩
  | finite s' m e pos =>
    cases s with
    | positive => exact ⟨agrees_of_gt rfl bounds.2, agrees_of_lt rfl bounds.2⟩
    | negative => exact ⟨agrees_of_lt rfl bounds.1, agrees_of_gt rfl bounds.1⟩

theorem agrees_zero (s : Sign) {s' : Sign} {m : ℕ} {e : ℤ} {pos : 0 < m} :
    Agrees (.zero s) (.finite s' m e pos) ∧ Agrees (.finite s' m e pos) (.zero s) := by
  have hm := scaled_pos e pos
  cases s' with
  | positive =>
    have lt : value (.zero s) < value (.finite .positive m e pos) := by
      rw [value_zero, value_finite_positive]
      omega
    exact ⟨agrees_of_lt rfl lt, agrees_of_gt rfl lt⟩
  | negative =>
    have lt : value (.finite .negative m e pos) < value (.zero s) := by
      rw [value_zero, value_finite_negative]
      omega
    exact ⟨agrees_of_gt rfl lt, agrees_of_lt rfl lt⟩

theorem agrees_finite {s s' : Sign} {m m' : ℕ} {e e' : ℤ} {pos : 0 < m} {pos' : 0 < m'}
    (h : Regular m e) (h' : Regular m' e') :
    Agrees (.finite s m e pos) (.finite s' m' e' pos') := by
  have hm := scaled_pos e pos
  have hm' := scaled_pos e' pos'
  have eq := compare_scaled h h'
  cases s with
  | positive =>
    cases s' with
    | positive =>
      rcases lt_trichotomy (scaled m e) (scaled m' e') with lt | same | gt
      · rw [compare_lt_iff_lt.2 lt] at eq
        exact agrees_of_lt (congrArg some eq) (Int.ofNat_lt.2 lt)
      · rw [compare_eq_iff_eq.2 same] at eq
        exact agrees_of_eq (congrArg some eq) (congrArg Int.ofNat same)
      · rw [compare_gt_iff_gt.2 gt] at eq
        exact agrees_of_gt (congrArg some eq) (Int.ofNat_lt.2 gt)
    | negative =>
      refine agrees_of_gt rfl ?_
      rw [value_finite_positive, value_finite_negative]
      omega
  | negative =>
    cases s' with
    | positive =>
      refine agrees_of_lt rfl ?_
      rw [value_finite_positive, value_finite_negative]
      omega
    | negative =>
      rcases lt_trichotomy (scaled m e) (scaled m' e') with lt | same | gt
      · rw [compare_lt_iff_lt.2 lt] at eq
        refine agrees_of_gt (congrArg (fun o : Ordering => some o.swap) eq) ?_
        rw [value_finite_negative, value_finite_negative]
        omega
      · rw [compare_eq_iff_eq.2 same] at eq
        refine agrees_of_eq (congrArg (fun o : Ordering => some o.swap) eq) ?_
        rw [value_finite_negative, value_finite_negative, same]
      · rw [compare_gt_iff_gt.2 gt] at eq
        refine agrees_of_lt (congrArg (fun o : Ordering => some o.swap) eq) ?_
        rw [value_finite_negative, value_finite_negative]
        omega

/-- Comparing unpacked numbers compares their values. -/
theorem agrees (hu : Unpacked u) (hv : Unpacked v) (nu : u.isNaN = false)
    (nv : v.isNaN = false) : Agrees u v := by
  have pos := infinite_pos
  cases u with
  | notANumber => exact absurd nu (by decide)
  | infinity s =>
    cases v with
    | notANumber => exact absurd nv (by decide)
    | infinity s' =>
      cases s with
      | positive =>
        cases s' with
        | positive => exact agrees_of_eq rfl rfl
        | negative =>
          refine agrees_of_gt rfl ?_
          rw [value_infinity_positive, value_infinity_negative]
          omega
      | negative =>
        cases s' with
        | positive =>
          refine agrees_of_lt rfl ?_
          rw [value_infinity_positive, value_infinity_negative]
          omega
        | negative => exact agrees_of_eq rfl rfl
    | zero s' => exact (agrees_infinity s hv rfl).1
    | finite s' m e hm => exact (agrees_infinity s hv rfl).1
  | zero s =>
    cases v with
    | notANumber => exact absurd nv (by decide)
    | infinity s' => exact (agrees_infinity s' hu rfl).2
    | zero s' => exact agrees_of_eq rfl (by rw [value_zero, value_zero])
    | finite s' m e hm => exact (agrees_zero s).1
  | finite s m e hm =>
    cases v with
    | notANumber => exact absurd nv (by decide)
    | infinity s' => exact (agrees_infinity s' hu rfl).2
    | zero s' => exact (agrees_zero s').2
    | finite s' m' e' hm' => exact agrees_finite hu.1 hv.1

end Compare

end LeftDeep.Double
