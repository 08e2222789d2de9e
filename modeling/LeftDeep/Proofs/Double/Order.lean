import LeftDeep.Proofs.Double.Packing

/-!
# The order of doubles

Two doubles that are numbers compare as their values do. A comparison with a double that is no
number never holds, so `≤` is a total preorder on the numbers and `x ≤ x` says that `x` is one.

## Main definitions

* `quanta`: the value of a double, in quanta.
* `infinity`: the positive infinity.

## Main statements

* `le_iff`, `lt_iff`: the comparisons compare values.
* `isFinite_iff`: the finite doubles are the numbers between the infinities.
* `lt_infinity_of_isFinite`: what is finite is below the infinity.
-/

namespace LeftDeep.Double

open Float.Model Float.Model.UnpackedFloat

/-- The value of a double in quanta, or zero if it is no number. -/
def quanta (x : Float) : ℤ := value x.toModel.unpack

variable {x y z : Float}

theorem unpacked (x : Float) : Unpacked x.toModel.unpack := unpacked_unpack _

theorem compare_eq (hx : x.isNaN = false) (hy : y.isNaN = false) :
    UnpackedFloat.compare x.toModel.unpack y.toModel.unpack =
      some (compare (quanta x) (quanta y)) :=
  agrees (unpacked x) (unpacked y) hx hy

theorem compare_eq_none (h : x.isNaN = true ∨ y.isNaN = true) :
    UnpackedFloat.compare x.toModel.unpack y.toModel.unpack = none := by
  have eq_notANumber {u : UnpackedFloat} (h : u.isNaN = true) : u = .notANumber := by
    cases u with
    | notANumber => rfl
    | infinity s => cases h
    | zero s => cases h
    | finite s m e pos => cases h
  rcases h with h | h
  · rw [eq_notANumber h]
    rfl
  · rw [eq_notANumber h]
    cases x.toModel.unpack <;> rfl

/-- The numbers are compared by their values. -/
theorem le_iff : x ≤ y ↔ x.isNaN = false ∧ y.isNaN = false ∧ quanta x ≤ quanta y := by
  have unfolded : x ≤ y ↔
      (UnpackedFloat.compare x.toModel.unpack y.toModel.unpack).any (·.isLE) = true := by
    change decide (x.toModel ≤ y.toModel) = true ↔ _
    rw [decide_eq_true_iff]
    rfl
  rw [unfolded]
  cases hx : x.isNaN with
  | true => simp [compare_eq_none (.inl hx)]
  | false =>
    cases hy : y.isNaN with
    | true => simp [compare_eq_none (.inr hy)]
    | false => simp [compare_eq hx hy, Int.isLE_compare]

theorem lt_iff : x < y ↔ x.isNaN = false ∧ y.isNaN = false ∧ quanta x < quanta y := by
  have unfolded : x < y ↔
      (UnpackedFloat.compare x.toModel.unpack y.toModel.unpack == some .lt) = true := by
    change decide (x.toModel < y.toModel) = true ↔ _
    rw [decide_eq_true_iff]
    rfl
  rw [unfolded]
  cases hx : x.isNaN with
  | true => simp [compare_eq_none (.inl hx)]
  | false =>
    cases hy : y.isNaN with
    | true => simp [compare_eq_none (.inr hy)]
    | false => simp [compare_eq hx hy, compare_lt_iff_lt]

theorem le_refl (h : x.isNaN = false) : x ≤ x := le_iff.2 ⟨h, h, le_rfl⟩

theorem le_trans (h : x ≤ y) (h' : y ≤ z) : x ≤ z := by
  rw [le_iff] at *
  exact ⟨h.1, h'.2.1, h.2.2.trans h'.2.2⟩

theorem lt_of_le_of_lt (h : x ≤ y) (h' : y < z) : x < z := by
  rw [le_iff] at h
  rw [lt_iff] at *
  exact ⟨h.1, h'.2.1, h.2.2.trans_lt h'.2.2⟩

theorem lt_of_lt_of_le (h : x < y) (h' : y ≤ z) : x < z := by
  rw [le_iff] at h'
  rw [lt_iff] at *
  exact ⟨h.1, h'.2.1, h.2.2.trans_le h'.2.2⟩

theorem le_of_lt (h : x < y) : x ≤ y := by
  rw [lt_iff] at h
  exact le_iff.2 ⟨h.1, h.2.1, h.2.2.le⟩

theorem not_le_of_lt (h : x < y) : ¬y ≤ x := by
  intro h'
  rw [lt_iff] at h
  rw [le_iff] at h'
  omega

/-- Of two numbers that are not in order, the second is less. -/
theorem not_le_iff (hx : x.isNaN = false) (hy : y.isNaN = false) : ¬x ≤ y ↔ y < x := by
  rw [le_iff, lt_iff]
  simp only [hx, hy, true_and, not_le]

theorem not_lt_iff (hx : x.isNaN = false) (hy : y.isNaN = false) : ¬x < y ↔ y ≤ x := by
  rw [le_iff, lt_iff]
  simp only [hx, hy, true_and, not_lt]

/-! ## Zero and the infinity -/

theorem isNaN_zero : (0 : Float).isNaN = false := by decide +kernel

theorem quanta_zero : quanta 0 = 0 := by decide +kernel

theorem nonneg_iff : 0 ≤ x ↔ x.isNaN = false ∧ 0 ≤ quanta x := by
  rw [le_iff, quanta_zero]
  simp only [isNaN_zero, true_and]

/-- The infinity above all finite doubles. -/
@[irreducible] def infinity : Float := 1.0 / 0.0

theorem unpack_infinity : infinity.toModel.unpack = .infinity .positive := by
  rw [infinity]
  rfl

theorem quanta_infinity : quanta infinity = infinite := by
  rw [quanta, unpack_infinity]
  rfl

theorem isNaN_infinity : infinity.isNaN = false :=
  congrArg UnpackedFloat.isNaN unpack_infinity

theorem isFinite_iff :
    x.isFinite = true ↔ x.isNaN = false ∧ -(infinite : ℤ) < quanta x ∧ quanta x < infinite := by
  have bounds (h : x.toModel.unpack.isFinite = true) :
      -(infinite : ℤ) < quanta x ∧ quanta x < infinite :=
    value_bounds (unpacked x) h
  change x.toModel.unpack.isFinite = true ↔ x.toModel.unpack.isNaN = false ∧ _
  rw [quanta] at *
  cases eq : x.toModel.unpack with
  | notANumber => simp [UnpackedFloat.isFinite, UnpackedFloat.isNaN]
  | infinity s =>
    apply iff_of_false
    · simp [UnpackedFloat.isFinite]
    · intro h
      cases s with
      | positive => exact lt_irrefl _ h.2.2
      | negative => exact lt_irrefl _ h.2.1
  | zero s =>
    rw [eq] at bounds
    exact iff_of_true rfl ⟨rfl, bounds rfl⟩
  | finite s m e pos =>
    rw [eq] at bounds
    exact iff_of_true rfl ⟨rfl, bounds rfl⟩

/-- A number that is no infinity is finite. -/
theorem isFinite_of_isInf (number : x.isNaN = false) (h : x.isInf = false) :
    x.isFinite = true := by
  change x.toModel.unpack.isNaN = false at number
  change x.toModel.unpack.isInf = false at h
  change x.toModel.unpack.isFinite = true
  cases eq : x.toModel.unpack with
  | notANumber =>
    rw [eq] at number
    exact absurd number (by decide)
  | infinity s =>
    rw [eq] at h
    exact absurd h (by simp [UnpackedFloat.isInf])
  | zero s => rfl
  | finite s m e pos => rfl

theorem isInf_of_isFinite (h : x.isFinite = true) : x.isInf = false := by
  change x.toModel.unpack.isFinite = true at h
  change x.toModel.unpack.isInf = false
  cases eq : x.toModel.unpack with
  | infinity s =>
    rw [eq] at h
    exact absurd h Bool.false_ne_true
  | notANumber => rfl
  | zero s => rfl
  | finite s m e pos => rfl

theorem isFinite_neg (h : x.isFinite = true) : (-x).isFinite = true := by
  change x.toModel.unpack.isFinite = true at h
  change (unpackBits (packBits x.toModel.unpack.neg)).isFinite = true
  have shape := unpacked x
  cases eq : x.toModel.unpack with
  | notANumber =>
    rw [eq] at h
    exact absurd h Bool.false_ne_true
  | infinity s =>
    rw [eq] at h
    exact absurd h Bool.false_ne_true
  | zero s => cases s <;> rfl
  | finite s m e pos =>
    rw [eq] at shape
    rw [UnpackedFloat.neg, unpackBits_packBits (-s) pos shape.1 shape.2]
    rfl

theorem isNaN_of_isFinite (h : x.isFinite = true) : x.isNaN = false := (isFinite_iff.1 h).1

theorem lt_infinity_of_isFinite (h : x.isFinite = true) : x < infinity := by
  rw [isFinite_iff] at h
  exact lt_iff.2 ⟨h.1, isNaN_infinity, quanta_infinity ▸ h.2.2⟩

theorem isFinite_of_le (h : 0 ≤ x) (le : x ≤ y) (finite : y.isFinite = true) :
    x.isFinite = true := by
  have pos := infinite_pos
  rw [nonneg_iff] at h
  rw [le_iff] at le
  rw [isFinite_iff] at *
  exact ⟨h.1, by omega, by omega⟩

end LeftDeep.Double
