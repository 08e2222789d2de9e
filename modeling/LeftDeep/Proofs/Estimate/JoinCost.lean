import LeftDeep.JoinEstimate
import LeftDeep.Proofs.Double.Arithmetic

/-!
# The cost of a join

A join runs its outer side once, its inner side once for each row of the outer one, and compares
every pair of rows. Each part is a product or a sum of doubles that are not negative, rounded, so
the cost grows with the costs and the rows of both sides. It is a number even where it exceeds all
finite doubles, and at least the cost of the outer side. It is at least that of the inner side only
if that side runs at all.

## Main definitions

* `Cost.IsProper`: a finite cost that is not negative.
* `Condition.CostGrows`: how the cost of a join depends on its sides.

## Main statements

* `Condition.joinCost_le`: a join of sides that are no dearer and no larger costs no more.
* `Condition.left_le_joinCost`, `Condition.right_le_joinCost`: a join costs at least as much as a
  side that runs.
* `Condition.costGrows`: the cost of a join grows with its sides.
-/

namespace LeftDeep

open Double

/-! ## Proper costs -/

/-- A finite cost that is not negative. -/
@[mk_iff]
structure Cost.IsProper (c : Cost) : Prop where
  nonneg : 0 ≤ c
  finite : c.isFinite = true

instance (c : Cost) : Decidable (Cost.IsProper c) :=
  decidable_of_iff _ (Cost.isProper_iff c).symm

theorem Cost.isProper_zero : Cost.IsProper 0 := ⟨le_refl isNaN_zero, by decide +kernel⟩

/-- A cost below the infinity is proper if it is not negative. -/
theorem Cost.isProper_of_lt {c : Cost} (nonneg : 0 ≤ c) (lt : c < infinity) : Cost.IsProper c := by
  refine ⟨nonneg, isFinite_iff.2 ?_⟩
  have pos := infinite_pos
  have number := nonneg_iff.1 nonneg
  have below := (lt_iff.1 lt).2.2
  rw [quanta_infinity] at below
  exact ⟨number.1, by omega, below⟩

theorem Cost.IsProper.of_le {c c' : Cost} (h : Cost.IsProper c') (nonneg : 0 ≤ c) (le : c ≤ c') :
    Cost.IsProper c := ⟨nonneg, isFinite_of_le nonneg le h.finite⟩

theorem Cost.IsProper.le_refl {c : Cost} (h : Cost.IsProper c) : c ≤ c :=
  Double.le_refl (isNaN_of_isFinite h.finite)

namespace Condition

variable {c : Condition} {l l' r r' : Rows} {x x' y y' : Cost}

/-! ## The parts of a cost -/

theorem isProper_toFloat (rows : Rows) : Cost.IsProper rows.toFloat :=
  ⟨toFloat_nonneg rows, isFinite_toFloat rows⟩

theorem one_le_toFloat {rows : Rows} (ne : rows ≠ 0) : 1 ≤ rows.toFloat := by
  have ne' : rows.toNat ≠ 0 := by
    intro zero
    exact ne (UInt64.toNat_inj.1 zero)
  have one : 1 ≤ rows := UInt64.le_iff_toNat_le.2 (Nat.one_le_iff_ne_zero.2 ne')
  exact le_trans (by decide +kernel) (toFloat_le_toFloat one)

/-- The product of a number of rows with a proper cost is not negative, and monotone. -/
theorem rows_mul_nonneg (rows : Rows) (h : Cost.IsProper x) : 0 ≤ rows.toFloat * x :=
  mul_nonneg (toFloat_nonneg rows) h.nonneg (isFinite_toFloat rows) h.finite

theorem rows_mul_le (rows : l ≤ l') (nonneg : 0 ≤ x) (cost : x ≤ x') (h : Cost.IsProper x') :
    l.toFloat * x ≤ l'.toFloat * x' :=
  mul_le_mul (toFloat_nonneg l) nonneg (toFloat_le_toFloat rows) cost (isFinite_toFloat l') h.finite

/-! ## Dearer and larger sides -/

theorem joinCost_nonneg (hx : Cost.IsProper x) (hy : Cost.IsProper y) :
    0 ≤ c.joinCost l r x y := by
  rw [joinCost]
  split
  · exact add_nonneg (add_nonneg (toFloat_nonneg _) hx.nonneg) hy.nonneg
  · exact add_nonneg (add_nonneg hx.nonneg (rows_mul_nonneg _ hy))
      (rows_mul_nonneg _ (isProper_toFloat _))

/-- A join of sides that are no dearer and no larger costs no more. -/
theorem joinCost_le (hx : Cost.IsProper x) (hy : Cost.IsProper y) (hy' : Cost.IsProper y')
    (rows : l ≤ l') (innerRows : r ≤ r') (cost : x ≤ x') (innerCost : y ≤ y') :
    c.joinCost l r x y ≤ c.joinCost l' r' x' y' := by
  have converted := toFloat_le_toFloat rows
  rw [joinCost, joinCost]
  split
  · have outer := add_le_add (toFloat_nonneg l) hx.nonneg converted cost
    exact add_le_add (add_nonneg (toFloat_nonneg _) hx.nonneg) hy.nonneg outer innerCost
  · have inner := rows_mul_le rows hy.nonneg innerCost hy'
    have pairs := rows_mul_le rows (toFloat_nonneg r) (toFloat_le_toFloat innerRows)
      (isProper_toFloat r')
    have scans := add_le_add hx.nonneg (rows_mul_nonneg l hy) cost inner
    exact add_le_add (add_nonneg hx.nonneg (rows_mul_nonneg _ hy))
      (rows_mul_nonneg _ (isProper_toFloat _)) scans pairs

/-! ## The cost of one side -/

/-- A join costs at least what its outer side costs. -/
theorem left_le_joinCost (hx : Cost.IsProper x) (hy : Cost.IsProper y) :
    x ≤ c.joinCost l r x y := by
  have rows := toFloat_nonneg l
  rw [joinCost]
  split
  · exact le_trans (right_le_add rows hx.nonneg)
      (left_le_add (add_nonneg rows hx.nonneg) hy.nonneg)
  · have inner := rows_mul_nonneg l hy
    have pairs := rows_mul_nonneg l (isProper_toFloat r)
    exact le_trans (left_le_add hx.nonneg inner)
      (left_le_add (add_nonneg hx.nonneg inner) pairs)

/-- A join costs at least what its inner side costs, as long as that runs. -/
theorem right_le_joinCost (hx : Cost.IsProper x) (hy : Cost.IsProper y)
    (runs : c.isSubquery = true ∨ l ≠ 0) : y ≤ c.joinCost l r x y := by
  have rows := toFloat_nonneg l
  rw [joinCost]
  split
  · exact right_le_add (add_nonneg rows hx.nonneg) hy.nonneg
  · next table =>
    have one := one_le_toFloat (runs.resolve_left table)
    have inner := rows_mul_nonneg l hy
    have pairs := rows_mul_nonneg l (isProper_toFloat r)
    exact le_trans (right_le_mul one hy.nonneg (isFinite_toFloat l) hy.finite)
      (le_trans (right_le_add hx.nonneg inner)
        (left_le_add (add_nonneg hx.nonneg inner) pairs))

/-- Without outer rows the inner side never runs. -/
theorem joinCost_le_left (hx : Cost.IsProper x) (hy : Cost.IsProper y)
    (table : c.isSubquery = false) (rows : l = 0) : c.joinCost l r x y ≤ x := by
  have zero : (0 : Rows).toFloat = 0 := by decide +kernel
  have inner := rows_mul_nonneg 0 hy
  have pairs := rows_mul_nonneg 0 (isProper_toFloat r)
  rw [joinCost, table, if_neg Bool.false_ne_true, rows]
  rw [zero] at *
  exact le_trans
    (add_le_of_le_zero (add_nonneg hx.nonneg inner) pairs
      (zero_mul_le_zero (toFloat_nonneg _) (isFinite_toFloat _)))
    (add_le_of_le_zero hx.nonneg inner (zero_mul_le_zero hy.nonneg hy.finite))

/-! ## Growth -/

/-- The cost of a join of sides with proper costs is a number, no less than that of the outer side,
and grows with each of the costs and the numbers of rows. -/
structure CostGrows (c : Condition) : Prop where
  number {l r : Rows} {x y : Cost} (hx : Cost.IsProper x) (hy : Cost.IsProper y) :
    (c.joinCost l r x y).isNaN = false
  left_le {l r : Rows} {x y : Cost} (hx : Cost.IsProper x) (hy : Cost.IsProper y) :
    x ≤ c.joinCost l r x y
  leftRows {l l' r : Rows} {x y : Cost} (hx : Cost.IsProper x) (hy : Cost.IsProper y)
    (more : l ≤ l') : c.joinCost l r x y ≤ c.joinCost l' r x y
  rightRows {l r r' : Rows} {x y : Cost} (hx : Cost.IsProper x) (hy : Cost.IsProper y)
    (more : r ≤ r') : c.joinCost l r x y ≤ c.joinCost l r' x y
  leftCost {l r : Rows} {x x' y : Cost} (hx : Cost.IsProper x) (hx' : Cost.IsProper x')
    (hy : Cost.IsProper y) (more : x ≤ x') : c.joinCost l r x y ≤ c.joinCost l r x' y
  rightCost {l r : Rows} {x y y' : Cost} (hx : Cost.IsProper x) (hy : Cost.IsProper y)
    (hy' : Cost.IsProper y') (more : y ≤ y') : c.joinCost l r x y ≤ c.joinCost l r x y'

/-- The cost of a join grows with its sides, whether it joins two tables or a table and a
sub-query. -/
theorem costGrows (c : Condition) : c.CostGrows where
  number hx hy := (nonneg_iff.1 (joinCost_nonneg hx hy)).1
  left_le := left_le_joinCost
  leftRows hx hy more := joinCost_le hx hy hy more (UInt64.le_refl _) hx.le_refl hy.le_refl
  rightRows hx hy more := joinCost_le hx hy hy (UInt64.le_refl _) more hx.le_refl hy.le_refl
  leftCost hx _ hy more :=
    joinCost_le hx hy hy (UInt64.le_refl _) (UInt64.le_refl _) more hy.le_refl
  rightCost hx hy hy' more :=
    joinCost_le hx hy hy' (UInt64.le_refl _) (UInt64.le_refl _) hx.le_refl more

/-- A join of two tables. -/
def lessThan : Condition := { left := ⟨"a", "x"⟩, op := .less, right := .column ⟨"b", "y"⟩ }

/-- With as many outer rows as there can be, reading the inner side for each of them costs more than
any finite double. -/
theorem lessThan_costGrows :
    Cost.IsProper 1e308 ∧ Cost.IsProper 1e300 ∧
      (lessThan.joinCost (2 ^ 64 - 1) 7 1e308 1e300).isFinite = false ∧
      (lessThan.joinCost (2 ^ 64 - 1) 7 1e308 1e300).isNaN = false ∧
      lessThan.joinCost 3 7 1e308 1e300 ≤ lessThan.joinCost (2 ^ 64 - 1) 7 1e308 1e300 := by
  have outer : Cost.IsProper 1e308 := by decide +kernel
  have inner : Cost.IsProper 1e300 := by decide +kernel
  have grows := costGrows lessThan
  exact ⟨outer, inner, by decide +kernel, grows.number outer inner,
    grows.leftRows outer inner (by decide +kernel)⟩

end Condition
end LeftDeep
