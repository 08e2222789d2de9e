import LeftDeep.Problem.OfInputs
import LeftDeep.Proofs.Double.Nearest

/-!
# The rows left by filters

Filters leave a fraction of the rows of a table, rounded down. The fraction is taken of the count as
a double, which is the nearest one. So filters leave no more rows than that, all of these if they
pass everything, none if they pass nothing, and no fewer rows than stricter filters. A count with
more bits than a double may be rounded up, and then a scan without filters yields more rows than the
table has.

## Main definitions

* `Statistics.FiltersFrom`: how filters reduce a number of rows.
* `Statistics.longTable`: a table whose count of rows is no double.

## Main statements

* `Statistics.toNat_filteredRows`: the rows that filters leave, in integers.
* `Statistics.filtersFrom_nearest`: filters reduce the rows of a table as a double counts them.
-/

namespace LeftDeep.Statistics

open Double

variable {s : Statistics} {f g : Selectivity}

/-- Filters reduce `n` rows: never to more, to all of them or none at the ends, and to no fewer by
filters that pass more. -/
structure FiltersFrom (s : Statistics) (n : Rows) : Prop where
  le {f : Selectivity} (fraction : Inputs.isFraction f = true) : s.filteredRows f ≤ n
  eq_of_one {f : Selectivity} (fraction : Inputs.isFraction f = true) (one : 1 ≤ f) :
    s.filteredRows f = n
  eq_of_zero {f : Selectivity} (fraction : Inputs.isFraction f = true) (zero : f ≤ 0) :
    s.filteredRows f = 0
  mono {f g : Selectivity} (fraction : Inputs.isFraction f = true)
    (fraction' : Inputs.isFraction g = true) (le : f ≤ g) : s.filteredRows f ≤ s.filteredRows g

theorem bounds_of_isFraction (fraction : Inputs.isFraction f = true) :
    0 ≤ f ∧ f ≤ 1 ∧ f.isFinite = true := by
  obtain ⟨nonneg, le⟩ : 0 ≤ f ∧ f ≤ 1 := by
    simpa [Inputs.isFraction] using fraction
  exact ⟨nonneg, le, isFinite_of_le nonneg le (by decide)⟩

/-- The rows of a scan are the whole part of the product, as far as that fits. -/
theorem toNat_filteredRows (s : Statistics) (fraction : Inputs.isFraction f = true) :
    (s.filteredRows f).toNat = min (whole (s.tuples.toFloat * f)) (2 ^ 64 - 1) := by
  obtain ⟨nonneg, -, finite⟩ := bounds_of_isFraction fraction
  exact toNat_toUInt64
    (mul_nonneg (toFloat_nonneg s.tuples) nonneg (isFinite_toFloat s.tuples) finite)

/-! ## Filters that pass more, everything or nothing -/

theorem filteredRows_mono (fraction : Inputs.isFraction f = true)
    (fraction' : Inputs.isFraction g = true) (le : f ≤ g) :
    s.filteredRows f ≤ s.filteredRows g := by
  obtain ⟨nonneg, -, finite⟩ := bounds_of_isFraction fraction
  obtain ⟨-, -, finite'⟩ := bounds_of_isFraction fraction'
  have count := toFloat_nonneg s.tuples
  have countFinite := isFinite_toFloat s.tuples
  have number := (nonneg_iff.1 count).1
  have product : s.tuples.toFloat * f ≤ s.tuples.toFloat * g :=
    mul_le_mul count nonneg (le_refl number) le countFinite finite'
  have parts : whole (s.tuples.toFloat * f) ≤ whole (s.tuples.toFloat * g) :=
    Nat.div_le_div_right (size_le_size (mul_nonneg count nonneg countFinite finite) product)
  rw [UInt64.le_iff_toNat_le, toNat_filteredRows s fraction, toNat_filteredRows s fraction']
  omega

theorem filteredRows_of_zero (fraction : Inputs.isFraction f = true) (zero : f ≤ 0) :
    s.filteredRows f = 0 := by
  obtain ⟨nonneg, -, finite⟩ := bounds_of_isFraction fraction
  obtain ⟨nonneg', value⟩ :=
    quanta_mul (toFloat_nonneg s.tuples) nonneg (isFinite_toFloat s.tuples) finite
  rw [size_eq_zero nonneg zero, Nat.mul_zero, roundTo_zero, quanta_eq_size nonneg'] at value
  have size_eq : size (s.tuples.toFloat * f) = 0 := by omega
  rw [← UInt64.toNat_inj, toNat_filteredRows s fraction, whole, size_eq, Nat.zero_div]
  rfl

/-- A product with one is the other factor. -/
theorem size_mul_of_one {x : Float} (hx : 0 ≤ x) (finite : x.isFinite = true) (one : 1 ≤ f)
    (le : f ≤ 1) : size (x * f) = size x := by
  have nonneg : 0 ≤ f := le_trans (by decide +kernel) one
  have size_eq : size f = size 1 := Nat.le_antisymm (size_le_size nonneg le)
    (size_le_size (by decide +kernel) one)
  obtain ⟨nonneg', value⟩ := quanta_mul hx nonneg finite (isFinite_of_le nonneg le (by decide))
  rw [size_eq, size_one, roundTo_mul_two_pow, roundTo_size hx, quanta_eq_size nonneg'] at value
  have bound := size_le_infinite x
  omega

theorem filteredRows_of_one (fraction : Inputs.isFraction f = true) (one : 1 ≤ f) :
    s.filteredRows f = s.tuples.toFloat.toUInt64 := by
  obtain ⟨-, le, -⟩ := bounds_of_isFraction fraction
  have nonneg := toFloat_nonneg s.tuples
  have size_eq := size_mul_of_one nonneg (isFinite_toFloat s.tuples) one le
  rw [← UInt64.toNat_inj, toNat_filteredRows s fraction, toNat_toUInt64 nonneg, whole, whole,
    size_eq]

/-! ## The count as a double -/

theorem toUInt64_toFloat_of_dvd {n : Rows} (dvd : 2 ^ lastBit n.toNat ∣ n.toNat) :
    n.toFloat.toUInt64 = n := by
  have lt := n.toNat_lt
  rw [← UInt64.toNat_inj, toNat_toUInt64_toFloat, roundTo_of_dvd dvd]
  omega

theorem toUInt64_toFloat_near (n : Rows) :
    2 ^ 53 * n.toFloat.toUInt64.toNat ≤ (2 ^ 53 + 1) * n.toNat ∧
      2 ^ 53 * n.toNat ≤ 2 ^ 53 * n.toFloat.toUInt64.toNat + n.toNat := by
  have above := roundTo_le n.toNat
  have below := le_roundTo n.toNat
  have lt := n.toNat_lt
  rw [toNat_toUInt64_toFloat]
  omega

/-- Filters reduce the rows of a table as a double counts them. That is the exact count if it has no
bits beyond the first 53, in particular if it is at most `2 ^ 53`, and else is off by no more than
one part in `2 ^ 53`. -/
theorem filtersFrom_nearest (s : Statistics) :
    s.FiltersFrom s.tuples.toFloat.toUInt64 ∧
    (2 ^ (s.tuples.toNat.log2 - 52) ∣ s.tuples.toNat → s.FiltersFrom s.tuples) ∧
    2 ^ 53 * s.tuples.toFloat.toUInt64.toNat ≤ (2 ^ 53 + 1) * s.tuples.toNat ∧
    2 ^ 53 * s.tuples.toNat ≤ 2 ^ 53 * s.tuples.toFloat.toUInt64.toNat + s.tuples.toNat := by
  have unfiltered : Inputs.isFraction 1 = true := by decide +kernel
  have nearest : s.FiltersFrom s.tuples.toFloat.toUInt64 := by
    refine ⟨?le, filteredRows_of_one, filteredRows_of_zero, filteredRows_mono⟩
    case le =>
      intro f fraction
      rw [← filteredRows_of_one unfiltered (by decide +kernel)]
      exact filteredRows_mono fraction unfiltered (bounds_of_isFraction fraction).2.1
  refine ⟨nearest, ?_, toUInt64_toFloat_near s.tuples⟩
  intro dvd
  exact toUInt64_toFloat_of_dvd dvd ▸ nearest

/-- A table whose count of rows has more than 53 bits. -/
def longTable (extra : Rows) : Statistics := { tuples := 2 ^ 53 + extra, pages := 1 }

/-- The third row makes the count of rows odd, so a double counts a fourth one. -/
theorem longTable_filtersFrom :
    (2 ^ ((longTable 2).tuples.toNat.log2 - 52) ∣ (longTable 2).tuples.toNat ∧
      (longTable 2).FiltersFrom (2 ^ 53 + 2)) ∧
    (longTable 3).FiltersFrom (2 ^ 53 + 4) := by
  have dvd : 2 ^ ((longTable 2).tuples.toNat.log2 - 52) ∣ (longTable 2).tuples.toNat := by
    decide +kernel
  have rounded : (longTable 3).tuples.toFloat.toUInt64 = 2 ^ 53 + 4 := by decide +kernel
  exact ⟨⟨dvd, (filtersFrom_nearest (longTable 2)).2.1 dvd⟩,
    rounded ▸ (filtersFrom_nearest (longTable 3)).1⟩

/-- Filters that pass everything may yield more rows than the table has. -/
theorem not_filtersFrom_tuples : ¬∀ s : Statistics, s.FiltersFrom s.tuples := by
  intro reduced
  have le := (reduced (longTable 3)).le (f := 1) (by decide +kernel)
  exact absurd le (by decide +kernel)

end LeftDeep.Statistics
