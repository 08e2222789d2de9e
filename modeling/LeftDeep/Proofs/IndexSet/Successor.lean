import LeftDeep.IndexSet.Subsets
import LeftDeep.Proofs.IndexSet.Members
import Mathlib.Tactic.Ring

/-!
# The next number with equally many ones

A positive number ends in a run of ones followed by zeros. Carrying the run into the zero above it
and dropping the rest of the run to the bottom gives the least larger number with equally many
ones. The mask arithmetic of an enumeration computes that number.

## Main definitions

* `weight`: the number of ones of a natural number.
* `run` and `advance`: a number by its lowest run of ones, and the number after it.

## Main statements

* `advance_le`: no number of the same weight lies between a number and the one after it.
* `successor?_of_run`: the mask arithmetic gives the number after a mask, within its limits.
-/

namespace LeftDeep.Subsets

/-! ## Ones of a number -/

/-- The number of ones of a natural number in binary. -/
def weight (n : ℕ) : ℕ := n.bitIndices.length

@[simp] theorem weight_zero : weight 0 = 0 := by simp [weight]

@[simp] theorem weight_two_mul (n : ℕ) : weight (2 * n) = weight n := by simp [weight]

@[simp] theorem weight_two_mul_add_one (n : ℕ) : weight (2 * n + 1) = weight n + 1 := by
  simp [weight]

/-- The size of a set is the number of ones of its mask. -/
theorem size_eq_weight (s : IndexSet) : s.size = weight s.bits.toNat := by
  rw [IndexSet.size_eq_length, IndexSet.toList_eq, weight]

/-- Ones above and below a position are counted apart. -/
theorem weight_two_pow_mul_add (j a b : ℕ) (h : b < 2 ^ j) :
    weight (2 ^ j * a + b) = weight a + weight b := by
  induction j generalizing b with
  | zero =>
    obtain rfl : b = 0 := by simpa using h
    simp
  | succ j ih =>
    obtain ⟨c, rfl | rfl⟩ := Nat.even_or_odd' b
    · have even : 2 ^ (j + 1) * a + 2 * c = 2 * (2 ^ j * a + c) := by ring
      rw [even, weight_two_mul, weight_two_mul, ih c (by omega)]
    · have odd : 2 ^ (j + 1) * a + (2 * c + 1) = 2 * (2 ^ j * a + c) + 1 := by ring
      rw [odd, weight_two_mul_add_one, weight_two_mul_add_one, ih c (by omega), Nat.add_assoc]

/-- No number of a weight is smaller than the one whose ones are at the bottom. -/
theorem two_pow_weight_le (n : ℕ) : 2 ^ weight n ≤ n + 1 := by
  induction n using Nat.binaryRec with
  | zero => simp
  | bit b n ih =>
    cases b with
    | false =>
      rw [Nat.bit_false_apply, weight_two_mul]
      omega
    | true =>
      rw [Nat.bit_true_apply, weight_two_mul_add_one, pow_succ]
      omega

/-- No number of a weight below a power of two is larger than the one whose ones are at the top. -/
theorem add_two_pow_le (m n : ℕ) (h : n < 2 ^ m) :
    weight n ≤ m ∧ n + 2 ^ (m - weight n) ≤ 2 ^ m := by
  induction m generalizing n with
  | zero =>
    obtain rfl : n = 0 := by simpa using h
    simp
  | succ m ih =>
    obtain ⟨c, rfl | rfl⟩ := Nat.even_or_odd' n
    · obtain ⟨le, bound⟩ := ih c (by omega)
      have zeros : m + 1 - weight c = (m - weight c) + 1 := by omega
      rw [weight_two_mul, zeros, pow_succ, pow_succ]
      omega
    · obtain ⟨le, bound⟩ := ih c (by omega)
      have pos := Nat.two_pow_pos (m - weight c)
      have zeros : m + 1 - (weight c + 1) = m - weight c := by omega
      rw [weight_two_mul_add_one, zeros, pow_succ]
      omega

theorem weight_two_pow_sub_one (t : ℕ) : weight (2 ^ t - 1) = t := by
  induction t with
  | zero => simp
  | succ t ih =>
    have pos := Nat.two_pow_pos t
    have odd : 2 ^ (t + 1) - 1 = 2 * (2 ^ t - 1) + 1 := by
      rw [pow_succ]
      omega
    rw [odd, weight_two_mul_add_one, ih]

theorem weight_two_pow_mul (z n : ℕ) : weight (2 ^ z * n) = weight n := by
  simpa using weight_two_pow_mul_add z n 0 (Nat.two_pow_pos z)

/-! ## The lowest run of ones -/

/-- The number whose lowest run of ones has length `t + 1` and starts at position `z`, with `a`
above the zero that ends the run. -/
def run (a z t : ℕ) : ℕ := 2 ^ (z + t + 2) * a + (2 ^ (t + 1) - 1) * 2 ^ z

/-- The number after `run a z t` with equally many ones. -/
def advance (a z t : ℕ) : ℕ := 2 ^ (z + t + 2) * a + 2 ^ (z + t + 1) + (2 ^ t - 1)

theorem exists_run_of_odd (n : ℕ) : ∃ a t, 2 * n + 1 = run a 0 t := by
  induction n using Nat.strong_induction_on with
  | _ n ih =>
    obtain ⟨c, rfl | rfl⟩ := Nat.even_or_odd' n
    · exact ⟨c, 0, by simp [run]; ring⟩
    · obtain ⟨a, t, h⟩ := ih c (by omega)
      have pos := Nat.two_pow_pos (t + 1)
      have high : 2 ^ (t + 1 + 2) * a = 2 * (2 ^ (t + 2) * a) := by ring
      refine ⟨a, t + 1, ?_⟩
      simp only [run, Nat.zero_add, pow_zero, Nat.mul_one] at h ⊢
      rw [h, high, pow_succ 2 (t + 1)]
      omega

/-- Every positive number ends in a run of ones followed by zeros. -/
theorem exists_run {n : ℕ} (h : n ≠ 0) : ∃ a z t, n = run a z t := by
  obtain ⟨z, m, ⟨q, rfl⟩, rfl⟩ := Nat.exists_eq_two_pow_mul_odd h
  obtain ⟨a, t, eq⟩ := exists_run_of_odd q
  have high : z + t + 2 = z + (t + 2) := by omega
  refine ⟨a, z, t, ?_⟩
  rw [eq, run, run]
  simp only [Nat.zero_add, pow_zero, Nat.mul_one, Nat.mul_add]
  rw [high, pow_add]
  ring

theorem run_add_two_pow (a z t : ℕ) :
    run a z t + 2 ^ z = 2 ^ (z + t + 2) * a + 2 ^ (z + t + 1) := by
  have pos := Nat.two_pow_pos (t + 1)
  have le := Nat.le_mul_of_pos_left (2 ^ z) pos
  have carry : z + t + 1 = (t + 1) + z := by omega
  rw [run, Nat.sub_mul, Nat.one_mul, carry, pow_add 2 (t + 1) z]
  omega

theorem run_eq_odd (a z t : ℕ) :
    run a z t = 2 ^ z * (2 * (2 ^ (t + 1) * a + (2 ^ t - 1)) + 1) := by
  have pos := Nat.two_pow_pos t
  have odd : 2 ^ (t + 1) - 1 = 2 * (2 ^ t - 1) + 1 := by
    rw [pow_succ]
    omega
  have high : z + t + 2 = z + (t + 2) := by omega
  rw [run, odd, high, pow_add 2 z]
  ring

theorem run_low_lt (z t : ℕ) : (2 ^ (t + 1) - 1) * 2 ^ z < 2 ^ (z + t + 2) := by
  have pos := Nat.two_pow_pos z
  have pos' := Nat.two_pow_pos (t + 1)
  calc (2 ^ (t + 1) - 1) * 2 ^ z
      < 2 ^ (t + 1) * 2 ^ z := Nat.mul_lt_mul_of_pos_right (by omega) pos
    _ = 2 ^ (z + t + 1) := by rw [← pow_add]; congr 1; omega
    _ ≤ 2 ^ (z + t + 2) := Nat.pow_le_pow_right (by decide) (by omega)

theorem advance_low_lt (z t : ℕ) : 2 ^ t - 1 < 2 ^ (z + t + 1) :=
  lt_of_lt_of_le (Nat.sub_lt (Nat.two_pow_pos t) Nat.one_pos)
    (Nat.pow_le_pow_right (by decide) (by omega))

theorem weight_run (a z t : ℕ) : weight (run a z t) = weight a + (t + 1) := by
  rw [run, weight_two_pow_mul_add _ _ _ (run_low_lt z t), Nat.mul_comm _ (2 ^ z),
    weight_two_pow_mul, weight_two_pow_sub_one]

theorem advance_eq (a z t : ℕ) :
    advance a z t = 2 ^ (z + t + 1) * (2 * a + 1) + (2 ^ t - 1) := by
  have high : z + t + 2 = (z + t + 1) + 1 := by omega
  rw [advance, high, pow_succ]
  ring

theorem weight_advance (a z t : ℕ) : weight (advance a z t) = weight (run a z t) := by
  rw [advance_eq, weight_two_pow_mul_add _ _ _ (advance_low_lt z t), weight_two_mul_add_one,
    weight_two_pow_sub_one, weight_run]
  omega

theorem run_lt_advance (a z t : ℕ) : run a z t < advance a z t := by
  have pos := Nat.two_pow_pos z
  have sum := run_add_two_pow a z t
  rw [advance]
  omega

/-- No number between a mask and its successor has equally many ones. -/
theorem advance_le {a z t y : ℕ} (lt : run a z t < y) (eq : weight y = weight (run a z t)) :
    advance a z t ≤ y := by
  have pos := Nat.two_pow_pos (z + t + 2)
  have half : 2 ^ (z + t + 2) = 2 * 2 ^ (z + t + 1) := by rw [pow_succ]; ring
  have small := advance_low_lt z t
  -- `y` splits at the position above the run into `b` and a remainder `r`.
  obtain ⟨b, r, hr, rfl⟩ : ∃ b r, r < 2 ^ (z + t + 2) ∧ y = 2 ^ (z + t + 2) * b + r :=
    ⟨y / 2 ^ (z + t + 2), y % 2 ^ (z + t + 2), Nat.mod_lt _ pos, (Nat.div_add_mod _ _).symm⟩
  rw [run] at lt
  rw [advance]
  rcases Nat.lt_trichotomy b a with hb | rfl | hb
  · have above : 2 ^ (z + t + 2) * (b + 1) ≤ 2 ^ (z + t + 2) * a := Nat.mul_le_mul_left _ hb
    rw [Nat.mul_add, Nat.mul_one] at above
    omega
  · have wr : weight r = t + 1 := by
      rw [weight_two_pow_mul_add _ _ _ hr, weight_run] at eq
      omega
    by_cases low : r < 2 ^ (z + t + 1)
    · -- The run is the largest remainder of its weight below its end.
      obtain ⟨-, bound⟩ := add_two_pow_le (z + t + 1) r low
      have sum := run_add_two_pow b z t
      have zeros : z + t + 1 - (t + 1) = z := by omega
      rw [wr, zeros] at bound
      rw [run] at sum
      omega
    · have split : weight (r - 2 ^ (z + t + 1)) = t := by
        have parts := weight_two_pow_mul_add (z + t + 1) 1 (r - 2 ^ (z + t + 1)) (by omega)
        have whole : 2 ^ (z + t + 1) + (r - 2 ^ (z + t + 1)) = r := by omega
        have one : weight 1 = 1 := by simpa using weight_two_mul_add_one 0
        rw [Nat.mul_one, whole, wr] at parts
        omega
      have least := two_pow_weight_le (r - 2 ^ (z + t + 1))
      rw [split] at least
      omega
  · have below : 2 ^ (z + t + 2) * (a + 1) ≤ 2 ^ (z + t + 2) * b := Nat.mul_le_mul_left _ hb
    rw [Nat.mul_add, Nat.mul_one] at below
    omega

/-! ## The successor of a mask -/

/-- A number and the sum that carries its lowest run differ in the run and the zero above it. -/
theorem run_xor (a z t : ℕ) :
    run a z t ^^^ (run a z t + 2 ^ z) = (2 ^ (t + 2) - 1) * 2 ^ z := by
  have low := run_low_lt z t
  have carry : 2 ^ (z + t + 1) < 2 ^ (z + t + 2) := Nat.pow_lt_pow_right (by decide) (by omega)
  rw [run_add_two_pow, run, Nat.mul_comm (2 ^ (t + 2) - 1)]
  apply Nat.eq_of_testBit_eq
  intro i
  rw [Nat.testBit_xor, Nat.testBit_two_pow_mul_add _ low, Nat.testBit_two_pow_mul_add _ carry,
    Nat.mul_comm (2 ^ (t + 1) - 1), Nat.testBit_two_pow_mul, Nat.testBit_two_pow_mul,
    Nat.testBit_two_pow_sub_one, Nat.testBit_two_pow_sub_one, Nat.testBit_two_pow]
  by_cases inside : i < z + t + 2
  · rw [if_pos inside, if_pos inside]
    by_cases above : z ≤ i
    · have lower : i - z < t + 2 := by omega
      simp only [above, decide_true, Bool.true_and, lower]
      by_cases top : z + t + 1 = i
      · have notInRun : ¬i - z < t + 1 := by omega
        simp [top, notInRun]
      · have inRun : i - z < t + 1 := by omega
        simp [top, inRun]
    · have notTop : ¬z + t + 1 = i := by omega
      simp [above, notTop]
  · have outside : ¬i - z < t + 2 := by omega
    rw [if_neg inside, if_neg inside, Bool.xor_self]
    simp [outside]

/-- Shifting and dividing leaves the run without its two highest ones, at the bottom. -/
theorem dropped_eq (z t : ℕ) : ((2 ^ (t + 2) - 1) * 2 ^ z) >>> 2 / 2 ^ z = 2 ^ t - 1 := by
  have pos := Nat.two_pow_pos z
  have pos' := Nat.two_pow_pos t
  rw [Nat.shiftRight_eq_div_pow, Nat.div_div_eq_div_mul, Nat.mul_comm (2 ^ 2),
    ← Nat.div_div_eq_div_mul, Nat.mul_div_cancel _ pos, pow_add 2 t 2]
  omega

theorem carried_or_dropped (a z t : ℕ) :
    (run a z t + 2 ^ z) ||| (2 ^ t - 1) = advance a z t := by
  have carried : run a z t + 2 ^ z = 2 ^ (z + t + 1) * (2 * a + 1) := by
    have high : z + t + 2 = (z + t + 1) + 1 := by omega
    rw [run_add_two_pow, high, pow_succ]
    ring
  rw [advance_eq, carried, Nat.two_pow_add_eq_or_of_lt (advance_low_lt z t)]

/-- The mask arithmetic gives the number after a mask if that fits into 64 bits and the limit. -/
theorem successor?_of_run {limit mask : UInt64} {a z t : ℕ} (h : mask.toNat = run a z t) :
    successor? limit mask =
      if advance a z t < 2 ^ 64 ∧ UInt64.ofNat (advance a z t) &&& ~~~limit = 0 then
        some (UInt64.ofNat (advance a z t))
      else none := by
  have pos := Nat.two_pow_pos z
  have lt := mask.toNat_lt
  have odd := h.trans (run_eq_odd a z t)
  have ne : mask ≠ 0 := by
    rintro rfl
    exact absurd odd.symm (Nat.mul_ne_zero (Nat.two_pow_pos z).ne' (Nat.succ_ne_zero _))
  have low : (IndexSet.lowestBit mask).toNat = 2 ^ z := IndexSet.toNat_lowestBit odd
  have low_lt : 2 ^ z < 2 ^ 64 := low ▸ (IndexSet.lowestBit mask).toNat_lt
  have sum : (mask + IndexSet.lowestBit mask).toNat = (run a z t + 2 ^ z) % 2 ^ 64 := by
    rw [UInt64.toNat_add, low, h]
  have adv := carried_or_dropped a z t
  have carried_le : run a z t + 2 ^ z ≤ advance a z t := adv ▸ Nat.left_le_or
  rw [successor?, if_neg ne]
  simp only [UInt64.lt_iff_toNat_lt, sum, h]
  by_cases fits : run a z t + 2 ^ z < 2 ^ 64
  · rw [Nat.mod_eq_of_lt fits] at sum ⊢
    have dropped : ((mask ^^^ (mask + IndexSet.lowestBit mask)) >>> 2 /
        IndexSet.lowestBit mask).toNat = 2 ^ t - 1 := by
      rw [UInt64.toNat_div, UInt64.toNat_shiftRight, UInt64.toNat_xor, sum, low, h, run_xor]
      exact dropped_eq z t
    have small : advance a z t < 2 ^ 64 := by
      rw [← adv]
      exact Nat.or_lt_two_pow fits (dropped ▸ UInt64.toNat_lt _)
    have candidate : (mask + IndexSet.lowestBit mask) |||
        ((mask ^^^ (mask + IndexSet.lowestBit mask)) >>> 2 / IndexSet.lowestBit mask) =
        UInt64.ofNat (advance a z t) := by
      rw [← UInt64.toNat_inj, UInt64.toNat_or, sum, dropped, adv,
        UInt64.toNat_ofNat_of_lt' small]
    rw [if_pos (by omega), candidate]
    simp only [small, true_and]
  · have wrapped : (run a z t + 2 ^ z) % 2 ^ 64 = run a z t + 2 ^ z - 2 ^ 64 := by
      rw [Nat.mod_eq_sub_mod (by omega), Nat.mod_eq_of_lt (by omega)]
    rw [wrapped, if_neg (by omega), if_neg (by omega)]

end LeftDeep.Subsets
