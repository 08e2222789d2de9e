import Mathlib.Data.Finset.Basic
import LeftDeep.Proofs.IndexSet.Members

/-!
# Masks as sets

Every set of indexes within the capacity is that of exactly one mask, so a mask can stand for the
set. The members are read off a mask by a walk that takes the lowest one off in each step. The index
of that one is the number of zeros below it, and there are as many steps as the mask has ones.

## Main definitions

* `IndexSet.IsFaithful`: how the operations on a mask act on the members.

## Main statements

* `IndexSet.bitIndexes_iterate`: what the walk still has to list after some of its steps.
* `IndexSet.iterate_clearLowest_eq_zero_iff`: when the walk ends.
* `IndexSet.existsUnique_contains_iff`: a set of indexes has exactly one mask.
* `IndexSet.represents`: masks represent the sets of indexes within the capacity.
-/

namespace LeftDeep.IndexSet

variable {mask : UInt64} {n : ℕ}

/-! ## Counting bits -/

/-- The position of the lowest one is the number of zeros below it. -/
theorem log2_lowestBit (h : mask ≠ 0) :
    (lowestBit mask).toNat.log2 = mask.toBitVec.ctz.toNat := by
  have ne : mask.toNat ≠ 0 := by
    intro zero
    exact h (UInt64.toNat_inj.1 zero)
  obtain ⟨z, m, ⟨q, rfl⟩, eq⟩ := Nat.exists_eq_two_pow_mul_odd ne
  rw [toNat_lowestBit eq, Nat.log2_two_pow]
  have bits (i : ℕ) :
      mask.toBitVec.getLsbD i = (decide (z ≤ i) && (2 * q + 1).testBit (i - z)) := by
    rw [← Nat.testBit_two_pow_mul, ← eq]
    rfl
  have one : mask.toBitVec.getLsbD z = true := by
    rw [bits z, Nat.sub_self, Nat.testBit_zero]
    simp
  rcases lt_trichotomy z mask.toBitVec.ctz.toNat with lt | same | gt
  · rw [BitVec.getLsbD_false_of_lt_ctz lt] at one
    exact absurd one Bool.false_ne_true
  · exact same
  · have ne' : mask.toBitVec ≠ 0#64 := by
      intro zero
      exact h (UInt64.toBitVec_inj.1 zero)
    have lowest := BitVec.getLsbD_true_ctz_of_ne_zero ne'
    rw [bits, decide_eq_false (Nat.not_le.2 gt), Bool.false_and] at lowest
    exact absurd lowest Bool.false_ne_true

theorem cpopNatRec_eq_countP (x : BitVec 64) (n acc : ℕ) :
    x.cpopNatRec n acc = acc + (List.range n).countP x.getLsbD := by
  induction n generalizing acc with
  | zero => simp
  | succ n ih =>
    rw [BitVec.cpopNatRec_succ, ih, List.range_succ, List.countP_append, List.countP_singleton,
      Nat.add_right_comm, Nat.add_assoc acc]
    cases x.getLsbD n <;> rfl

/-- A set has as many members as its mask has ones. -/
theorem size_eq_cpop (s : IndexSet) : s.size = s.bits.toBitVec.cpop.toNat := by
  rw [BitVec.toNat_cpop, cpopNatRec_eq_countP, Nat.zero_add, size]
  apply List.countP_congr
  intro i _
  rw [contains_eq_testBit]
  rfl

/-! ## The walk over the members -/

theorem bitIndexes_eq_nil_iff : bitIndexes mask = [] ↔ mask = 0 := by
  rw [bitIndexes]
  split
  · next zero => exact iff_of_true rfl zero
  · next nonzero => exact iff_of_false (List.cons_ne_nil _ _) nonzero

/-- A step takes the lowest member off. -/
theorem bitIndexes_clearLowest (mask : UInt64) :
    bitIndexes (clearLowest mask) = (bitIndexes mask).tail := by
  by_cases zero : mask = 0
  · have none : bitIndexes 0 = [] := bitIndexes_eq_nil_iff.2 rfl
    have cleared : clearLowest 0 = 0 := rfl
    rw [zero, cleared, none, List.tail_nil]
  · rw [bitIndexes.eq_def mask, dif_neg zero, List.tail_cons]

/-- After some of its steps, the walk has still to list the members that it has not listed. -/
theorem bitIndexes_iterate (mask : UInt64) (k : ℕ) :
    bitIndexes (clearLowest^[k] mask) = (bitIndexes mask).drop k := by
  induction k with
  | zero => rfl
  | succ k ih => rw [Function.iterate_succ_apply', bitIndexes_clearLowest, ih, List.tail_drop]

/-- The walk ends after one step for each member. -/
theorem iterate_clearLowest_eq_zero_iff (s : IndexSet) (k : ℕ) :
    clearLowest^[k] s.bits = 0 ↔ s.size ≤ k := by
  rw [← bitIndexes_eq_nil_iff, bitIndexes_iterate, List.drop_eq_nil_iff, size_eq_length, toList]

/-! ## Sets of indexes and their masks -/

theorem exists_contains_iff {members : Finset ℕ} (h : ∀ i ∈ members, i < capacity) :
    ∃ s : IndexSet, ∀ i, s.contains i = true ↔ i ∈ members := by
  refine ⟨ofList members.toList, ?_⟩
  intro i
  rw [contains_ofList fun j mem => h j (Finset.mem_toList.1 mem), decide_eq_true_iff,
    Finset.mem_toList]

/-- A set of indexes within the capacity has exactly one mask. -/
theorem existsUnique_contains_iff {members : Finset ℕ} (h : ∀ i ∈ members, i < capacity) :
    ∃! s : IndexSet, ∀ i, s.contains i = true ↔ i ∈ members := by
  obtain ⟨s, same⟩ := exists_contains_iff h
  refine ⟨s, same, ?_⟩
  intro t same'
  apply ext_contains
  intro i
  rw [Bool.eq_iff_iff, same i, same' i]

/-- Inserting the members one after another gives the set again. -/
theorem foldl_insert_toList (s : IndexSet) : s.toList.foldl insert ∅ = s := by
  rw [List.foldl_eq_foldr_reverse]
  exact ofList_eq_of_perm (List.reverse_perm s.toList)

theorem contains_insert_iff (s : IndexSet) (i j : ℕ) :
    (s.insert i).contains j = true ↔ s.contains j = true ∨ j = i ∧ i < capacity := by
  rw [contains_insert, Bool.or_eq_true, decide_eq_true_iff, @eq_comm _ i]

theorem contains_erase_iff (s : IndexSet) (i j : ℕ) :
    (s.erase i).contains j = true ↔ s.contains j = true ∧ j ≠ i := by
  rw [contains_erase, Bool.and_eq_true, decide_eq_true_iff, ne_comm]

theorem insert_of_capacity_le (s : IndexSet) {i : ℕ} (h : capacity ≤ i) : s.insert i = s := by
  apply ext_contains
  intro j
  rw [Bool.eq_iff_iff, contains_insert_iff]
  simp [Nat.not_lt.2 h]

theorem erase_of_capacity_le (s : IndexSet) {i : ℕ} (h : capacity ≤ i) : s.erase i = s := by
  apply ext_contains
  intro j
  rw [Bool.eq_iff_iff, contains_erase_iff, and_iff_left_iff_imp]
  rintro mem rfl
  exact absurd (lt_capacity_of_contains mem) (Nat.not_lt.2 h)

/-- The operations on a mask act on the members as they should: walking over them, counting them,
adding and removing one, and comparing sets. -/
structure IsFaithful (s : IndexSet) : Prop where
  /-- No index past the capacity is a member. -/
  lt_capacity : ∀ i, s.contains i = true → i < capacity
  /-- The walk lists the members and nothing else. -/
  mem_toList : ∀ i, i ∈ s.toList ↔ i < capacity ∧ s.contains i = true
  ascending : s.toList.Pairwise (· < ·)
  /-- A step lists the number of zeros below the lowest one, and takes this one off. -/
  step : s.bits ≠ 0 →
    s.toList = s.bits.toBitVec.ctz.toNat :: (IndexSet.mk (s.bits &&& (s.bits - 1))).toList
  /-- The walk ends after one step for each member. -/
  ends : ∀ k, clearLowest^[k] s.bits = 0 ↔ s.size ≤ k
  size_eq_length : s.size = s.toList.length
  size_eq_cpop : s.size = s.bits.toBitVec.cpop.toNat
  isEmpty_iff : s.isEmpty = true ↔ s.toList = []
  contains_insert : ∀ i j, (s.insert i).contains j = true ↔
    s.contains j = true ∨ j = i ∧ i < capacity
  contains_erase : ∀ i j, (s.erase i).contains j = true ↔ s.contains j = true ∧ j ≠ i
  /-- An index past the capacity is neither added nor removed. -/
  outside : ∀ i, capacity ≤ i → s.insert i = s ∧ s.erase i = s
  foldl_insert : s.toList.foldl insert ∅ = s
  eq_iff : ∀ t : IndexSet, s = t ↔ ∀ i, s.contains i = t.contains i

theorem isFaithful (s : IndexSet) : s.IsFaithful where
  lt_capacity i := lt_capacity_of_contains
  mem_toList i := by
    rw [IndexSet.mem_toList]
    exact ⟨fun mem => ⟨lt_capacity_of_contains mem, mem⟩, And.right⟩
  ascending := s.pairwise_toList
  step nonzero := by
    rw [toList, bitIndexes, dif_neg nonzero, log2_lowestBit nonzero]
    rfl
  ends := iterate_clearLowest_eq_zero_iff s
  size_eq_length := s.size_eq_length
  size_eq_cpop := s.size_eq_cpop
  isEmpty_iff := s.toList_eq_nil_iff.symm
  contains_insert := contains_insert_iff s
  contains_erase := contains_erase_iff s
  outside i h := ⟨insert_of_capacity_le s h, erase_of_capacity_le s h⟩
  foldl_insert := foldl_insert_toList s
  eq_iff t := ⟨fun eq _ => eq ▸ rfl, ext_contains⟩

/-- Masks represent the sets of indexes within the capacity. Each such set has exactly one mask, the
operations on masks act on the members, and all indexes below a bound within the capacity are a
set. -/
theorem represents :
    (∀ s : IndexSet, s.IsFaithful) ∧
    (∀ members : Finset ℕ, (∀ i ∈ members, i < capacity) →
      ∃! s : IndexSet, ∀ i, s.contains i = true ↔ i ∈ members) ∧
    ∀ n, n ≤ capacity → ∃ s, below n = .ok s ∧ ∀ i, s.contains i = true ↔ i < n := by
  refine ⟨isFaithful, fun _ => existsUnique_contains_iff, ?_⟩
  intro n le
  refine ⟨⟨maskBelow n⟩, if_pos le, ?_⟩
  intro i
  rw [contains_maskBelow le, decide_eq_true_iff]

/-- The set of the least and the largest index, and the set of all of them. -/
theorem represents_ends :
    (∀ i ∈ ({0, 63} : Finset ℕ), i < capacity) ∧ 64 ≤ capacity ∧
      (∃! s : IndexSet, ∀ i, s.contains i = true ↔ i ∈ ({0, 63} : Finset ℕ)) ∧
      ∃ s, below 64 = .ok s ∧ ∀ i, s.contains i = true ↔ i < 64 := by
  have small : ∀ i ∈ ({0, 63} : Finset ℕ), i < capacity := by decide
  have le : 64 ≤ capacity := by decide
  exact ⟨small, le, represents.2.1 _ small, represents.2.2 64 le⟩

end LeftDeep.IndexSet
