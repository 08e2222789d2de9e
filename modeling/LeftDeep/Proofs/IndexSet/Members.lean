import LeftDeep.IndexSet.Basic
import Mathlib.Data.Nat.BitIndices
import Mathlib.Data.Nat.Bitwise
import Mathlib.Data.Nat.Factorization.Basic

/-!
# The members of an index set

A mask and the indexes it stands for. Membership is a bit of the mask as a natural number, so two
sets with the same members are equal, and the list of members is the sorted list of the set bits.

## Main statements

* `IndexSet.contains_iff`, `IndexSet.ext_contains`: membership decides a set.
* `IndexSet.toList_eq`: the members in ascending order are the positions of the set bits.
* `IndexSet.size_eq_length`: the number of members is the length of that list.
-/

namespace LeftDeep.IndexSet

/-! ## Membership -/

theorem toNat_bit (i : ℕ) : (bit i).toNat = if i < capacity then 2 ^ i else 0 := by
  rw [bit]
  by_cases h : i < capacity
  · rw [if_pos h, if_pos h]
    have small : i < 2 ^ 64 := lt_of_lt_of_le h (by decide)
    have lt : 2 ^ i < 2 ^ 64 := Nat.pow_lt_pow_right (by decide) h
    have shift : i.toUInt64.toNat % 64 = i := by
      rw [Nat.toUInt64_eq, UInt64.toNat_ofNat', Nat.mod_eq_of_lt small]
      exact Nat.mod_eq_of_lt h
    rw [UInt64.toNat_shiftLeft, shift]
    simpa [Nat.shiftLeft_eq] using lt
  · rw [if_neg h, if_neg h]
    rfl

theorem testBit_of_capacity_le (mask : UInt64) {i : ℕ} (h : capacity ≤ i) :
    mask.toNat.testBit i = false :=
  Nat.testBit_lt_two_pow (lt_of_lt_of_le mask.toNat_lt (Nat.pow_le_pow_right (by decide) h))

/-- An index is a member when its bit of the mask is set. -/
theorem contains_eq_testBit (s : IndexSet) (i : ℕ) : s.contains i = s.bits.toNat.testBit i := by
  have h : (s.bits &&& bit i = 0) ↔ s.bits.toNat.testBit i = false := by
    rw [← UInt64.toNat_inj, UInt64.toNat_and, toNat_bit]
    split
    · rw [Nat.and_two_pow]
      cases s.bits.toNat.testBit i <;> simp
    · next hi => simp [testBit_of_capacity_le s.bits (Nat.le_of_not_lt hi)]
  rw [contains]
  cases hb : s.bits.toNat.testBit i <;> simp [h, hb]

theorem contains_iff (s : IndexSet) (i : ℕ) :
    s.contains i = true ↔ s.bits.toNat.testBit i = true := by
  rw [contains_eq_testBit]

theorem lt_capacity_of_contains {s : IndexSet} {i : ℕ} (h : s.contains i = true) :
    i < capacity := by
  by_contra hi
  rw [contains_iff, testBit_of_capacity_le s.bits (Nat.le_of_not_lt hi)] at h
  exact Bool.noConfusion h

/-- Sets with the same members are equal. -/
theorem ext_contains {s t : IndexSet} (h : ∀ i, s.contains i = t.contains i) : s = t := by
  have same : s.bits.toNat = t.bits.toNat := by
    apply Nat.eq_of_testBit_eq
    intro i
    rw [← contains_eq_testBit, ← contains_eq_testBit, h i]
  cases s
  cases t
  exact congrArg IndexSet.mk (UInt64.toNat_inj.1 same)

@[simp] theorem contains_empty (i : ℕ) : (empty : IndexSet).contains i = false := by
  simp [contains_eq_testBit, empty]

theorem contains_insert (s : IndexSet) (i j : ℕ) :
    (s.insert i).contains j = (s.contains j || decide (i = j ∧ i < capacity)) := by
  simp only [contains_eq_testBit, insert, UInt64.toNat_or, Nat.testBit_or, toNat_bit]
  split
  · next h => simp [Nat.testBit_two_pow, h]
  · next h => simp [h]

theorem contains_erase (s : IndexSet) (i j : ℕ) :
    (s.erase i).contains j = (s.contains j && decide (i ≠ j)) := by
  by_cases hj : j < capacity
  · have lt : (bit i).toNat < 2 ^ 64 := (bit i).toNat_lt
    have flipped : UInt64.size - 1 - (bit i).toNat = 2 ^ 64 - ((bit i).toNat + 1) := by
      simp only [UInt64.size]
      omega
    have small : j < 64 := hj
    have not : (~~~ bit i).toNat.testBit j = !(bit i).toNat.testBit j := by
      rw [UInt64.toNat_not, flipped, Nat.testBit_two_pow_sub_succ lt]
      simp [small]
    rw [contains_eq_testBit, contains_eq_testBit, erase, UInt64.toNat_and, Nat.testBit_and, not,
      toNat_bit]
    by_cases hi : i < capacity
    · simp [hi, Nat.testBit_two_pow]
    · have ne : i ≠ j := by omega
      simp [hi, ne]
  · simp [contains_eq_testBit, testBit_of_capacity_le _ (Nat.le_of_not_lt hj)]

theorem isEmpty_iff (s : IndexSet) : s.isEmpty = true ↔ s = empty := by
  obtain ⟨bits⟩ := s
  simp [isEmpty, empty]

/-- A set is empty when it has no members. -/
theorem isEmpty_eq_false_iff (s : IndexSet) :
    s.isEmpty = false ↔ ∃ i, s.contains i = true := by
  constructor
  · intro h
    by_contra none
    have eq : s = empty := by
      apply ext_contains
      intro i
      rw [contains_empty, Bool.eq_false_iff]
      intro hi
      exact none ⟨i, hi⟩
    rw [(isEmpty_iff s).2 eq] at h
    exact Bool.noConfusion h
  · rintro ⟨i, hi⟩
    rw [Bool.eq_false_iff]
    intro h
    rw [(isEmpty_iff s).1 h, contains_empty] at hi
    exact Bool.noConfusion hi

/-- The lowest `n` bits are those below `n`. -/
theorem toNat_maskBelow {n : ℕ} (h : n ≤ capacity) : (maskBelow n).toNat = 2 ^ n - 1 := by
  rw [maskBelow]
  by_cases lt : n < capacity
  · rw [if_pos lt]
    have bit_eq : (1 <<< n.toUInt64 : UInt64) = bit n := by simp [bit, lt]
    have value : (bit n).toNat = 2 ^ n := by simp [toNat_bit, lt]
    have pos : 0 < 2 ^ n := Nat.two_pow_pos n
    rw [bit_eq, UInt64.toNat_sub_of_le _ _ (UInt64.le_iff_toNat_le.2 (by rw [value]; exact pos)),
      value]
    rfl
  · obtain rfl : n = capacity := le_antisymm h (Nat.le_of_not_lt lt)
    decide

/-- The set of all indexes below `n` has exactly these members. -/
theorem contains_maskBelow {n : ℕ} (h : n ≤ capacity) (i : ℕ) :
    (IndexSet.mk (maskBelow n)).contains i = decide (i < n) := by
  rw [contains_eq_testBit, toNat_maskBelow h, Nat.testBit_two_pow_sub_one]

/-! ## The members in order -/

/-- Clearing the lowest of the set bits, in terms of the odd part of a mask. -/
theorem and_pred_of_odd (z q : ℕ) :
    (2 ^ z * (2 * q + 1)) &&& (2 ^ z * (2 * q + 1) - 1) = 2 ^ z * (2 * q) := by
  have pos : 0 < 2 ^ z := Nat.two_pow_pos z
  have pred : 2 ^ z * (2 * q + 1) - 1 = 2 ^ z * (2 * q) + (2 ^ z - 1) := by
    rw [Nat.mul_add, Nat.mul_one]
    omega
  rw [pred]
  apply Nat.eq_of_testBit_eq
  intro i
  rw [Nat.testBit_and, Nat.testBit_two_pow_mul, Nat.testBit_two_pow_mul,
    Nat.testBit_two_pow_mul_add _ (by omega)]
  by_cases hi : i < z
  · simp [Nat.not_le.2 hi]
  · have le : z ≤ i := Nat.le_of_not_lt hi
    rw [if_neg hi]
    cases h : i - z with
    | zero => simp [Nat.testBit_zero]
    | succ k =>
      have half : (2 * q + 1) / 2 = 2 * q / 2 := by omega
      rw [Nat.testBit_succ, Nat.testBit_succ, half]
      simp [le]

theorem toNat_clearLowest {mask : UInt64} {z q : ℕ} (h : mask.toNat = 2 ^ z * (2 * q + 1)) :
    (clearLowest mask).toNat = 2 ^ z * (2 * q) := by
  have pos : 0 < mask.toNat := by
    rw [h]
    exact Nat.mul_pos (Nat.two_pow_pos z) (Nat.succ_pos _)
  have pred : (mask - 1).toNat = mask.toNat - 1 :=
    UInt64.toNat_sub_of_le _ _ (UInt64.le_iff_toNat_le.2 pos)
  rw [clearLowest, UInt64.toNat_and, pred, h]
  exact and_pred_of_odd z q

theorem toNat_lowestBit {mask : UInt64} {z q : ℕ} (h : mask.toNat = 2 ^ z * (2 * q + 1)) :
    (lowestBit mask).toNat = 2 ^ z := by
  have cleared := toNat_clearLowest h
  have le : clearLowest mask ≤ mask := by
    rw [UInt64.le_iff_toNat_le, cleared, h]
    exact Nat.mul_le_mul_left _ (Nat.le_succ _)
  rw [lowestBit, UInt64.toNat_sub_of_le _ _ le, cleared, h, Nat.mul_add, Nat.mul_one,
    Nat.add_sub_cancel_left]

/-- The listed bits of a mask are the set bits of its value. -/
theorem bitIndexes_eq (mask : UInt64) : bitIndexes mask = mask.toNat.bitIndices := by
  fun_induction bitIndexes mask with
  | case1 => simp
  | case2 mask h ih =>
    have ne : mask.toNat ≠ 0 := by
      intro zero
      exact h (UInt64.toNat_inj.1 zero)
    obtain ⟨z, m, ⟨q, rfl⟩, eq⟩ := Nat.exists_eq_two_pow_mul_odd ne
    rw [ih, toNat_clearLowest eq, toNat_lowestBit eq, Nat.log2_two_pow, eq]
    simp

/-- The members in ascending order are the positions of the set bits. -/
theorem toList_eq (s : IndexSet) : s.toList = s.bits.toNat.bitIndices := bitIndexes_eq s.bits

@[simp] theorem mem_toList {s : IndexSet} {i : ℕ} : i ∈ s.toList ↔ s.contains i = true := by
  rw [toList_eq, Nat.mem_bitIndices, contains_iff]

theorem pairwise_toList (s : IndexSet) : s.toList.Pairwise (· < ·) := by
  rw [toList_eq]
  exact Nat.bitIndices_sorted.pairwise

theorem nodup_toList (s : IndexSet) : s.toList.Nodup :=
  s.pairwise_toList.imp fun h => Nat.ne_of_lt h

/-- The members are the indexes below the capacity that the set contains, in order. -/
theorem toList_eq_filter (s : IndexSet) :
    s.toList = (List.range capacity).filter s.contains := by
  refine List.Perm.eq_of_pairwise' s.pairwise_toList
    (List.pairwise_lt_range.sublist List.filter_sublist) ?_
  rw [List.perm_ext_iff_of_nodup s.nodup_toList (List.nodup_range.sublist List.filter_sublist)]
  intro i
  rw [mem_toList, List.mem_filter, List.mem_range]
  constructor
  · intro h
    exact ⟨lt_capacity_of_contains h, h⟩
  · rintro ⟨-, h⟩
    exact h

/-- The number of members is the number of listed members. -/
theorem size_eq_length (s : IndexSet) : s.size = s.toList.length := by
  rw [size, toList_eq_filter, List.countP_eq_length_filter]

/-- Taking a member out leaves one fewer. -/
theorem size_erase_lt {s : IndexSet} {i : ℕ} (h : s.contains i = true) :
    (s.erase i).size < s.size := by
  have sub : (s.erase i).toList ⊆ s.toList.erase i := by
    intro j hj
    rw [mem_toList, contains_erase] at hj
    have ⟨hs, hne⟩ := Bool.and_eq_true_iff.1 hj
    exact (List.mem_erase_of_ne (Ne.symm (of_decide_eq_true hne))).2 (mem_toList.2 hs)
  have le := (s.erase i).nodup_toList.length_le_of_subset sub
  have len := List.length_erase_of_mem (mem_toList.2 h)
  have pos := List.length_pos_of_mem (mem_toList.2 h)
  rw [size_eq_length, size_eq_length]
  omega

/-- The members without one of them, followed by that one. -/
theorem toList_erase_concat_perm {s : IndexSet} {i : ℕ} (h : s.contains i = true) :
    ((s.erase i).toList ++ [i]).Perm s.toList := by
  have nodup : ((s.erase i).toList ++ [i]).Nodup := by
    rw [List.nodup_append]
    refine ⟨(s.erase i).nodup_toList, List.nodup_singleton i, ?_⟩
    intro j mem k mem'
    obtain rfl := List.mem_singleton.1 mem'
    rw [mem_toList, contains_erase] at mem
    rintro rfl
    simp at mem
  apply (List.perm_ext_iff_of_nodup nodup s.nodup_toList).2
  intro j
  rw [List.mem_append, List.mem_singleton, mem_toList, mem_toList, contains_erase]
  by_cases eq : i = j
  · subst eq
    simp [h]
  · simp [eq, Ne.symm eq]

theorem toList_eq_nil_iff (s : IndexSet) : s.toList = [] ↔ s.isEmpty = true := by
  rw [List.eq_nil_iff_forall_not_mem, ← Bool.not_eq_false, isEmpty_eq_false_iff, not_exists]
  simp only [mem_toList]

/-! ## The set of a list -/

/-- The set of the indexes of a list. -/
def ofList (indexes : List ℕ) : IndexSet := indexes.foldr (fun i s => s.insert i) ∅

theorem contains_ofList {indexes : List ℕ} (h : ∀ i ∈ indexes, i < capacity) (i : ℕ) :
    (ofList indexes).contains i = decide (i ∈ indexes) := by
  induction indexes with
  | nil => exact contains_empty i
  | cons first rest ih =>
    have lt : first < capacity := h first List.mem_cons_self
    have rest := ih fun i mem => h i (List.mem_cons_of_mem _ mem)
    rw [ofList, List.foldr_cons, contains_insert, ← ofList, rest]
    simp [lt, Bool.or_comm, eq_comm]

/-- A set is that of its members, in whatever order they are listed. -/
theorem ofList_eq_of_perm {indexes : List ℕ} {s : IndexSet} (h : indexes.Perm s.toList) :
    ofList indexes = s := by
  have lt : ∀ i ∈ indexes, i < capacity := by
    intro i mem
    exact lt_capacity_of_contains (mem_toList.1 (h.mem_iff.1 mem))
  apply ext_contains
  intro i
  rw [contains_ofList lt, Bool.eq_iff_iff, decide_eq_true_iff, h.mem_iff, mem_toList]

theorem erase_ofList_concat {indexes : List ℕ} {i : ℕ} (h : ∀ j ∈ indexes ++ [i], j < capacity)
    (nodup : (indexes ++ [i]).Nodup) : (ofList (indexes ++ [i])).erase i = ofList indexes := by
  have notMem : i ∉ indexes := by
    intro mem
    exact (List.nodup_append.1 nodup).2.2 i mem i (List.mem_singleton.2 rfl) rfl
  have front : ∀ j ∈ indexes, j < capacity := by
    intro j mem
    exact h j (List.mem_append_left _ mem)
  apply ext_contains
  intro j
  rw [contains_erase, contains_ofList h, contains_ofList front]
  by_cases eq : i = j
  · subst eq
    simp [notMem]
  · simp [eq, Ne.symm eq]

end LeftDeep.IndexSet
