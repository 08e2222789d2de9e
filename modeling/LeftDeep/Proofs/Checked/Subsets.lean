import Mathlib.Data.Finset.Powerset
import LeftDeep.Proofs.Checked.Basic
import LeftDeep.Proofs.IndexSet.Enumeration
import LeftDeep.Proofs.IndexSet.Representation

/-!
# Checked enumeration of subsets

The mask arithmetic of index sets in checked form. Every shift is by less than the width of a word,
nothing is subtracted from a smaller number, and the bit that is divided by is never zero. So the
checked enumeration of the subsets of one size does not fault, and it lists what the plain one
lists: every subset of that size once, by ascending mask.

## Main definitions

* `Checked.members`, `Checked.successor`, `Checked.subsets`: the checked operations.
* `Subsets.ListsAll`: a list of all subsets of one size.

## Main statements

* `Checked.successor_eq_ok`: one step of the enumeration does not fault.
* `Checked.subsets_eq_ok`: nor does the whole of it, within the capacity.
* `Subsets.exists_listsAll`: what the enumeration lists.
-/

namespace LeftDeep

namespace Checked

open IndexSet

/-! ## Masks -/

/-- The mask of one index. -/
def bit (index : ℕ) : Checked UInt64 := if index < capacity then shiftLeft 1 index else .ok 0

/-- The mask of all indexes below a bound, which may not exceed the capacity. -/
def maskBelow (n : ℕ) : Checked UInt64 :=
  if n < capacity then do sub (← shiftLeft 1 n) 1
  else if n = capacity then .ok (~~~ 0)
  else .error (.capacity n)

/-- The set with one member fewer. -/
def erase (s : IndexSet) (index : ℕ) : Checked IndexSet := do
  let bit ← bit index
  .ok ⟨s.bits &&& ~~~ bit⟩

/-- A mask without its lowest set bit. -/
def clearLowest (mask : UInt64) : Checked UInt64 := do
  let pred ← sub mask 1
  .ok (mask &&& pred)

/-- The lowest set bit of a mask, on its own. -/
def lowestBit (mask : UInt64) : Checked UInt64 := do
  let rest ← clearLowest mask
  sub mask rest

theorem bit_eq_ok (index : ℕ) : bit index = .ok (IndexSet.bit index) := by
  rw [bit, IndexSet.bit]
  split
  · next small => rw [shiftLeft, if_pos small]
  · rfl

theorem maskBelow_eq_ok {n : ℕ} (h : n ≤ capacity) :
    maskBelow n = .ok (IndexSet.maskBelow n) := by
  rw [maskBelow, IndexSet.maskBelow]
  split
  · next small =>
    have one_le : (1 : UInt64) ≤ 1 <<< n.toUInt64 := by
      have value := toNat_bit n
      rw [IndexSet.bit, if_pos small, if_pos small] at value
      rw [UInt64.le_iff_toNat_le, value]
      exact Nat.two_pow_pos n
    rw [shiftLeft, if_pos small, ok_bind, sub_eq_ok one_le]
  · next large => rw [if_pos (by omega)]

theorem erase_eq_ok (s : IndexSet) (index : ℕ) : erase s index = .ok (s.erase index) := by
  rw [erase, bit_eq_ok, ok_bind, IndexSet.erase]

theorem clearLowest_eq_ok {mask : UInt64} (h : mask ≠ 0) :
    clearLowest mask = .ok (IndexSet.clearLowest mask) := by
  have one_le : 1 ≤ mask := by
    rw [UInt64.le_iff_toNat_le]
    exact Nat.one_le_iff_ne_zero.2 fun zero => h (UInt64.toNat_inj.1 zero)
  rw [clearLowest, sub_eq_ok one_le, ok_bind, IndexSet.clearLowest]

theorem lowestBit_eq_ok {mask : UInt64} (h : mask ≠ 0) :
    lowestBit mask = .ok (IndexSet.lowestBit mask) := by
  have le : IndexSet.clearLowest mask ≤ mask :=
    UInt64.le_iff_toNat_le.2 (IndexSet.clearLowest_lt h).le
  rw [lowestBit, clearLowest_eq_ok h, ok_bind, sub_eq_ok le, IndexSet.lowestBit]

theorem lowestBit_ne_zero {mask : UInt64} (h : mask ≠ 0) : IndexSet.lowestBit mask ≠ 0 := by
  intro zero
  have le : IndexSet.clearLowest mask ≤ mask :=
    UInt64.le_iff_toNat_le.2 (IndexSet.clearLowest_lt h).le
  have value := UInt64.toNat_sub_of_le mask _ le
  have lt := IndexSet.clearLowest_lt h
  rw [← IndexSet.lowestBit, zero, UInt64.toNat_zero] at value
  omega

/-! ## Members -/

/-- The indexes of the bits set in a mask, lowest first. -/
def members (mask : UInt64) : Checked (List ℕ) :=
  if _zero : mask = 0 then .ok []
  else
    match _cleared : clearLowest mask with
    | .error e => .error e
    | .ok rest => do
      let low ← lowestBit mask
      let more ← members rest
      .ok (low.toNat.log2 :: more)
termination_by mask.toNat
decreasing_by
  rw [clearLowest_eq_ok _zero] at _cleared
  obtain rfl := Except.ok.inj _cleared
  exact IndexSet.clearLowest_lt _zero

theorem members_eq_ok (mask : UInt64) : members mask = .ok (bitIndexes mask) := by
  fun_induction members mask with
  | case1 => rw [bitIndexes, dif_pos rfl]
  | case2 mask zero e cleared =>
    rw [clearLowest_eq_ok zero] at cleared
    exact absurd cleared (by simp)
  | case3 mask zero rest cleared ih =>
    rw [clearLowest_eq_ok zero] at cleared
    obtain rfl := Except.ok.inj cleared
    rw [bitIndexes, dif_neg zero, lowestBit_eq_ok zero, ok_bind, ih, ok_bind]

/-! ## The enumeration -/

/-- The next larger mask with equally many bits, unless it does not fit into 64 bits or uses an
index outside `limit`. -/
def successor (limit mask : UInt64) : Checked (Option UInt64) :=
  if mask = 0 then .ok none
  else do
    let low ← lowestBit mask
    match add? mask low with
    | none => .ok none
    | some carried => do
      let shifted ← shiftRight (mask ^^^ carried) 2
      let dropped ← div shifted low
      let candidate := carried ||| dropped
      .ok (if candidate &&& ~~~ limit = 0 then some candidate else none)

/-- A sum of words is larger than a summand exactly if it fits, unless the other one is zero. -/
theorem lt_add_iff {x y : UInt64} (h : y ≠ 0) : x < x + y ↔ x.toNat + y.toNat < UInt64.size := by
  have pos : 0 < y.toNat := Nat.pos_of_ne_zero fun zero => h (UInt64.toNat_inj.1 zero)
  have small := x.toNat_lt
  have small' := y.toNat_lt
  rw [UInt64.lt_iff_toNat_lt, UInt64.toNat_add, UInt64.size]
  constructor
  · intro lt
    by_contra large
    rw [Nat.mod_eq_sub_mod (by omega), Nat.mod_eq_of_lt (by omega)] at lt
    omega
  · intro fits
    rw [Nat.mod_eq_of_lt fits]
    omega

/-- One step of the enumeration does not fault. -/
theorem successor_eq_ok (limit mask : UInt64) :
    successor limit mask = .ok (Subsets.successor? limit mask) := by
  rw [successor, Subsets.successor?]
  by_cases zero : mask = 0
  · rw [if_pos zero, if_pos zero]
  · have low := lowestBit_ne_zero zero
    rw [if_neg zero, if_neg zero, lowestBit_eq_ok zero, ok_bind, add?]
    simp only [lt_add_iff low]
    by_cases fits : mask.toNat + (IndexSet.lowestBit mask).toNat < UInt64.size
    · have shift : shiftRight (mask ^^^ (mask + IndexSet.lowestBit mask)) 2 =
          .ok ((mask ^^^ (mask + IndexSet.lowestBit mask)) >>> 2) := rfl
      simp only [if_pos fits, shift, ok_bind, div_eq_ok low]
    · simp only [if_neg fits]

/-- The masks from one on. -/
def walk (limit mask : UInt64) : Checked (List IndexSet) :=
  match _step : successor limit mask with
  | .error e => .error e
  | .ok none => .ok [⟨mask⟩]
  | .ok (some next) => do
    let more ← walk limit next
    .ok (⟨mask⟩ :: more)
termination_by UInt64.size - mask.toNat
decreasing_by
  rw [successor_eq_ok] at _step
  have lt := UInt64.lt_iff_toNat_lt.1 (Subsets.lt_of_successor? (Except.ok.inj _step))
  have small : next.toNat < UInt64.size := next.toNat_lt
  omega

/-- The subsets of exactly `size` indexes below `n`, which may not exceed the capacity. -/
def subsets (n size : ℕ) : Checked (List IndexSet) := do
  let limit ← maskBelow n
  if size ≤ n then do
    let first ← maskBelow size
    walk limit first
  else .ok []

theorem toList_of_none (limit : UInt64) : (⟨none, limit⟩ : Subsets).toList = [] := by
  rw [Subsets.toList]
  rfl

theorem toList_of_some (limit mask : UInt64) :
    (⟨some mask, limit⟩ : Subsets).toList =
      ⟨mask⟩ :: (⟨Subsets.successor? limit mask, limit⟩ : Subsets).toList := by
  rw [Subsets.toList]
  rfl

theorem walk_eq_ok (limit mask : UInt64) :
    walk limit mask = .ok (⟨some mask, limit⟩ : Subsets).toList := by
  fun_induction walk limit mask with
  | case1 mask e step =>
    rw [successor_eq_ok] at step
    exact absurd step (by simp)
  | case2 mask step =>
    rw [successor_eq_ok] at step
    rw [toList_of_some, Except.ok.inj step, toList_of_none]
  | case3 mask next step ih =>
    rw [successor_eq_ok] at step
    rw [toList_of_some, Except.ok.inj step, ih, ok_bind]

/-- The enumeration does not fault for a bound within the capacity. -/
theorem subsets_eq_ok {n : ℕ} (h : n ≤ capacity) (size : ℕ) :
    subsets n size = .ok (Subsets.within n size).toList := by
  rw [subsets, maskBelow_eq_ok h, ok_bind, Subsets.within]
  split
  · next le => rw [maskBelow_eq_ok (le.trans h), ok_bind, walk_eq_ok]
  · rw [toList_of_none]

end Checked

namespace Subsets

variable {n k : ℕ}

/-! ## The number of subsets -/

theorem toFinset_toList_injective :
    Function.Injective fun s : IndexSet => s.toList.toFinset := by
  intro s t eq
  apply IndexSet.ext_contains
  intro i
  have same := congrArg (i ∈ ·) eq
  simp only [List.mem_toFinset, IndexSet.mem_toList, eq_iff_iff] at same
  exact Bool.eq_iff_iff.2 same

theorem size_eq_card (s : IndexSet) : s.size = s.toList.toFinset.card := by
  rw [List.toFinset_card_of_nodup s.nodup_toList, IndexSet.size_eq_length]

/-- The enumeration lists as many sets as there are subsets of that size. -/
theorem length_toList_within (hn : n ≤ IndexSet.capacity) :
    (within n k).toList.length = n.choose k := by
  have image : ((within n k).toList.map fun s => s.toList.toFinset).toFinset =
      (Finset.range n).powersetCard k := by
    ext members
    rw [List.mem_toFinset, List.mem_map, Finset.mem_powersetCard]
    constructor
    · rintro ⟨s, mem, rfl⟩
      obtain ⟨below, size⟩ := (mem_toList_within hn s).1 mem
      refine ⟨?_, size_eq_card s ▸ size⟩
      intro i mem
      exact Finset.mem_range.2 (below i (IndexSet.mem_toList.1 (List.mem_toFinset.1 mem)))
    · rintro ⟨sub, card⟩
      have small : ∀ i ∈ members, i < IndexSet.capacity := by
        intro i mem
        exact (Finset.mem_range.1 (sub mem)).trans_le hn
      obtain ⟨s, contains⟩ := IndexSet.exists_contains_iff small
      have same : s.toList.toFinset = members := by
        ext i
        rw [List.mem_toFinset, IndexSet.mem_toList, contains]
      refine ⟨s, ?_, same⟩
      rw [mem_toList_within hn, size_eq_card, same]
      refine ⟨?_, card⟩
      intro i mem
      exact Finset.mem_range.1 (sub ((contains i).1 mem))
  have nodup := (nodup_toList_within (k := k) hn).map toFinset_toList_injective
  calc (within n k).toList.length
      = ((within n k).toList.map fun s => s.toList.toFinset).length := by rw [List.length_map]
    _ = ((within n k).toList.map fun s => s.toList.toFinset).toFinset.card :=
      (List.toFinset_card_of_nodup nodup).symm
    _ = n.choose k := by rw [image, Finset.card_powersetCard, Finset.card_range]

/-! ## The enumeration as a whole -/

/-- All subsets of exactly `k` indexes below `n`, by ascending mask. -/
structure ListsAll (n k : ℕ) (sets : List IndexSet) : Prop where
  /-- The subsets of the size are listed, and nothing else. -/
  mem_iff : ∀ s, s ∈ sets ↔ (∀ i, s.contains i = true → i < n) ∧ s.size = k
  /-- None is listed twice, or after one with a larger mask. -/
  ascending : sets.Pairwise fun s t => s.bits < t.bits
  /-- There are as many as there are ways to choose them. -/
  length : sets.length = n.choose k
  /-- The only set of size zero is the empty one. -/
  eq_of_zero : k = 0 → sets = [∅]
  /-- A size above the bound has no sets. -/
  eq_of_lt : n < k → sets = []

theorem listsAll_toList_within (hn : n ≤ IndexSet.capacity) :
    ListsAll n k (within n k).toList := by
  constructor
  case mem_iff => exact mem_toList_within hn
  case ascending => exact pairwise_toList_within hn
  case length => exact length_toList_within hn
  case eq_of_zero =>
    rintro rfl
    have one := length_toList_within (k := 0) hn
    rw [Nat.choose_zero_right, List.length_eq_one_iff] at one
    obtain ⟨s, eq⟩ := one
    have mem : (∅ : IndexSet) ∈ (within n 0).toList := by
      rw [mem_toList_within hn]
      constructor
      · intro i contains
        rw [show (∅ : IndexSet) = IndexSet.empty from rfl, IndexSet.contains_empty] at contains
        exact absurd contains (by simp)
      · rfl
    rw [eq, List.mem_singleton] at mem
    rw [eq, mem]
  case eq_of_lt =>
    intro lt
    have none := length_toList_within (k := k) hn
    rw [Nat.choose_eq_zero_of_lt lt] at none
    exact List.length_eq_zero_iff.1 none

/-- Taking as many subsets as are still to come leaves none. -/
theorem splitAt_length (s : Subsets) :
    ∃ last, s.splitAt s.toList.length = (s.toList, last) ∧ last.next? = none := by
  fun_induction toList s with
  | case1 s none => exact ⟨s, rfl, none⟩
  | case2 s set rest step ih =>
    obtain ⟨last, eq, none⟩ := ih
    refine ⟨last, ?_, none⟩
    rw [List.length_cons, splitAt, step]
    simp only [eq]

/-- For a bound within the capacity, the enumeration of the subsets of one size lists all of them
and then ends, and in checked form it lists the same without a fault. -/
theorem exists_listsAll (hn : n ≤ IndexSet.capacity) (k : ℕ) :
    ∃ s sets last, ofSize n k = .ok s ∧ s.splitAt (n.choose k) = (sets, last) ∧
      last.next? = none ∧ s.toList = sets ∧ ListsAll n k sets ∧
        Checked.subsets n k = .ok sets := by
  have all := listsAll_toList_within (k := k) hn
  obtain ⟨last, eq, none⟩ := (within n k).splitAt_length
  rw [all.length] at eq
  exact ⟨within n k, (within n k).toList, last, if_pos hn, eq, none, rfl, all,
    Checked.subsets_eq_ok hn k⟩

/-- The subsets of 63 of all indexes that a set can address. The mask after the last one does not
fit. -/
theorem exists_listsAll_full : 64 ≤ IndexSet.capacity ∧
    ∃ sets, ListsAll 64 63 sets ∧ Checked.subsets 64 63 = .ok sets ∧ sets.length = 64 := by
  have le : 64 ≤ IndexSet.capacity := by decide
  obtain ⟨-, sets, -, -, -, -, -, all, eq⟩ := exists_listsAll le 63
  exact ⟨le, sets, all, eq, all.length⟩

end Subsets
end LeftDeep
