import LeftDeep.Proofs.IndexSet.Successor

/-!
# Every subset of one size, once

An enumeration starts at the least mask of a size and steps to the next larger mask of that size,
until the limit or the width of a mask is exceeded. It therefore lists all subsets of that size in
ascending order.

## Main statements

* `Subsets.mem_toList_within`: the listed sets are the subsets of one size.
* `Subsets.pairwise_toList_within`: they come in ascending order, each once.
-/

namespace LeftDeep.Subsets

/-- A mask stays within the lowest `n` bits when its value is below the power of two. -/
theorem and_not_maskBelow_eq_zero {n : ℕ} (hn : n ≤ IndexSet.capacity) (mask : UInt64) :
    mask &&& ~~~IndexSet.maskBelow n = 0 ↔ mask.toNat < 2 ^ n := by
  have bound : n ≤ 64 := hn
  have below : 2 ^ n ≤ 2 ^ 64 := Nat.pow_le_pow_right (by decide) bound
  have pos := Nat.two_pow_pos n
  have flipped : UInt64.size - 1 - (2 ^ n - 1) = 2 ^ 64 - ((2 ^ n - 1) + 1) := by
    simp only [UInt64.size]
    omega
  have bits (i : ℕ) : (mask &&& ~~~IndexSet.maskBelow n).toNat.testBit i =
      (mask.toNat.testBit i && decide (n ≤ i)) := by
    rw [UInt64.toNat_and, UInt64.toNat_not, Nat.testBit_and, IndexSet.toNat_maskBelow hn,
      flipped, Nat.testBit_two_pow_sub_succ (by omega), Nat.testBit_two_pow_sub_one]
    by_cases hi : i < 64
    · by_cases low : i < n
      · simp [low, Nat.not_le.2 low]
      · simp [hi, low, Nat.le_of_not_lt low]
    · simp [IndexSet.testBit_of_capacity_le mask (Nat.le_of_not_lt hi)]
  constructor
  · intro h
    apply Nat.lt_pow_two_of_testBit
    intro i hi
    have zero := bits i
    rw [h] at zero
    simpa [hi] using zero
  · intro h
    rw [← UInt64.toNat_inj]
    apply Nat.eq_of_testBit_eq
    intro i
    rw [bits i]
    by_cases hi : n ≤ i
    · simp [Nat.testBit_lt_two_pow (lt_of_lt_of_le h (Nat.pow_le_pow_right (by decide) hi))]
    · simp [hi]

/-- The members of a set are below `n` when its mask is below the power of two. -/
theorem toNat_bits_lt_iff (s : IndexSet) (n : ℕ) :
    s.bits.toNat < 2 ^ n ↔ ∀ i, s.contains i = true → i < n := by
  constructor
  · intro h i hi
    by_contra hn
    rw [IndexSet.contains_iff, Nat.testBit_lt_two_pow
      (lt_of_lt_of_le h (Nat.pow_le_pow_right (by decide) (Nat.le_of_not_lt hn)))] at hi
    exact Bool.noConfusion hi
  · intro h
    apply Nat.lt_pow_two_of_testBit
    intro i hi
    rw [Bool.eq_false_iff]
    intro set
    have := h i ((IndexSet.contains_iff s i).2 set)
    omega

/-! ## One step of an enumeration -/

/-- Another mask of the same enumeration: one with equally many ones, all below `n`. -/
def Peer (n : ℕ) (mask other : UInt64) : Prop :=
  weight other.toNat = weight mask.toNat ∧ other.toNat < 2 ^ n

/-- A step goes to the least larger mask with equally many ones within the limit. -/
theorem successor?_eq_some {n : ℕ} (hn : n ≤ IndexSet.capacity) {mask next : UInt64}
    (h : successor? (IndexSet.maskBelow n) mask = some next) :
    Peer n mask next ∧ ∀ other, Peer n mask other → (mask < other ↔ next ≤ other) := by
  by_cases zero : mask.toNat = 0
  · have : mask = 0 := UInt64.toNat_inj.1 zero
    simp [successor?, this] at h
  · obtain ⟨a, z, t, eq⟩ := exists_run zero
    rw [successor?_of_run eq] at h
    split at h
    · next fits =>
      obtain rfl := Option.some.inj h
      have value : (UInt64.ofNat (advance a z t)).toNat = advance a z t :=
        UInt64.toNat_ofNat_of_lt' fits.1
      have same : weight (UInt64.ofNat (advance a z t)).toNat = weight mask.toNat := by
        rw [value, eq, weight_advance]
      refine ⟨⟨same, (and_not_maskBelow_eq_zero hn _).1 fits.2⟩, ?_⟩
      intro other peer
      rw [UInt64.lt_iff_toNat_lt, UInt64.le_iff_toNat_le, value, eq]
      constructor
      · intro lt
        apply advance_le lt
        rw [peer.1, eq]
      · intro le
        exact lt_of_lt_of_le (run_lt_advance a z t) le
    · exact absurd h (by simp)

/-- An enumeration ends at a mask when no larger one with equally many ones is within the
limit. -/
theorem successor?_eq_none {n : ℕ} (hn : n ≤ IndexSet.capacity) {mask : UInt64}
    (h : successor? (IndexSet.maskBelow n) mask = none) (other : UInt64)
    (peer : Peer n mask other) : ¬ mask < other := by
  intro lt
  rw [UInt64.lt_iff_toNat_lt] at lt
  by_cases zero : mask.toNat = 0
  · -- Only the empty mask has no ones.
    have least := add_two_pow_le n other.toNat peer.2
    rw [peer.1, zero, weight_zero, Nat.sub_zero] at least
    omega
  · obtain ⟨a, z, t, eq⟩ := exists_run zero
    have le : advance a z t ≤ other.toNat := by
      apply advance_le (eq ▸ lt)
      rw [peer.1, eq]
    have fits : advance a z t < 2 ^ 64 := lt_of_le_of_lt le other.toNat_lt
    have inside : UInt64.ofNat (advance a z t) &&& ~~~IndexSet.maskBelow n = 0 := by
      rw [and_not_maskBelow_eq_zero hn, UInt64.toNat_ofNat_of_lt' fits]
      exact lt_of_le_of_lt le peer.2
    rw [successor?_of_run eq, if_pos ⟨fits, inside⟩] at h
    exact absurd h (by simp)

/-! ## The whole enumeration -/

theorem exists_of_next? {upcoming : Option UInt64} {limit : UInt64} {set : IndexSet}
    {rest : Subsets} (h : next? ⟨upcoming, limit⟩ = some (set, rest)) :
    ∃ mask, upcoming = some mask ∧ ⟨mask⟩ = set ∧ ⟨successor? limit mask, limit⟩ = rest := by
  cases upcoming with
  | none => simp [next?] at h
  | some mask =>
    refine ⟨mask, rfl, ?_⟩
    simpa [next?] using h

/-- What an enumeration has still to list: from its mask on, all masks with equally many ones. -/
theorem mem_toList_iff {n : ℕ} (hn : n ≤ IndexSet.capacity) (s : Subsets)
    (limit : s.limit = IndexSet.maskBelow n)
    (inside : ∀ mask, s.upcoming = some mask → mask.toNat < 2 ^ n) (x : IndexSet) :
    x ∈ s.toList ↔ ∃ mask, s.upcoming = some mask ∧ mask ≤ x.bits ∧ Peer n mask x.bits := by
  fun_induction toList s with
  | case1 s h =>
    have none : s.upcoming = none := by simpa [next?] using h
    simp [none]
  | case2 s set rest h ih =>
    obtain ⟨upcoming, lim⟩ := s
    obtain rfl : lim = IndexSet.maskBelow n := limit
    obtain ⟨mask, rfl, rfl, rfl⟩ := exists_of_next? h
    have masked := inside mask rfl
    rw [List.mem_cons, ih rfl fun next eq => (successor?_eq_some hn eq).1.2]
    constructor
    · rintro (rfl | ⟨next, eq, le, peer⟩)
      · exact ⟨mask, rfl, UInt64.le_refl _, rfl, masked⟩
      · obtain ⟨peer', least⟩ := successor?_eq_some hn eq
        have peer'' : Peer n mask x.bits := ⟨peer.1.trans peer'.1, peer.2⟩
        exact ⟨mask, rfl, UInt64.le_of_lt ((least x.bits peer'').2 le), peer''⟩
    · rintro ⟨m, eq, le, peer⟩
      obtain rfl := Option.some.inj eq
      rcases UInt64.lt_or_eq_of_le le with lt | same
      · right
        cases step : successor? (IndexSet.maskBelow n) mask with
        | none => exact absurd lt (successor?_eq_none hn step x.bits peer)
        | some next =>
          obtain ⟨peer', least⟩ := successor?_eq_some hn step
          exact ⟨next, rfl, (least x.bits peer).1 lt, peer.1.trans peer'.1.symm, peer.2⟩
      · left
        cases x
        exact congrArg IndexSet.mk same.symm

/-- The sets of an enumeration ascend. -/
theorem pairwise_toList {n : ℕ} (hn : n ≤ IndexSet.capacity) (s : Subsets)
    (limit : s.limit = IndexSet.maskBelow n)
    (inside : ∀ mask, s.upcoming = some mask → mask.toNat < 2 ^ n) :
    s.toList.Pairwise fun x y => x.bits < y.bits := by
  fun_induction toList s with
  | case1 => exact List.Pairwise.nil
  | case2 s set rest h ih =>
    obtain ⟨upcoming, lim⟩ := s
    obtain rfl : lim = IndexSet.maskBelow n := limit
    obtain ⟨mask, rfl, rfl, rfl⟩ := exists_of_next? h
    have inside' : ∀ next, successor? (IndexSet.maskBelow n) mask = some next →
        next.toNat < 2 ^ n := by
      intro next eq
      exact (successor?_eq_some hn eq).1.2
    refine List.pairwise_cons.2 ⟨?_, ih rfl inside'⟩
    intro y hy
    obtain ⟨next, eq, le, -⟩ := (mem_toList_iff hn ⟨_, _⟩ rfl inside' y).1 hy
    exact UInt64.lt_of_lt_of_le (lt_of_successor? eq) le

section Within

variable {n k : ℕ}

theorem toNat_lt_of_within (hn : n ≤ IndexSet.capacity) (mask : UInt64)
    (h : (within n k).upcoming = some mask) : mask.toNat < 2 ^ n := by
  rw [within] at h
  split at h
  · next hk =>
    obtain rfl := Option.some.inj h
    have pos := Nat.two_pow_pos k
    have le : 2 ^ k ≤ 2 ^ n := Nat.pow_le_pow_right (by decide) hk
    rw [IndexSet.toNat_maskBelow (hk.trans hn)]
    omega
  · exact absurd h (by simp)

/-- The enumeration lists exactly the sets of `k` indexes below `n`. -/
theorem mem_toList_within (hn : n ≤ IndexSet.capacity) (s : IndexSet) :
    s ∈ (within n k).toList ↔ (∀ i, s.contains i = true → i < n) ∧ s.size = k := by
  rw [mem_toList_iff hn _ rfl (toNat_lt_of_within hn), ← toNat_bits_lt_iff, size_eq_weight]
  constructor
  · rintro ⟨mask, h, -, same, lt⟩
    rw [within] at h
    split at h
    · next hk =>
      obtain rfl := Option.some.inj h
      rw [IndexSet.toNat_maskBelow (hk.trans hn), weight_two_pow_sub_one] at same
      exact ⟨lt, same⟩
    · exact absurd h (by simp)
  · rintro ⟨lt, rfl⟩
    have hk := (add_two_pow_le n _ lt).1
    have value := IndexSet.toNat_maskBelow (hk.trans hn)
    refine ⟨IndexSet.maskBelow (weight s.bits.toNat), if_pos hk, ?_, ?_, lt⟩
    · have least := two_pow_weight_le s.bits.toNat
      rw [UInt64.le_iff_toNat_le, value]
      omega
    · rw [value, weight_two_pow_sub_one]

/-- The enumeration lists each set once, by ascending mask. -/
theorem pairwise_toList_within (hn : n ≤ IndexSet.capacity) :
    (within n k).toList.Pairwise fun x y => x.bits < y.bits :=
  pairwise_toList hn _ rfl (toNat_lt_of_within hn)

theorem nodup_toList_within (hn : n ≤ IndexSet.capacity) : (within n k).toList.Nodup := by
  refine (pairwise_toList_within hn).imp ?_
  rintro x y lt rfl
  exact UInt64.lt_irrefl _ lt

end Within

end LeftDeep.Subsets
