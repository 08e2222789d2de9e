import LeftDeep.IndexSet.Basic

/-!
# Subsets of one size

All sets of exactly `k` indexes below `n`, in ascending order of their masks. The enumeration
keeps the next mask and computes its successor by bit arithmetic: the lowest run of ones is
carried into the zero above it, and what is left of the run drops to the bottom.

## Main definitions

* `Subsets.ofSize`: the enumeration of the subsets of one size.
* `Subsets.next?`: the next subset and the enumeration after it.
* `Subsets.toList`, `Subsets.foldl`, `Subsets.splitAt`: walking over what is left.
-/

namespace LeftDeep

/-- An enumeration of masks with equally many bits, ascending, within a limit. -/
structure Subsets where
  /-- The mask to come, if there is one. -/
  upcoming : Option UInt64
  /-- The mask of the indexes that may be used. -/
  limit : UInt64

namespace Subsets

/-- The next larger mask with equally many bits, unless it does not fit into 64 bits or uses an
index outside `limit`. The empty mask has no successor. -/
def successor? (limit mask : UInt64) : Option UInt64 :=
  if mask = 0 then none
  else
    let low := IndexSet.lowestBit mask
    let carried := mask + low
    if mask < carried then
      let dropped := ((mask ^^^ carried) >>> 2) / low
      let candidate := carried ||| dropped
      if candidate &&& ~~~ limit = 0 then some candidate else none
    else none

/-- The subsets of exactly `size` indexes below `n`, for an `n` within the capacity. -/
def within (n size : Nat) : Subsets :=
  { upcoming := if size ≤ n then some (IndexSet.maskBelow size) else none
    limit := IndexSet.maskBelow n }

/-- The subsets of exactly `size` indexes below `n`. -/
def ofSize (n size : Nat) : Except IndexSet.CapacityExceeded Subsets :=
  if n ≤ IndexSet.capacity then .ok (within n size) else .error ⟨n⟩

/-- The next subset, and the enumeration that follows it. -/
def next? (s : Subsets) : Option (IndexSet × Subsets) :=
  s.upcoming.map fun mask => (⟨mask⟩, { s with upcoming := successor? s.limit mask })

/-- A bound on the number of subsets still to come. -/
def bound (s : Subsets) : Nat :=
  match s.upcoming with
  | none => 0
  | some mask => UInt64.size - mask.toNat

/-- A successor is larger than the mask it follows. -/
theorem lt_of_successor? {limit mask candidate : UInt64}
    (h : successor? limit mask = some candidate) : mask < candidate := by
  unfold successor? at h
  split at h
  · exact absurd h (by simp)
  · simp only at h
    split at h
    · next lt =>
      split at h
      · obtain rfl := Option.some.inj h
        rw [UInt64.lt_iff_toNat_lt] at lt ⊢
        refine Nat.lt_of_lt_of_le lt ?_
        rw [UInt64.toNat_or]
        exact Nat.left_le_or
      · exact absurd h (by simp)
    · exact absurd h (by simp)

/-- Taking a subset leaves fewer to come. -/
theorem bound_lt_of_next? {s rest : Subsets} {set : IndexSet}
    (h : s.next? = some (set, rest)) : rest.bound < s.bound := by
  obtain ⟨upcoming, limit⟩ := s
  cases upcoming with
  | none => simp [next?] at h
  | some mask =>
    simp only [next?, Option.map_some, Option.some.injEq, Prod.mk.injEq] at h
    obtain ⟨-, rfl⟩ := h
    have below : mask.toNat < UInt64.size := mask.toNat_lt
    simp only [bound]
    split
    · omega
    · next candidate eq =>
      have lt := UInt64.lt_iff_toNat_lt.1 (lt_of_successor? eq)
      omega

/-- The subsets still to come. -/
def toList (s : Subsets) : List IndexSet :=
  match _h : s.next? with
  | none => []
  | some (set, rest) => set :: rest.toList
termination_by s.bound
decreasing_by exact bound_lt_of_next? _h

/-- Combines the subsets still to come, in order. -/
def foldl {α : Type} (f : α → IndexSet → α) (start : α) (s : Subsets) : α :=
  match _h : s.next? with
  | none => start
  | some (set, rest) => foldl f (f start set) rest
termination_by s.bound
decreasing_by exact bound_lt_of_next? _h

/-- The next subsets, at most `count` of them, and the enumeration after them. -/
def splitAt : Nat → Subsets → List IndexSet × Subsets
  | 0, s => ([], s)
  | count + 1, s =>
    match s.next? with
    | none => ([], s)
    | some (set, rest) =>
      let (more, last) := splitAt count rest
      (set :: more, last)

/-- Folding over an enumeration is folding over its list. -/
theorem foldl_eq_foldl_toList {α : Type} (f : α → IndexSet → α) (start : α) (s : Subsets) :
    s.foldl f start = s.toList.foldl f start := by
  fun_induction foldl f start s with
  | case1 start s h =>
    rw [toList]
    split
    · rfl
    · next h' => simp [h] at h'
  | case2 start s set rest h ih =>
    rw [toList]
    split
    · next h' => simp [h] at h'
    · next set' rest' h' =>
      obtain ⟨rfl, rfl⟩ : set = set' ∧ rest = rest' := by simpa [h] using h'
      exact ih

end Subsets
end LeftDeep
