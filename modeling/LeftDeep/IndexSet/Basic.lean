/-!
# Sets of small indexes

A set of indexes below 64, kept as a mask with one bit for each index. Two sets with the same
members have the same mask, so a set can serve as the key of a table.

An index of 64 or more has no bit: it is in no set, and inserting or erasing it changes nothing.

## Main definitions

* `IndexSet.contains`, `IndexSet.insert`, `IndexSet.erase`: membership and its changes.
* `IndexSet.toList`: the members in ascending order.
* `IndexSet.below`: all indexes below a bound, which may not exceed the capacity.
-/

namespace LeftDeep

/-- A set of indexes below `IndexSet.capacity`. -/
structure IndexSet where
  /-- The mask: index `i` is a member when bit `i` is set. -/
  bits : UInt64
  deriving DecidableEq, Hashable, Repr, Inhabited

namespace IndexSet

/-- The number of indexes a set can address. -/
def capacity : Nat := 64

/-- A request for more indexes than a set can address. -/
structure CapacityExceeded where
  /-- The number of indexes asked for. -/
  requested : Nat
  deriving DecidableEq, Repr

/-- The text of a capacity failure. -/
def CapacityExceeded.message (_ : CapacityExceeded) : String :=
  "join set supports at most " ++ toString capacity ++ " joins"

/-- The mask of one index, which is zero past the capacity. -/
def bit (index : Nat) : UInt64 :=
  if index < capacity then 1 <<< index.toUInt64 else 0

/-- The set without members. -/
def empty : IndexSet := ⟨0⟩

instance : EmptyCollection IndexSet := ⟨empty⟩

/-- The set with one member, or none if the index has no bit. -/
def singleton (index : Nat) : IndexSet := ⟨bit index⟩

/-- The mask of all indexes below `n`; past the capacity, of all indexes. -/
def maskBelow (n : Nat) : UInt64 :=
  if n < capacity then (1 <<< n.toUInt64) - 1 else ~~~ 0

/-- All indexes below `n`. -/
def below (n : Nat) : Except CapacityExceeded IndexSet :=
  if n ≤ capacity then .ok ⟨maskBelow n⟩ else .error ⟨n⟩

/-- Whether the set has no members. -/
def isEmpty (s : IndexSet) : Bool := s.bits == 0

/-- Whether the index is a member. -/
def contains (s : IndexSet) (index : Nat) : Bool := s.bits &&& bit index != 0

/-- The set with one more member. -/
def insert (s : IndexSet) (index : Nat) : IndexSet := ⟨s.bits ||| bit index⟩

/-- The set with one member fewer. -/
def erase (s : IndexSet) (index : Nat) : IndexSet := ⟨s.bits &&& ~~~ bit index⟩

/-- The number of members. -/
def size (s : IndexSet) : Nat := (List.range capacity).countP s.contains

/-- A mask without its lowest set bit. -/
def clearLowest (mask : UInt64) : UInt64 := mask &&& (mask - 1)

/-- The lowest set bit of a mask, on its own. -/
def lowestBit (mask : UInt64) : UInt64 := mask - clearLowest mask

theorem clearLowest_lt {mask : UInt64} (h : mask ≠ 0) :
    (clearLowest mask).toNat < mask.toNat := by
  have pos : 0 < mask.toNat := by
    rcases Nat.eq_zero_or_pos mask.toNat with h0 | h0
    · exact absurd (UInt64.toNat_inj.1 h0) h
    · exact h0
  have pred : (mask - 1).toNat = mask.toNat - 1 :=
    UInt64.toNat_sub_of_le _ _ (UInt64.le_iff_toNat_le.2 pos)
  have le : (clearLowest mask).toNat ≤ mask.toNat - 1 := by
    rw [clearLowest, UInt64.toNat_and, pred]
    exact Nat.and_le_right
  omega

/-- The indexes of the bits set in a mask, lowest first. -/
def bitIndexes (mask : UInt64) : List Nat :=
  if _h : mask = 0 then []
  else (lowestBit mask).toNat.log2 :: bitIndexes (clearLowest mask)
termination_by mask.toNat
decreasing_by exact clearLowest_lt _h

/-- The members in ascending order. -/
def toList (s : IndexSet) : List Nat := bitIndexes s.bits

/-- The members in braces, for example `{0, 3}`. -/
def text (s : IndexSet) : String :=
  "\x7b" ++ ", ".intercalate (s.toList.map toString) ++ "\x7d"

/-- Sets are ordered by their masks. -/
def compare (s t : IndexSet) : Ordering := compareOfLessAndEq s.bits t.bits

end IndexSet
end LeftDeep
