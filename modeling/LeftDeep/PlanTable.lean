import Std.Data.HashMap
import LeftDeep.IndexSet.Basic
import LeftDeep.PartialPlan

/-!
# The table of best plans

For sets of joins, the best plan known that places exactly these joins.

## Main definitions

* `PlanTable`: a table from sets of joins to plans.
* `PlanTable.find?`, `PlanTable.insert`, `PlanTable.erase`: look-up and changes.
* `PlanTable.toList`: the entries by ascending mask.
-/

namespace LeftDeep

/-- The best plan known for each set of joins. -/
structure PlanTable where
  plans : Std.HashMap IndexSet PartialPlan

namespace PlanTable

/-- The table without plans. -/
def empty : PlanTable := ⟨∅⟩

instance : EmptyCollection PlanTable := ⟨empty⟩
instance : Inhabited PlanTable := ⟨empty⟩

/-- The plan for a set. -/
def find? (t : PlanTable) (s : IndexSet) : Option PartialPlan := t.plans[s]?

/-- Whether there is a plan for a set. -/
def contains (t : PlanTable) (s : IndexSet) : Bool := t.plans.contains s

/-- Records the plan for a set, in place of an earlier one. -/
def insert (t : PlanTable) (s : IndexSet) (p : PartialPlan) : PlanTable := ⟨t.plans.insert s p⟩

/-- Forgets the plan for a set. -/
def erase (t : PlanTable) (s : IndexSet) : PlanTable := ⟨t.plans.erase s⟩

/-- The number of sets with a plan. -/
def size (t : PlanTable) : Nat := t.plans.size

/-- Whether no set has a plan. -/
def isEmpty (t : PlanTable) : Bool := t.plans.isEmpty

/-- The entries by ascending mask. -/
def toList (t : PlanTable) : List (IndexSet × PartialPlan) :=
  t.plans.toList.mergeSort fun a b => a.1.bits ≤ b.1.bits

@[simp] theorem find?_empty (s : IndexSet) : empty.find? s = none := by
  simp [find?, empty]

theorem find?_insert (t : PlanTable) (s s' : IndexSet) (p : PartialPlan) :
    (t.insert s p).find? s' = if s = s' then some p else t.find? s' := by
  simp [find?, insert, Std.HashMap.getElem?_insert]

theorem find?_erase (t : PlanTable) (s s' : IndexSet) :
    (t.erase s).find? s' = if s = s' then none else t.find? s' := by
  simp [find?, erase, Std.HashMap.getElem?_erase]

end PlanTable
end LeftDeep
