import LeftDeep.IndexSet.Subsets
import LeftDeep.PlanError
import LeftDeep.PlanTable
import LeftDeep.Problem.Basic

/-!
# The exhaustive search

Finds a best plan for every set of joins, the small sets first. A plan for a set is the best plan
for the set without one of its joins, followed by that join; of equally cheap ones, the join that
comes first in the query is last in the plan. Sets without a plan are not in the table.

## Main definitions

* `Problem.bestPlan?`: the best plan for a set, given the table of the smaller sets.
* `Problem.planTable`: the table of all sets.
* `Problem.exhaustive`: the plan for the set of all joins.
-/

namespace LeftDeep.Problem

/-- The cost that a plan has to stay below: that of the best one, if there is one. -/
def ceiling (best : Option PartialPlan) : Cost :=
  match best with
  | none => 1.0 / 0.0
  | some plan => plan.cost

/-- Keeps the best plan unless the candidate costs less. -/
def improve (best : Option PartialPlan) (candidate : PartialPlan) : Option PartialPlan :=
  if ceiling best ≤ candidate.cost then best else some candidate

/-- The best plan for a set without one of its joins. -/
def priorPlan? (table : PlanTable) (set : IndexSet) (last : Nat) : Option PartialPlan :=
  let rest := set.erase last
  if rest.isEmpty then some ∅ else table.find? rest

/-- The plan for a set that has the given join last. -/
def candidate? (p : Problem) (table : PlanTable) (set : IndexSet) (last : Nat) :
    Option PartialPlan := do
  let prior ← priorPlan? table set last
  let s ← p.nextStep? prior last
  some (prior.extend s)

/-- The best plan for a set. -/
def bestPlan? (p : Problem) (table : PlanTable) (set : IndexSet) : Option PartialPlan :=
  (set.toList.filterMap (p.candidate? table set)).foldl improve none

/-- Enters the best plan for a set, if there is one. -/
def enter (p : Problem) (table : PlanTable) (set : IndexSet) : PlanTable :=
  match p.bestPlan? table set with
  | none => table
  | some plan => table.insert set plan

/-- Enters the plans for all sets of one size. -/
def enterSize (p : Problem) (table : PlanTable) (size : Nat) : PlanTable :=
  (Subsets.within p.size size).foldl p.enter table

/-- The best plans for all sets of joins. There may be no more joins than a set can hold. -/
def planTable (p : Problem) : Except PlanError PlanTable :=
  if p.size ≤ IndexSet.capacity then
    .ok ((List.range' 1 p.size).foldl p.enterSize ∅)
  else .error (.tooManyJoins p.size IndexSet.capacity)

/-- The plan that the exhaustive search finds. -/
def exhaustive (p : Problem) : Except PlanError PartialPlan :=
  if p.size = 0 then .ok ∅
  else do
    let table ← p.planTable
    match table.find? ⟨IndexSet.maskBelow p.size⟩ with
    | some plan => .ok plan
    | none => .error (.infeasible p.size)

end LeftDeep.Problem
