import LeftDeep.Search.Exhaustive
import LeftDeep.Search.Greedy
import LeftDeep.Strategy

/-!
# Finished plans

The order in which the joins of a query run, each with its outer side on the left and with the
estimate of the plan up to it, together with the scan estimates of the relations.

## Main definitions

* `Plan`: the joins in order.
* `Plan.text`: the listing of a plan.
* `Problem.plan`: the plan that a search finds.
-/

namespace LeftDeep

/-- A join of a finished plan, with the estimate of the plan up to it. -/
structure PlannedJoin extends Estimate where
  /-- The condition, with the outer side on the left. -/
  condition : Condition
  deriving BEq, Repr

/-- A left-deep plan of a query. -/
structure Plan where
  /-- The search that found the plan. -/
  search : Search
  steps : List PlannedJoin
  /-- The scan estimates of the relations that the joins read. -/
  scans : List (String × Estimate)
  deriving BEq, Repr

namespace Plan

/-- The join of a step, if the step is one of the problem. -/
def plannedJoin? (p : Problem) (s : Step) : Option PlannedJoin :=
  (p.condition? s.join).map fun c =>
    { toEstimate := s.toEstimate, condition := c.withOuter s.outer }

/-- The finished form of a plan for a problem. -/
def ofPartial (p : Problem) (search : Search) (plan : PartialPlan) : Plan :=
  { search, steps := plan.steps.filterMap (plannedJoin? p), scans := p.scans }

/-- The conditions in the order they run. -/
def conditions (plan : Plan) : List Condition := plan.steps.map PlannedJoin.condition

/-- The cost of the whole plan, zero if it has no joins. -/
def cost (plan : Plan) : Cost :=
  match plan.steps.getLast? with
  | some s => s.cost
  | none => 0

/-- The rows of the last join. -/
def rows? (plan : Plan) : Option Rows := plan.steps.getLast?.map fun s => s.rows

/-- The scan estimate of a relation. -/
def scan? (plan : Plan) (relation : String) : Option Estimate := plan.scans.lookup relation

/-- A line for each join, numbered from 1, between a heading and the total cost. -/
def text (plan : Plan) : String :=
  let line : PlannedJoin × Nat → String := fun (s, i) =>
    "\n  " ++ toString (i + 1) ++ ". " ++ s.condition.text ++ " " ++ s.toEstimate.text
  "Join order (" ++ plan.search.text ++ "):" ++ String.join (plan.steps.zipIdx.map line)
    ++ "\nTotal cost: " ++ plainText plan.cost

end Plan

namespace Problem

/-- Runs a search. -/
def run (p : Problem) : Search → Except PlanError PartialPlan
  | .greedy => p.greedy
  | .exhaustive => p.exhaustive

/-- The plan that a search finds. -/
def plan (p : Problem) (search : Search) : Except PlanError Plan :=
  (p.run search).map (Plan.ofPartial p search)

end Problem
end LeftDeep
