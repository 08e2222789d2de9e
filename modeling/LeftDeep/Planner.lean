import LeftDeep.Plan.Basic
import LeftDeep.Problem.OfInputs

/-!
# Planning a query

From all that planning depends on to a finished plan.

## Main definitions

* `Inputs.planWith`: the plan that a given search finds.
* `Inputs.plan`: the plan under a configuration.
-/

namespace LeftDeep.Inputs

/-- The plan that a search finds for the query. -/
def planWith (inputs : Inputs) (search : Search) : Except PlanError Plan := do
  let problem ← inputs.problem
  problem.plan search

/-- The plan for the query, by the search that the configuration chooses for its joins. -/
def plan (inputs : Inputs) (config : SearchConfig) : Except PlanError Plan :=
  inputs.planWith (config.searchFor inputs.query.joins.length)

end LeftDeep.Inputs
