import LeftDeep.Planner
import LeftDeep.Proofs.Checked.Drawing
import LeftDeep.Proofs.Plan.Relations
import LeftDeep.Proofs.Search.Failure

/-!
# Planning without a fault

From a query to the drawing of its plan, all in checked form. Whatever the query, the catalog, the
statistics and the selectivities are, and whichever search is chosen, no operation leaves its
domain: the outcome is the plan and its drawing, or one of the errors for which there is no plan.

## Main definitions

* `Checked.planWith`, `Checked.explain`: a plan and its drawing in checked form.
* `Inputs.StaysInBounds`: all that keeps planning within the domains.

## Main statements

* `Checked.planWith_eq_ok`: planning does not fault.
* `Checked.explain_eq_ok`: nor does drawing the plan.
* `Inputs.planWith_eq_tooManyJoins_iff`: when a search cannot address the joins.
* `Inputs.staysInBounds`: all of it for every input.
-/

namespace LeftDeep

namespace Checked

/-- The joins of a plan, each with its outer side on the left. -/
def plannedJoins (p : Problem) (steps : List Step) : Checked (List PlannedJoin) :=
  steps.mapM fun s => do
    let j ← get p.joins s.join
    .ok { toEstimate := s.toEstimate, condition := j.condition.withOuter s.outer }

/-- The plan that a search finds for a query. -/
def planWith (inputs : Inputs) (search : Search) : Checked (Except PlanError Plan) := do
  match ← problem inputs with
  | .error e => .ok (.error e)
  | .ok p => do
    match ← run p search with
    | .error e => .ok (.error e)
    | .ok placed => do
      let steps ← plannedJoins p placed.steps
      .ok (.ok { search, steps, scans := p.scans })

/-- The plan that a search finds for a query, and its drawing. -/
def explain (inputs : Inputs) (search : Search) : Checked (Except PlanError (Plan × String)) := do
  match ← planWith inputs search with
  | .error e => .ok (.error e)
  | .ok plan => do
    let text ← drawing plan
    .ok (.ok (plan, text))

end Checked

/-! ## Finished plans -/

namespace Inputs

variable {inputs : Inputs} {p : Problem} {placed : PartialPlan} {search : Search} {plan : Plan}

/-- The plans of both searches place joins of the problem. -/
theorem placesOwn_of_run (h : p.run search = .ok placed) : p.PlacesOwn placed := by
  intro s mem
  have placesAll := Problem.placesAll_of_run h
  exact Problem.lt_size_of_replay? placesAll.replay s.join (List.mem_map_of_mem mem)

/-- Of the joins of a finished plan, each after the first shares one alias with those before it. -/
theorem isConnected_of_planWith (h : inputs.planWith search = .ok plan) :
    Plan.IsConnected plan.steps := by
  obtain ⟨order, placement⟩ := exists_isPlacement h
  exact placement.connected

/-- The tree of a finished plan is put together from nodes that come after their children. -/
theorem exists_arena_of_planWith (h : inputs.planWith search = .ok plan) :
    ∃ a, Checked.arena plan = .ok a ∧ Arena.IsOrdered a.nodes := by
  rcases eq_or_ne plan.steps [] with nil | ne
  · refine ⟨Arena.empty, by rw [Checked.arena, nil]; rfl, ?_⟩
    intro i node found
    exact absurd found (by simp [Arena.empty])
  · obtain ⟨a, c, array, -, holds, -⟩ :=
      (isConnected_of_planWith h).exists_holds ne plan.leafLabel
    exact ⟨a, array, holds.ordered⟩

/-! ## Too many joins -/

theorem exhaustive_eq_tooManyJoins (large : IndexSet.capacity < p.size) :
    p.exhaustive = .error (.tooManyJoins p.size IndexSet.capacity) := by
  have nonempty : p.size ≠ 0 := (Nat.zero_lt_of_lt large).ne'
  rw [Problem.exhaustive, if_neg nonempty, Problem.planTable, if_neg (Nat.not_le_of_gt large)]
  rfl

theorem run_eq_tooManyJoins_iff {count limit : ℕ} :
    p.run search = .error (.tooManyJoins count limit) ↔
      search = .exhaustive ∧ IndexSet.capacity < p.size ∧ count = p.size ∧
        limit = IndexSet.capacity := by
  constructor
  · intro fails
    cases search with
    | greedy =>
      obtain ⟨conditions, -, -, eq⟩ := Problem.conditions_of_greedy_eq_error fails
      exact absurd eq (by simp)
    | exhaustive =>
      rcases Problem.eq_of_exhaustive_eq_error fails with infeasible | ⟨large, eq⟩
      · exact absurd infeasible (by simp)
      · injection eq with count limit
        exact ⟨rfl, large, count, limit⟩
  · rintro ⟨rfl, large, rfl, rfl⟩
    exact exhaustive_eq_tooManyJoins large

/-- Planning reports too many joins exactly if the exhaustive search cannot address them. -/
theorem planWith_eq_tooManyJoins_iff (h : inputs.problem = .ok p) {count limit : ℕ} :
    inputs.planWith search = .error (.tooManyJoins count limit) ↔
      search = .exhaustive ∧ 64 < inputs.query.joins.length ∧
        count = inputs.query.joins.length ∧ limit = 64 := by
  have capacity : IndexSet.capacity = 64 := rfl
  rw [planWith_of_problem h, Problem.plan, ← size_of_problem h, ← capacity,
    ← run_eq_tooManyJoins_iff]
  cases p.run search <;> simp [Except.map]

end Inputs

/-! ## No fault -/

namespace Checked

open Inputs

variable {p : Problem}

theorem plannedJoins_eq_ok {steps : List Step} (lt : ∀ s ∈ steps, s.join < p.size) :
    plannedJoins p steps = .ok (steps.filterMap (Plan.plannedJoin? p)) := by
  apply mapM_eq_ok_filterMap
  intro s mem
  obtain ⟨j, found, eq⟩ := exists_get (lt s mem)
  refine ⟨_, by rw [eq, ok_bind], ?_⟩
  rw [Plan.plannedJoin?, Problem.condition?, found]
  rfl

/-- Planning a query does not fault. -/
theorem planWith_eq_ok (inputs : Inputs) (search : Search) :
    planWith inputs search = .ok (inputs.planWith search) := by
  rw [planWith, problem_eq_ok, ok_bind, Inputs.planWith]
  cases problem : inputs.problem with
  | error e => rfl
  | ok p =>
    simp only [run_eq_ok (isIndexed_of_problem problem), ok_bind]
    cases run : p.run search with
    | error e =>
      simp only [bind, Except.bind, Problem.plan, run]
      rfl
    | ok placed =>
      simp only [plannedJoins_eq_ok (placesOwn_of_run run), ok_bind]
      simp only [bind, Except.bind, Problem.plan, run]
      rfl

/-- Nor does drawing the plan. -/
theorem explain_eq_ok (inputs : Inputs) (search : Search) :
    explain inputs search =
      .ok ((inputs.planWith search).map fun plan => (plan, plan.drawing)) := by
  rw [explain, planWith_eq_ok, ok_bind]
  cases planned : inputs.planWith search with
  | error e => rfl
  | ok plan =>
    simp only [(isConnected_of_planWith planned).drawing_eq_ok, ok_bind]
    rfl

end Checked

/-- What keeps the planning of a query and the drawing of its plan within the domains of all
operations. -/
structure Inputs.StaysInBounds (inputs : Inputs) : Prop where
  /-- Neither search faults, and neither does the drawing of its plan. -/
  explain_eq : ∀ search, Checked.explain inputs search =
    .ok ((inputs.planWith search).map fun plan => (plan, plan.drawing))
  /-- The same holds for the search that a configuration chooses. -/
  configured : ∀ config : SearchConfig,
    Checked.explain inputs (config.searchFor inputs.query.joins.length) =
      .ok ((inputs.plan config).map fun plan => (plan, plan.drawing))
  /-- Joins refer to relations by index. -/
  relations_lt : ∀ p, inputs.problem = .ok p → p.IsIndexed
  /-- Steps of plans refer to joins by index. -/
  steps_lt : ∀ p search placed, inputs.problem = .ok p → p.run search = .ok placed →
    p.PlacesOwn placed
  /-- So do the plans in the table of the exhaustive search. -/
  entries_lt : ∀ p table, inputs.problem = .ok p → p.planTable = .ok table →
    p.TablePlacesOwn table
  /-- Nodes of trees come after their children. -/
  children_lt : ∀ search plan, inputs.planWith search = .ok plan →
    ∃ a, Checked.arena plan = .ok a ∧ Arena.IsOrdered a.nodes
  /-- More joins than a set can hold are an error of the exhaustive search. -/
  tooManyJoins_iff : ∀ p search count limit, inputs.problem = .ok p →
    (inputs.planWith search = .error (.tooManyJoins count limit) ↔
      search = .exhaustive ∧ 64 < inputs.query.joins.length ∧
        count = inputs.query.joins.length ∧ limit = 64)
  /-- A configuration meets that error if it chooses the exhaustive search. -/
  tooManyJoins_configured_iff : ∀ p (config : SearchConfig) count limit,
    inputs.problem = .ok p → (inputs.plan config = .error (.tooManyJoins count limit) ↔
      config.searchFor inputs.query.joins.length = .exhaustive ∧
        64 < inputs.query.joins.length ∧ count = inputs.query.joins.length ∧ limit = 64)

/-- Planning any query, by either search and under any configuration, and drawing the plan stays
within the domains of all operations. -/
theorem Inputs.staysInBounds (inputs : Inputs) : inputs.StaysInBounds := by
  constructor
  case explain_eq => exact Checked.explain_eq_ok inputs
  case configured => exact fun config => Checked.explain_eq_ok inputs _
  case relations_lt => exact fun p problem => isIndexed_of_problem problem
  case steps_lt => exact fun p search placed problem run => placesOwn_of_run run
  case entries_lt =>
    exact fun p table problem => Problem.tablePlacesOwn_of_planTable (isIndexed_of_problem problem)
  case children_lt => exact fun search plan planned => exists_arena_of_planWith planned
  case tooManyJoins_iff =>
    exact fun p search count limit problem => planWith_eq_tooManyJoins_iff problem
  case tooManyJoins_configured_iff =>
    exact fun p config count limit problem => planWith_eq_tooManyJoins_iff problem

end LeftDeep
