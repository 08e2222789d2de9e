import Mathlib.Data.List.Forall2
import LeftDeep.Planner
import LeftDeep.Proofs.Plan.Interning
import LeftDeep.Proofs.Search.Run

/-!
# What a finished plan places

A finished plan lists every join of the query once, each as written or with its sides exchanged,
and each after the first shares exactly one of its aliases with the joins before it. Replaying the
joins gives back the orientations and the estimates of the listing.

## Main definitions

* `Inputs.IsPlannedAs`: a planned join stands for a placed step.
* `Inputs.IsPlacement`: what a finished plan satisfies, for the order of its joins.

## Main statements

* `Inputs.isPlannedAs_iff`: the listing shows every condition with its outer side on the left.
* `Inputs.exists_isPlacement`: the plans of both searches satisfy it.
-/

namespace LeftDeep.Inputs

open Problem

variable {inputs : Inputs} {p : Problem} {placed : PartialPlan} {plan : Plan} {search : Search}

/-- A planned join shows the condition of a placed step and the estimate of the step. The condition
is shown as written if its left side is the outer one, and with its sides exchanged if the right
one is. -/
def IsPlannedAs (inputs : Inputs) (s : Step) (t : PlannedJoin) : Prop :=
  ∃ c, inputs.query.joins[s.join]? = some c ∧ (s.outer = .left → t.condition = c) ∧
    (s.outer = .right → t.condition = c.swap) ∧ t.toEstimate = s.toEstimate

/-- A finished plan that places the joins of a query in the given order. -/
structure IsPlacement (inputs : Inputs) (plan : Plan) (order : List ℕ) : Prop where
  /-- Every join of the query is placed once. -/
  perm : order.Perm (List.range inputs.query.joins.length)
  /-- A join is placed as written or with its sides exchanged, one with a sub-query as written. -/
  written : List.Forall₂ (fun i t => ∃ c, inputs.query.joins[i]? = some c ∧
    (t.condition = c ∨ t.condition = c.swap) ∧ (c.isSubquery = true → t.condition = c))
    order plan.steps
  /-- Of the aliases of a join after the first, exactly one is an alias of an earlier join. -/
  connected : ∀ before t after, plan.steps = before ++ t :: after → before ≠ [] →
    t.condition.NamesOnce fun name => ∃ earlier ∈ before, name ∈ earlier.condition.aliases
  /-- Replaying the joins gives the orientations and estimates of the plan. -/
  replayed : ∃ p placed, inputs.problem = .ok p ∧ p.replay? ∅ order = some placed ∧
    List.Forall₂ inputs.IsPlannedAs placed.steps plan.steps

/-! ## From steps to planned joins -/

theorem withOuter_eq_or (c : Condition) (outer : OuterSide) :
    c.withOuter outer = c ∨ c.withOuter outer = c.swap := by
  cases outer with
  | left => exact .inl rfl
  | right => exact .inr rfl

theorem withOuter_of_isSubquery {c : Condition} (h : c.isSubquery = true) (outer : OuterSide) :
    c.withOuter outer = c := by
  obtain ⟨left, op, right⟩ := c
  cases right with
  | subquery => cases outer <;> rfl
  | column ref => exact absurd h Bool.false_ne_true

theorem mem_aliases_withOuter (c : Condition) (outer : OuterSide) (name : String) :
    name ∈ (c.withOuter outer).aliases ↔ name ∈ c.aliases := by
  cases outer with
  | left => rfl
  | right => exact c.mem_aliases_swap name

theorem namesOnce_withOuter (c : Condition) (outer : OuterSide) (named : String → Prop) :
    (c.withOuter outer).NamesOnce named ↔ c.NamesOnce named := by
  cases outer with
  | left => rfl
  | right => exact c.namesOnce_swap named

theorem isPlannedAs_iff {s : Step} {t : PlannedJoin} : inputs.IsPlannedAs s t ↔
    ∃ c, inputs.query.joins[s.join]? = some c ∧ t.condition = c.withOuter s.outer ∧
      t.toEstimate = s.toEstimate := by
  rw [IsPlannedAs]
  cases s.outer <;> simp [Condition.withOuter]

/-- Every step of a problem's plan has a planned join. -/
theorem forall₂_filterMap_plannedJoin? (h : inputs.problem = .ok p) {steps : List Step}
    (lt : ∀ s ∈ steps, s.join < p.size) :
    List.Forall₂ inputs.IsPlannedAs steps (steps.filterMap (Plan.plannedJoin? p)) := by
  induction steps with
  | nil => exact .nil
  | cons s rest ih =>
    have small : s.join < inputs.query.joins.length :=
      size_of_problem h ▸ lt s List.mem_cons_self
    have found : inputs.query.joins[s.join]? = some inputs.query.joins[s.join] :=
      List.getElem?_eq_getElem small
    have planned : Plan.plannedJoin? p s = some
        { toEstimate := s.toEstimate
          condition := inputs.query.joins[s.join].withOuter s.outer } := by
      rw [Plan.plannedJoin?, condition?_of_problem h, found, Option.map_some]
    rw [List.filterMap_cons_some planned]
    refine .cons (isPlannedAs_iff.2 ⟨_, found, rfl, rfl⟩) (ih ?_)
    intro s mem
    exact lt s (List.mem_cons_of_mem _ mem)

/-- The planned joins name the aliases that the joins of the steps name. -/
theorem isNamed_iff {steps : List Step} {planned : List PlannedJoin}
    (h : List.Forall₂ inputs.IsPlannedAs steps planned) (name : String) :
    inputs.IsNamed (steps.map Step.join) name ↔ ∃ t ∈ planned, name ∈ t.condition.aliases := by
  induction h with
  | nil => simp [IsNamed]
  | @cons s t steps planned head _ ih =>
    obtain ⟨c, found, eq, -⟩ := isPlannedAs_iff.1 head
    have first : (∃ c, inputs.query.joins[s.join]? = some c ∧ name ∈ c.aliases) ↔
        name ∈ t.condition.aliases := by
      rw [eq, mem_aliases_withOuter, found]
      simp
    rw [IsNamed] at ih ⊢
    simp only [List.map_cons, List.mem_cons, exists_eq_or_imp, first, ih]

/-! ## The plans of the searches -/

theorem planWith_of_problem (h : inputs.problem = .ok p) (search : Search) :
    inputs.planWith search = p.plan search := by
  rw [planWith, h]
  rfl

theorem planWith_of_run (h : inputs.problem = .ok p) (search : Search)
    (run : p.run search = .ok placed) :
    inputs.planWith search = .ok (Plan.ofPartial p search placed) := by
  rw [planWith_of_problem h, Problem.plan, run]
  rfl

theorem exists_of_planWith (h : inputs.planWith search = .ok plan) :
    ∃ p placed, inputs.problem = .ok p ∧ p.run search = .ok placed ∧
      plan = Plan.ofPartial p search placed := by
  rw [planWith] at h
  cases problem : inputs.problem with
  | error e =>
    simp only [problem, bind, Except.bind] at h
    exact absurd h (by simp)
  | ok p =>
    simp only [problem, bind, Except.bind, Problem.plan] at h
    cases run : p.run search with
    | error e =>
      simp only [run, Except.map] at h
      exact absurd h (by simp)
    | ok placed =>
      simp only [run, Except.map, Except.ok.injEq] at h
      exact ⟨p, placed, rfl, run, h.symm⟩

/-- Within a replayed order, a join is appended to the plan of the joins before it. -/
theorem exists_nextStep?_of_replay? {first rest : List ℕ} {i : ℕ}
    (h : p.replay? ∅ (first ++ i :: rest) = some placed) :
    ∃ prior s, prior.joins = first ∧ p.nextStep? prior i = some s := by
  rw [List.append_cons, replay?_append] at h
  obtain ⟨middle, replayed, -⟩ := Option.bind_eq_some_iff.1 h
  obtain ⟨prior, s, priorReplayed, step, -⟩ := replay?_concat_eq_some_iff.1 replayed
  exact ⟨prior, s, joins_of_replay?_empty priorReplayed, step⟩

/-- A plan of a problem's joins that is rebuilt by a replay shows each of them connected to the
ones before it. -/
theorem connected_of_replay? (h : inputs.problem = .ok p)
    (replayed : p.replay? ∅ placed.joins = some placed) {planned : List PlannedJoin}
    (plannedAs : List.Forall₂ inputs.IsPlannedAs placed.steps planned)
    {before after : List PlannedJoin} {t : PlannedJoin} (split : planned = before ++ t :: after)
    (ne : before ≠ []) :
    t.condition.NamesOnce fun name => ∃ earlier ∈ before, name ∈ earlier.condition.aliases := by
  rw [split] at plannedAs
  have front := List.forall₂_take_append _ _ _ plannedAs
  have back := List.forall₂_drop_append _ _ _ plannedAs
  obtain ⟨s, rest, head, -, dropped⟩ := List.forall₂_cons_right_iff.1 back
  obtain ⟨c, found, eq, -⟩ := isPlannedAs_iff.1 head
  have steps : placed.steps = placed.steps.take before.length ++ s :: rest := by
    rw [← dropped, List.take_append_drop]
  have joins : placed.joins =
      (placed.steps.take before.length).map Step.join ++ s.join :: rest.map Step.join := by
    rw [PartialPlan.joins]
    conv_lhs => rw [steps]
    rw [List.map_append, List.map_cons]
  rw [joins] at replayed
  obtain ⟨prior, s', priorJoins, step⟩ := exists_nextStep?_of_replay? replayed
  have nonempty : prior.joins ≠ [] := by
    have length := front.length_eq
    have pos := List.length_pos_iff.2 ne
    rw [priorJoins]
    apply List.ne_nil_of_length_pos
    rw [List.length_map, length]
    exact pos
  have names := namesOnce_of_nextStep? h nonempty step found
  rw [priorJoins] at names
  have same : inputs.IsNamed ((placed.steps.take before.length).map Step.join) =
      fun name => ∃ earlier ∈ before, name ∈ earlier.condition.aliases := by
    ext name
    exact isNamed_iff front name
  rw [eq, namesOnce_withOuter, ← same]
  exact names

/-- A plan that either search returns places every join of the query once and without a cross
product, and replaying its joins gives back its orientations and estimates. -/
theorem exists_isPlacement (h : inputs.planWith search = .ok plan) :
    ∃ order, inputs.IsPlacement plan order := by
  obtain ⟨p, placed, problem, run, rfl⟩ := exists_of_planWith h
  have placesAll := placesAll_of_run run
  have lt : ∀ s ∈ placed.steps, s.join < p.size := by
    intro s mem
    exact lt_size_of_replay? placesAll.replay s.join (List.mem_map_of_mem mem)
  have plannedAs := forall₂_filterMap_plannedJoin? problem lt
  refine ⟨placed.joins, ?_, ?_, ?_, p, placed, problem, placesAll.replay, plannedAs⟩
  · rw [← size_of_problem problem]
    exact placesAll.perm
  · refine List.forall₂_map_left_iff.2 (plannedAs.imp ?_)
    intro s t shown
    obtain ⟨c, found, eq, -⟩ := isPlannedAs_iff.1 shown
    rw [eq]
    exact ⟨c, found, withOuter_eq_or c s.outer, fun sub => withOuter_of_isSubquery sub s.outer⟩
  · intro before t after split ne
    exact connected_of_replay? problem placesAll.replay plannedAs split ne

/-- The greedy plan of the chain is such a plan. -/
theorem chain_isPlacement :
    chain.planWith .greedy = .ok (Plan.ofPartial Problem.chain .greedy chainPlan) ∧
      ∃ order, chain.IsPlacement (Plan.ofPartial Problem.chain .greedy chainPlan) order := by
  have planned := planWith_of_run problem_chain .greedy greedy_chain
  exact ⟨planned, exists_isPlacement planned⟩

end LeftDeep.Inputs
