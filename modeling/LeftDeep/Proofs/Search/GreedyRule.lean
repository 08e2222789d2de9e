import LeftDeep.Proofs.Search.GreedyCompleteness

/-!
# The rule of the greedy search

In every round the greedy search appends, of the joins not yet placed, the one that costs least to
append, and of equally cheap ones the one that comes first in the query. When none of them can be
appended it reports all of them.

The rounds are kept as the states of the loop: the plan so far and the joins that remain. What one
round preserves holds of every state.

## Main definitions

* `Problem.GreedyState`: the states that the loop runs through.
* `Problem.GreedyMeetsNumbers`: no cost that the search looks at is no number.
* `Problem.FollowsRule`: every step of a plan is the choice of the rule on the steps before it.

## Main statements

* `Problem.le_of_cheapest?`: the running minimum is the first of the cheapest steps.
* `Problem.GreedyState.remaining_eq`: what remains are the joins not placed, in their order.
* `Problem.GreedyState.followsRule`: the plan of every state follows the rule.
* `Problem.greedy_followsRule`: what the search returns, and what it reports.
-/

namespace LeftDeep

namespace PartialPlan

/-- The plan of some steps. -/
def ofSteps (steps : List Step) : PartialPlan := steps.foldl extend ∅

/-- The plan of the first `k` steps. -/
def take (plan : PartialPlan) (k : ℕ) : PartialPlan := ofSteps (plan.steps.take k)

@[simp] theorem steps_empty : (∅ : PartialPlan).steps = [] := rfl

@[simp] theorem joins_empty : (∅ : PartialPlan).joins = [] := rfl

theorem ofSteps_concat (steps : List Step) (s : Step) :
    ofSteps (steps ++ [s]) = (ofSteps steps).extend s := by
  simp [ofSteps]

theorem take_extend_of_le {plan : PartialPlan} {k : ℕ} (h : k ≤ plan.steps.length) (s : Step) :
    (plan.extend s).take k = plan.take k := by
  rw [take, steps_extend, List.take_append_of_le_length h, take]

theorem take_extend_length (plan : PartialPlan) (s : Step) :
    (plan.extend s).take plan.steps.length = ofSteps plan.steps := by
  rw [take_extend_of_le le_rfl, take, List.take_length]

/-- A step of an extended plan is one of the plan or the new one. -/
theorem getElem?_steps_extend {plan : PartialPlan} {s t : Step} {k : ℕ}
    (found : (plan.extend s).steps[k]? = some t) :
    plan.steps[k]? = some t ∧ (plan.extend s).take k = plan.take k ∨
      t = s ∧ (plan.extend s).take k = ofSteps plan.steps := by
  rw [steps_extend] at found
  rcases lt_trichotomy k plan.steps.length with lt | rfl | gt
  · rw [List.getElem?_append_left lt] at found
    exact .inl ⟨found, take_extend_of_le lt.le s⟩
  · rw [List.getElem?_concat_length, Option.some.injEq] at found
    exact .inr ⟨found.symm, take_extend_length plan s⟩
  · rw [List.getElem?_eq_none (by simp; omega)] at found
    exact absurd found (by simp)

end PartialPlan

namespace Problem

open Double PartialPlan

variable {p : Problem} {plan : PartialPlan} {remaining : List ℕ} {s : Step}

/-! ## The running minimum -/

theorem foldl_cheaper_concat (steps : List Step) (last : Step) :
    (steps ++ [last]).foldl cheaper none = cheaper (steps.foldl cheaper none) last := by
  simp

/-- Of steps in ascending order of their joins, the running minimum is the first of the
cheapest. -/
theorem le_of_foldl_cheaper {steps : List Step} {best : Step}
    (ascending : steps.Pairwise fun s t => s.join < t.join)
    (numbers : ∀ s ∈ steps, s.cost.isNaN = false) (h : steps.foldl cheaper none = some best) :
    ∀ t ∈ steps, best.cost ≤ t.cost ∧ (t.cost ≤ best.cost → best.join ≤ t.join) := by
  induction steps using List.reverseRecOn generalizing best with
  | nil => simp
  | append_singleton steps last ih =>
    obtain ⟨ascending, -, before⟩ := List.pairwise_append.1 ascending
    have numbers' : ∀ s ∈ steps, s.cost.isNaN = false := by
      intro s mem
      exact numbers s (List.mem_append_left _ mem)
    have number : last.cost.isNaN = false := numbers last (by simp)
    rw [foldl_cheaper_concat] at h
    cases prior : steps.foldl cheaper none with
    | none =>
      have nil : steps = [] := by
        cases steps with
        | nil => rfl
        | cons first rest =>
          have some := foldl_cheaper_isSome rest (show (some first).isSome = true from rfl)
          rw [List.foldl_cons, cheaper] at prior
          rw [prior] at some
          exact absurd some (by simp)
      rw [prior, cheaper, Option.some.injEq] at h
      subst h nil
      simp [le_refl number]
    | some b =>
      have least := ih ascending numbers' prior
      have mem : b ∈ steps := (mem_of_foldl_cheaper prior).resolve_right (by simp)
      rw [prior, cheaper] at h
      split at h
      · next less =>
        obtain rfl := Option.some.inj h
        intro t mem'
        rcases List.mem_append.1 mem' with mem' | mem'
        · have less := lt_of_lt_of_le less (least t mem').1
          exact ⟨le_of_lt less, fun le => absurd le (not_le_of_lt less)⟩
        · obtain rfl := List.mem_singleton.1 mem'
          exact ⟨le_refl number, fun _ => le_rfl⟩
      · next notLess =>
        obtain rfl := Option.some.inj h
        intro t mem'
        rcases List.mem_append.1 mem' with mem' | mem'
        · exact least t mem'
        · obtain rfl := List.mem_singleton.1 mem'
          have le := (not_lt_iff number (numbers' b mem)).1 notLess
          exact ⟨le, fun _ => (before b mem t (by simp)).le⟩

/-- The cheapest step that appends one of the given joins is the first of the cheapest. -/
theorem le_of_cheapest? (ascending : remaining.Pairwise (· < ·))
    (numbers : ∀ i ∈ remaining, ∀ t, p.nextStep? plan i = some t → t.cost.isNaN = false)
    (h : p.cheapest? plan remaining = some s) {i : ℕ} (mem : i ∈ remaining) {t : Step}
    (step : p.nextStep? plan i = some t) :
    s.cost ≤ t.cost ∧ (t.cost ≤ s.cost → s.join ≤ i) := by
  have ascending' : (remaining.filterMap (p.nextStep? plan)).Pairwise
      fun s t => s.join < t.join := by
    refine ascending.filterMap (p.nextStep? plan) ?_
    intro i i' lt s first t second
    rw [join_of_nextStep? first, join_of_nextStep? second]
    exact lt
  have numbers' : ∀ s ∈ remaining.filterMap (p.nextStep? plan), s.cost.isNaN = false := by
    intro s offered
    obtain ⟨i, mem, step⟩ := List.mem_filterMap.1 offered
    exact numbers i mem s step
  have least := le_of_foldl_cheaper ascending' numbers' h t (List.mem_filterMap.2 ⟨i, mem, step⟩)
  rwa [join_of_nextStep? step] at least

/-! ## The states of the loop -/

/-- The states of the greedy search: a plan, and the joins that remain. -/
inductive GreedyState (p : Problem) : PartialPlan → List ℕ → Prop
  | start : GreedyState p ∅ (List.range p.size)
  | append {plan : PartialPlan} {remaining : List ℕ} {s : Step} :
      GreedyState p plan remaining → p.cheapest? plan remaining = some s →
        GreedyState p (plan.extend s) (remaining.erase s.join)

/-- The costs that the greedy search evaluates are numbers. -/
def GreedyMeetsNumbers (p : Problem) : Prop :=
  ∀ plan remaining, p.GreedyState plan remaining → ∀ i ∈ remaining, ∀ s,
    p.nextStep? plan i = some s → s.cost.isNaN = false

/-- Every step of a plan appends a join not placed before, at a cost that no other join not placed
before stays below, and comes before all joins of the same cost. -/
structure FollowsRule (p : Problem) (plan : PartialPlan) : Prop where
  /-- The plan is made of its steps. -/
  eq_ofSteps : plan = ofSteps plan.steps
  /-- A join is placed once. -/
  fresh : ∀ k s, plan.steps[k]? = some s → s.join ∉ (plan.take k).joins
  /-- A step appends its join to the steps before it. -/
  step : ∀ k s, plan.steps[k]? = some s → p.nextStep? (plan.take k) s.join = some s
  /-- No other join could have been appended more cheaply, and none before it as cheaply. -/
  least : ∀ k s, plan.steps[k]? = some s → ∀ i t, i ∉ (plan.take k).joins →
    p.nextStep? (plan.take k) i = some t → s.cost ≤ t.cost ∧ (t.cost ≤ s.cost → s.join ≤ i)

theorem followsRule_empty (p : Problem) : p.FollowsRule ∅ := by
  constructor
  case eq_ofSteps => rfl
  all_goals
    intro k s found
    exact absurd found (by simp)

/-- One more choice of the rule. -/
theorem FollowsRule.extend (rule : p.FollowsRule plan) (fresh : s.join ∉ plan.joins)
    (step : p.nextStep? plan s.join = some s)
    (least : ∀ i t, i ∉ plan.joins → p.nextStep? plan i = some t →
      s.cost ≤ t.cost ∧ (t.cost ≤ s.cost → s.join ≤ i)) :
    p.FollowsRule (plan.extend s) := by
  have steps {k : ℕ} {t : Step} (found : (plan.extend s).steps[k]? = some t) :
      plan.steps[k]? = some t ∧ (plan.extend s).take k = plan.take k ∨
        t = s ∧ (plan.extend s).take k = plan := by
    have steps := getElem?_steps_extend found
    rwa [← rule.eq_ofSteps] at steps
  constructor
  case eq_ofSteps => rw [steps_extend, ofSteps_concat, ← rule.eq_ofSteps]
  case fresh =>
    intro k t found
    rcases steps found with ⟨earlier, eq⟩ | ⟨rfl, eq⟩
    · rw [eq]
      exact rule.fresh k t earlier
    · rw [eq]
      exact fresh
  case step =>
    intro k t found
    rcases steps found with ⟨earlier, eq⟩ | ⟨rfl, eq⟩
    · rw [eq]
      exact rule.step k t earlier
    · rw [eq]
      exact step
  case least =>
    intro k t found
    rcases steps found with ⟨earlier, eq⟩ | ⟨rfl, eq⟩
    · rw [eq]
      exact rule.least k t earlier
    · rw [eq]
      exact least

namespace GreedyState

/-- The joins that remain are those not placed, in the order of the query. -/
theorem remaining_eq (state : p.GreedyState plan remaining) :
    remaining = (List.range p.size).filter (· ∉ plan.joins) := by
  induction state with
  | start => simp
  | @append plan remaining s _ _ ih =>
    rw [ih, (List.nodup_range.sublist List.filter_sublist).erase_eq_filter, List.filter_filter]
    apply List.filter_congr
    intro i _
    rw [Bool.eq_iff_iff]
    simp [and_comm]

theorem mem_remaining_iff (state : p.GreedyState plan remaining) {i : ℕ} :
    i ∈ remaining ↔ i < p.size ∧ i ∉ plan.joins := by
  rw [state.remaining_eq, List.mem_filter, List.mem_range, decide_eq_true_iff]

theorem pairwise_remaining (state : p.GreedyState plan remaining) :
    remaining.Pairwise (· < ·) := by
  rw [state.remaining_eq]
  exact List.pairwise_lt_range.sublist List.filter_sublist

/-- The plan of every state follows the rule. -/
theorem followsRule (numbers : p.GreedyMeetsNumbers) (state : p.GreedyState plan remaining) :
    p.FollowsRule plan := by
  induction state with
  | start => exact p.followsRule_empty
  | @append plan remaining s state cheapest ih =>
    have mem := join_mem_of_cheapest? cheapest
    refine ih.extend (state.mem_remaining_iff.1 mem).2 (nextStep?_of_cheapest? cheapest) ?_
    intro i t notPlaced step
    have mem' := state.mem_remaining_iff.2 ⟨lt_size_of_nextStep? step, notPlaced⟩
    exact le_of_cheapest? state.pairwise_remaining (numbers plan remaining state) cheapest mem' step

/-- The joins of a state are placed once each, and replaying them gives its plan. -/
theorem replay (state : p.GreedyState plan remaining) :
    plan.joins.Nodup ∧ p.replay? ∅ plan.joins = some plan := by
  induction state with
  | start => exact ⟨List.nodup_nil, rfl⟩
  | @append plan remaining s state cheapest ih =>
    have fresh := (state.mem_remaining_iff.1 (join_mem_of_cheapest? cheapest)).2
    have step := nextStep?_of_cheapest? cheapest
    rw [joins_extend]
    exact ⟨List.concat_eq_append ▸ ih.1.concat fresh,
      replay?_concat_eq_some_iff.2 ⟨plan, s, ih.2, step, rfl⟩⟩

/-- A run from a state ends in a state without remaining joins, or in one where none of them can
be appended. -/
theorem exists_last (state : p.GreedyState plan remaining) :
    (∃ result, p.greedyFrom plan remaining = .ok result ∧ p.GreedyState result []) ∨
    ∃ last left, p.GreedyState last left ∧ left ≠ [] ∧ p.cheapest? last left = none ∧
      p.greedyFrom plan remaining = .error (.disconnected (left.filterMap p.condition?)) := by
  fun_induction greedyFrom p plan remaining with
  | case1 plan remaining empty =>
    rw [List.isEmpty_iff.1 empty] at state
    exact .inl ⟨plan, rfl, state⟩
  | case2 plan remaining nonempty none =>
    exact .inr ⟨plan, remaining, state, by simpa using nonempty, none, rfl⟩
  | case3 plan remaining nonempty s cheapest ih => exact ih (state.append cheapest)

/-- A state where none of the remaining joins can be appended has placed some joins already. -/
theorem joins_ne_nil (state : p.GreedyState plan remaining) (ne : remaining ≠ [])
    (none : p.cheapest? plan remaining = none) : plan.joins ≠ [] := by
  intro nil
  have empty : plan = ∅ := by
    have replayed := state.replay.2
    rw [nil] at replayed
    exact (Option.some.inj replayed).symm
  obtain ⟨i, mem⟩ := List.exists_mem_of_ne_nil remaining ne
  have lt := (state.mem_remaining_iff.1 mem).1
  obtain ⟨j, found⟩ := exists_join lt
  have some : (p.nextStep? plan i).isSome = true := by
    rw [empty, isSome_nextStep?_iff]
    exact ⟨j, found, rfl⟩
  obtain ⟨s, cheapest⟩ := exists_cheapest? mem some
  rw [none] at cheapest
  exact absurd cheapest (by simp)

end GreedyState

/-- If none is the cheapest of some joins, none of them can be appended. -/
theorem nextStep?_eq_none_of_cheapest? (none : p.cheapest? plan remaining = none) {i : ℕ}
    (mem : i ∈ remaining) : p.nextStep? plan i = Option.none := by
  rw [← Option.not_isSome_iff_eq_none]
  intro some
  obtain ⟨s, cheapest⟩ := exists_cheapest? mem some
  rw [none] at cheapest
  exact absurd cheapest (by simp)

/-- The conditions of joins, looked up one by one. -/
theorem map_some_filterMap_condition? (lt : ∀ i ∈ remaining, i < p.size) :
    (remaining.filterMap p.condition?).map some = remaining.map p.condition? := by
  induction remaining with
  | nil => rfl
  | cons i rest ih =>
    obtain ⟨j, found⟩ := exists_join (lt i List.mem_cons_self)
    have condition : p.condition? i = some j.condition := by
      rw [condition?, found, Option.map_some]
    rw [List.filterMap_cons_some condition, List.map_cons, List.map_cons, condition,
      ih fun i mem => lt i (List.mem_cons_of_mem _ mem)]

/-- A plan that the greedy search returns follows the rule and places all joins. A failure reports
the joins that are left of a plan which follows the rule, places some joins, and to which none of
the others can be appended. -/
theorem greedy_followsRule (numbers : p.GreedyMeetsNumbers) :
    (∀ plan, p.greedy = .ok plan →
      p.FollowsRule plan ∧ plan.joins.Perm (List.range p.size)) ∧
    ∀ conditions, p.greedy = .error (.disconnected conditions) →
      ∃ plan, p.FollowsRule plan ∧ plan.joins ≠ [] ∧
        (∀ i < p.size, i ∉ plan.joins → p.nextStep? plan i = none) ∧ conditions ≠ [] ∧
          conditions.map some =
            ((List.range p.size).filter (· ∉ plan.joins)).map p.condition? := by
  constructor
  · intro plan ok
    have last := (GreedyState.start (p := p)).exists_last
    rw [← greedy, ok] at last
    rcases last with ⟨result, eq, state⟩ | ⟨_, _, _, _, _, eq⟩
    · obtain rfl := Except.ok.inj eq
      exact ⟨state.followsRule numbers, (placesAll_of_greedy ok).perm⟩
    · exact absurd eq (by simp)
  · intro conditions error
    have last := (GreedyState.start (p := p)).exists_last
    rw [← greedy, error] at last
    rcases last with ⟨_, eq, _⟩ | ⟨plan, left, state, ne, none, eq⟩
    · exact absurd eq (by simp)
    · have lt : ∀ i ∈ left, i < p.size := by
        intro i mem
        exact (state.mem_remaining_iff.1 mem).1
      have reported : conditions.map some = left.map p.condition? := by
        rw [PlanError.disconnected.inj (Except.error.inj eq)]
        exact map_some_filterMap_condition? lt
      refine ⟨plan, state.followsRule numbers, state.joins_ne_nil ne none, ?_, ?_, ?_⟩
      · intro i lt notPlaced
        exact nextStep?_eq_none_of_cheapest? none (state.mem_remaining_iff.2 ⟨lt, notPlaced⟩)
      · rintro rfl
        exact ne (List.map_eq_nil_iff.1 reported.symm)
      · rw [reported, state.remaining_eq]

/-- If the costs along all orders are finite, the greedy search evaluates numbers only. -/
theorem StepsAreFinite.greedyMeetsNumbers (finite : p.StepsAreFinite) : p.GreedyMeetsNumbers := by
  intro plan remaining state i mem s step
  obtain ⟨nodup, replayed⟩ := state.replay
  have fresh := (state.mem_remaining_iff.1 mem).2
  have nodup' : (plan.joins ++ [i]).Nodup := List.concat_eq_append ▸ nodup.concat fresh
  exact isNaN_of_isFinite (finite plan.joins i plan s nodup' replayed step)

theorem selfJoin_stepsAreFinite : selfJoin.StepsAreFinite :=
  stepsAreFinite_of_orders (by decide +kernel)

/-- The greedy plan of the chain follows the rule. So does the one join that the search places
before it gets stuck on the join of a relation with itself. -/
theorem chain_greedy_followsRule :
    (chain.GreedyMeetsNumbers ∧ chain.greedy = .ok chainPlan ∧ chain.FollowsRule chainPlan) ∧
    selfJoin.GreedyMeetsNumbers ∧ ∃ plan, selfJoin.FollowsRule plan ∧ plan.joins ≠ [] ∧
      ∀ i < selfJoin.size, i ∉ plan.joins → selfJoin.nextStep? plan i = none := by
  have chainNumbers := chain_stepsAreFinite.greedyMeetsNumbers
  have selfNumbers := selfJoin_stepsAreFinite.greedyMeetsNumbers
  have stuck := (greedy_followsRule selfNumbers).2 _ greedy_selfJoin
  obtain ⟨plan, rule, ne, none, -⟩ := stuck
  exact ⟨⟨chainNumbers, greedy_chain, ((greedy_followsRule chainNumbers).1 _ greedy_chain).1⟩,
    selfNumbers, plan, rule, ne, none⟩

end Problem
end LeftDeep
