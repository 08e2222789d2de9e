import LeftDeep.Plan.Basic
import LeftDeep.Proofs.Search.Completeness

/-!
# What the searches return

Both searches return a plan that places every join once, and that is rebuilt by replaying its
joins. The greedy search replays them while it runs; the exhaustive search takes the plan from its
table.

## Main statements

* `Problem.exists_of_greedyFrom`: a run of the greedy search replays the remaining joins.
* `Problem.placesAll_of_run`: what either search returns.
-/

namespace LeftDeep.Problem

variable {p : Problem} {plan result : PartialPlan} {remaining : List ℕ}

/-- A plan of all joins, rebuilt from their order. -/
structure PlacesAll (p : Problem) (plan : PartialPlan) : Prop where
  perm : plan.joins.Perm (List.range p.size)
  replay : p.replay? ∅ plan.joins = some plan

theorem PlacesAll.crossProductFree (h : p.PlacesAll plan) : p.CrossProductFree plan.joins := by
  rw [CrossProductFree, h.replay]
  rfl

/-! ## The greedy search -/

/-- The cheapest step is the one that appends its join. -/
theorem nextStep?_of_cheapest? {s : Step} (h : p.cheapest? plan remaining = some s) :
    p.nextStep? plan s.join = some s := by
  rcases mem_of_foldl_cheaper h with mem | start
  · obtain ⟨i, -, step⟩ := List.mem_filterMap.1 mem
    rw [join_of_nextStep? step]
    exact step
  · exact absurd start (by simp)

theorem replay?_cons {s : Step} {order : List ℕ} (step : p.nextStep? plan s.join = some s) :
    p.replay? plan (s.join :: order) = p.replay? (plan.extend s) order := by
  rw [replay?, List.foldlM_cons, append?, step]
  rfl

/-- A run of the greedy search replays the remaining joins in some order. -/
theorem exists_of_greedyFrom (h : p.greedyFrom plan remaining = .ok result) :
    ∃ order, order.Perm remaining ∧ p.replay? plan order = some result := by
  fun_induction greedyFrom p plan remaining with
  | case1 plan remaining empty =>
    obtain rfl := Except.ok.inj h
    obtain rfl := List.isEmpty_iff.1 empty
    exact ⟨[], List.Perm.refl [], rfl⟩
  | case2 plan remaining _ _ => exact absurd h (by simp)
  | case3 plan remaining _ s cheapest ih =>
    obtain ⟨order, perm, replayed⟩ := ih h
    have mem := join_mem_of_cheapest? cheapest
    refine ⟨s.join :: order, ?_, ?_⟩
    · exact (perm.cons s.join).trans (List.perm_cons_erase mem).symm
    · rw [replay?_cons (nextStep?_of_cheapest? cheapest)]
      exact replayed

theorem greedyFrom_nil (p : Problem) (plan : PartialPlan) : p.greedyFrom plan [] = .ok plan := by
  rw [greedyFrom, if_pos List.isEmpty_nil]

theorem greedy_of_size_eq_zero (zero : p.size = 0) : p.greedy = .ok ∅ := by
  rw [greedy, zero, List.range_zero, greedyFrom_nil]

/-- One round of the greedy search. -/
theorem greedyFrom_of_cheapest? {s : Step} (h : p.cheapest? plan remaining = some s) :
    p.greedyFrom plan remaining = p.greedyFrom (plan.extend s) (remaining.erase s.join) := by
  have nonempty : ¬remaining.isEmpty = true := by
    intro empty
    have mem := join_mem_of_cheapest? h
    rw [List.isEmpty_iff.1 empty] at mem
    exact absurd mem (by simp)
  rw [greedyFrom, if_neg nonempty]
  split
  · next none =>
    rw [h] at none
    exact absurd none (by simp)
  · next s' found =>
    rw [h] at found
    rw [Option.some.inj found]

deriving instance DecidableEq for Estimate, Step

/-- The plan that the greedy search finds for the chain. It starts with the join on the key. -/
def chainPlan : PartialPlan where
  steps := [{ join := 1, outer := .right, cost := 7, rows := 3 },
    { join := 0, outer := .left, cost := 19, rows := 2 },
    { join := 2, outer := .left, cost := 35, rows := 4 }]
  cost := 35
  rows := 4

theorem greedy_chain : chain.greedy = .ok chainPlan := by
  have first : chain.cheapest? ∅ [0, 1, 2] =
      some { join := 1, outer := .right, cost := 7, rows := 3 } := by
    decide +kernel
  have second : chain.cheapest? (PartialPlan.extend ∅
      { join := 1, outer := .right, cost := 7, rows := 3 }) [0, 2] =
      some { join := 0, outer := .left, cost := 19, rows := 2 } := by
    decide +kernel
  have third : chain.cheapest? ((PartialPlan.extend ∅
      { join := 1, outer := .right, cost := 7, rows := 3 }).extend
      { join := 0, outer := .left, cost := 19, rows := 2 }) [2] =
      some { join := 2, outer := .left, cost := 35, rows := 4 } := by
    decide +kernel
  calc chain.greedy
      = chain.greedyFrom ∅ [0, 1, 2] := rfl
    _ = chain.greedyFrom _ [0, 2] := greedyFrom_of_cheapest? first
    _ = chain.greedyFrom _ [2] := greedyFrom_of_cheapest? second
    _ = chain.greedyFrom _ [] := greedyFrom_of_cheapest? third
    _ = .ok chainPlan := greedyFrom_nil chain chainPlan

theorem placesAll_of_greedy (h : p.greedy = .ok plan) : p.PlacesAll plan := by
  obtain ⟨order, perm, replayed⟩ := exists_of_greedyFrom h
  have joins := joins_of_replay?_empty replayed
  exact ⟨joins ▸ perm, joins ▸ replayed⟩

/-! ## The exhaustive search -/

/-- What the exhaustive search returns is the entry of all joins. -/
theorem exists_entry_of_exhaustive (pos : 0 < p.size) (h : p.exhaustive = .ok plan) :
    ∃ table, p.planTable = .ok table ∧ p.IsPlanTable table ∧ p.size ≤ IndexSet.capacity ∧
      table.find? p.allJoins = some plan := by
  have le : p.size ≤ IndexSet.capacity := by
    by_contra lt
    rw [exhaustive, if_neg pos.ne', planTable, if_neg lt] at h
    exact absurd h (by simp [bind, Except.bind])
  obtain ⟨table, eq, isPlanTable⟩ := exists_planTable le
  refine ⟨table, eq, isPlanTable, le, ?_⟩
  cases found : table.find? p.allJoins with
  | some plan' =>
    rw [exhaustive_eq_ok pos eq found] at h
    rw [Except.ok.inj h]
  | none =>
    rw [exhaustive_eq_error pos eq found] at h
    exact absurd h (by simp)

theorem placesAll_of_exhaustive (h : p.exhaustive = .ok plan) : p.PlacesAll plan := by
  by_cases zero : p.size = 0
  · rw [exhaustive_of_size_eq_zero zero] at h
    obtain rfl := Except.ok.inj h
    constructor
    · rw [zero]
      exact List.Perm.refl []
    · rfl
  · have pos := Nat.pos_of_ne_zero zero
    obtain ⟨table, -, isPlanTable, le, found⟩ := exists_entry_of_exhaustive pos h
    exact ⟨(isPlanTable.perm found).trans (toList_allJoins le), isPlanTable.replay found⟩

/-- Either search returns a plan of all joins. -/
theorem placesAll_of_run {search : Search} (h : p.run search = .ok plan) : p.PlacesAll plan := by
  cases search with
  | greedy => exact placesAll_of_greedy h
  | exhaustive => exact placesAll_of_exhaustive h

end LeftDeep.Problem
