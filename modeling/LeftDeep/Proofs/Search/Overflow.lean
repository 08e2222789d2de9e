import LeftDeep.Proofs.Plan.Interning
import LeftDeep.Proofs.Search.Run

/-!
# Costs beyond the finite doubles

The exhaustive search looks for a cost below the infinity, so it drops a step whose cost is the
infinity. The greedy search takes such a step if there is no other. Hence the exhaustive search may
find no plan where the greedy one does, but only because it dropped a step.

## Main definitions

* `Problem.overflow`: a join whose cost is the infinity.

## Main statements

* `Problem.exhaustive_of_greedy`: what the exhaustive search does if the greedy one finds a plan.
* `Problem.not_exhaustive_of_greedy`: it does not always find one.
-/

namespace LeftDeep.Problem

open Double

variable {p : Problem} {plan : PartialPlan}

/-- If the greedy search finds a plan, then so does the exhaustive one, unless it drops a step that
appends the next join of that plan to the entry of the joins before it. -/
theorem exhaustive_of_greedy (h : p.size ≤ IndexSet.capacity) (greedy : p.greedy = .ok plan) :
    (∃ best, p.exhaustive = .ok best) ∨
    p.exhaustive = .error (.infeasible p.size) ∧ ∃ table front last prior s,
      p.planTable = .ok table ∧ front ++ [last] <+: plan.joins ∧
        p.Dropped table (IndexSet.ofList (front ++ [last])) last prior s := by
  have placesAll := placesAll_of_greedy greedy
  exact exhaustive_or_exists_dropped h placesAll.perm placesAll.crossProductFree

/-! ## A join of infinite cost -/

/-- A join with a relation whose scan cost is beyond the finite doubles. -/
def overflow : Problem where
  joins := #[
    { condition := { left := ⟨"a", "x"⟩, op := .equal, right := .column ⟨"b", "x"⟩ }
      left := 0, right := some 1, leftKeyed := false, rightKeyed := false }]
  relations := #[⟨"a", { cost := 1.0 / 0.0, rows := 2 }⟩, ⟨"b", { cost := 1, rows := 1 }⟩]

def overflowPlan : PartialPlan where
  steps := [{ join := 0, outer := .left, cost := 1.0 / 0.0, rows := 2 }]
  cost := 1.0 / 0.0
  rows := 2

theorem greedy_overflow : overflow.greedy = .ok overflowPlan := by
  have first : overflow.cheapest? ∅ [0] =
      some { join := 0, outer := .left, cost := 1.0 / 0.0, rows := 2 } := by
    decide +kernel
  calc overflow.greedy
      = overflow.greedyFrom ∅ [0] := rfl
    _ = overflow.greedyFrom _ [] := greedyFrom_of_cheapest? first
    _ = .ok overflowPlan := greedyFrom_nil overflow overflowPlan

theorem exhaustive_overflow : overflow.exhaustive = .error (.infeasible 1) := by
  have small : overflow.size ≤ IndexSet.capacity := by decide
  have pos : 0 < overflow.size := by decide
  obtain ⟨table, eq, isPlanTable⟩ := exists_planTable small
  have joinSet : overflow.IsJoinSet overflow.allJoins := by
    refine ⟨isEmpty_allJoins small pos, ?_⟩
    intro i mem
    rw [allJoins, IndexSet.contains_maskBelow small] at mem
    exact of_decide_eq_true mem
  have toList : overflow.allJoins.toList = [0] := by decide +kernel
  have candidate : overflow.candidate? table overflow.allJoins 0 = some overflowPlan := by
    have step : overflow.nextStep? ∅ 0 =
        some { join := 0, outer := .left, cost := 1.0 / 0.0, rows := 2 } := by
      decide +kernel
    have prior : priorPlan? table overflow.allJoins 0 = some ∅ :=
      priorPlan?_of_isEmpty (by decide +kernel)
    exact candidate?_eq_some_iff.2 ⟨∅, _, prior, step, rfl⟩
  have dropped : ceiling none ≤ overflowPlan.cost := by decide +kernel
  have none : table.find? overflow.allJoins = none := by
    rw [isPlanTable.find?_eq joinSet, bestPlan?, toList, List.filterMap_cons_some candidate,
      List.filterMap_nil, List.foldl_cons, List.foldl_nil, improve, if_pos dropped]
  exact exhaustive_eq_error pos eq none

/-- The greedy plan of the join has a step that the exhaustive search drops. -/
theorem overflow_exhaustive_of_greedy :
    (overflow.size ≤ IndexSet.capacity ∧ overflow.greedy = .ok overflowPlan) ∧
    ∃ table front last prior s, overflow.planTable = .ok table ∧
      front ++ [last] <+: overflowPlan.joins ∧
        overflow.Dropped table (IndexSet.ofList (front ++ [last])) last prior s := by
  have small : overflow.size ≤ IndexSet.capacity := by decide
  refine ⟨⟨small, greedy_overflow⟩, ?_⟩
  rcases exhaustive_of_greedy small greedy_overflow with ⟨best, ok⟩ | ⟨-, dropped⟩
  · rw [exhaustive_overflow] at ok
    exact absurd ok (by simp)
  · exact dropped

end LeftDeep.Problem

namespace LeftDeep

/-- A query that poses the problem of the join of infinite cost. Each page of the first table costs
as much as a finite double can hold. -/
def Inputs.overflow : Inputs where
  query :=
    { scans := (Bindings.empty.bind "a" 1).bind "b" 2
      joins := [{ left := ⟨"a", "x"⟩, op := .equal, right := .column ⟨"b", "x"⟩ }] }
  catalog := { tables := [
    { id := 1, name := "a", columns := [⟨"x", false⟩] },
    { id := 2, name := "b", columns := [⟨"x", false⟩] }] }
  statistics := (Bindings.empty.bind "a" { tuples := 2, pages := 10, pageCost := 1e308 }).bind
    "b" { tuples := 1, pages := 1 }
  selectivities := (Bindings.empty.bind "a" unfiltered).bind "b" unfiltered

set_option maxRecDepth 20000 in
theorem Inputs.problem_overflow : Inputs.overflow.problem = .ok Problem.overflow := rfl

/-- The exhaustive search may report that there is no plan although the greedy search finds one. -/
theorem Problem.not_exhaustive_of_greedy :
    ¬∀ (inputs : Inputs) (p : Problem) (plan : PartialPlan), inputs.problem = .ok p →
      1 ≤ p.size → p.size ≤ IndexSet.capacity → p.greedy = .ok plan →
        p.exhaustive ≠ .error (.infeasible p.size) := by
  intro claim
  exact claim Inputs.overflow Problem.overflow Problem.overflowPlan Inputs.problem_overflow
    (by decide) (by decide) Problem.greedy_overflow Problem.exhaustive_overflow

end LeftDeep
