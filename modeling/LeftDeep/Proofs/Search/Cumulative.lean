import LeftDeep.Proofs.Search.GreedyRule
import LeftDeep.Proofs.Search.Optimality

/-!
# How costs grow along a plan

A step costs at least as much as the plan that it is appended to, if that plan is the outer side and
runs once, or the inner side and runs once for each row of the scan outside of it. If that scan has
no rows, the plan is not run at all and its cost is left out, so the cost of the step is that of the
scan and may be less. Nothing else lets costs fall.

## Main definitions

* `Problem.outerRelation?`: the relation on the outer side of a step.
* `Problem.SkipsPlan`, `Problem.SkipsAt`: a step whose outer side is a scan without rows.

## Main statements

* `Problem.cost_le_or_skipsPlan`: a step costs at least as much as its plan, or skips it.
* `Problem.cost_take_le_or_skipsAt`: a prefix of a plan costs no more than a longer one, unless a
  step between them skips its plan.
* `Inputs.cost_le_of_run`: the same for the plans that the searches return.
-/

namespace LeftDeep

open Double

namespace PartialPlan

variable {plan : PartialPlan} {s : Step} {k : ℕ}

/-- The plan of one more step. -/
theorem take_succ (found : plan.steps[k]? = some s) :
    plan.take (k + 1) = (plan.take k).extend s := by
  rw [take, List.take_add_one, found, Option.toList_some, ofSteps_concat, take]

theorem take_length (plan : PartialPlan) : plan.take plan.steps.length = ofSteps plan.steps := by
  rw [take, List.take_length]

theorem cost_take_succ (found : plan.steps[k]? = some s) : (plan.take (k + 1)).cost = s.cost := by
  rw [take_succ found, cost_extend]

theorem isEmpty_take (pos : 0 < k) (le : k ≤ plan.steps.length) :
    (plan.take k).isEmpty = false := by
  obtain ⟨k, rfl⟩ := Nat.exists_eq_succ_of_ne_zero pos.ne'
  rw [take_succ (List.getElem?_eq_getElem le), isEmpty_extend]

end PartialPlan

namespace Join

variable {j : Join} {l r : Side}

theorem outer_le_cost_arrange (hl : l.IsProper) (hr : r.IsProper) :
    (j.arrange l r).outer.cost ≤ (j.arrange l r).cost := by
  rcases arrange_eq_or j l r with eq | ⟨eq, -⟩
  · rw [eq]
    exact Condition.left_le_joinCost hl hr
  · rw [eq]
    exact Condition.left_le_joinCost hr hl

theorem inner_le_cost_arrange (hl : l.IsProper) (hr : r.IsProper)
    (runs : j.condition.isSubquery = true ∨ (j.arrange l r).outer.rows ≠ 0) :
    (j.arrange l r).inner.cost ≤ (j.arrange l r).cost := by
  rcases arrange_eq_or j l r with eq | ⟨eq, -⟩
  · rw [eq] at runs ⊢
    exact Condition.right_le_joinCost hl hr runs
  · rw [eq] at runs ⊢
    rw [← j.condition.isSubquery_swap] at runs
    exact Condition.right_le_joinCost hr hl runs

theorem cost_arrange_le_outer (hl : l.IsProper) (hr : r.IsProper)
    (table : j.condition.isSubquery = false) (rows : (j.arrange l r).outer.rows = 0) :
    (j.arrange l r).cost ≤ (j.arrange l r).outer.cost := by
  rcases arrange_eq_or j l r with eq | ⟨eq, -⟩
  · rw [eq] at rows ⊢
    exact Condition.joinCost_le_left hl hr table rows
  · rw [eq] at rows ⊢
    rw [← j.condition.isSubquery_swap] at table
    exact Condition.joinCost_le_left hr hl table rows

end Join

namespace Problem

open PartialPlan

variable {p : Problem} {plan : PartialPlan} {order : List ℕ} {index k : ℕ} {s : Step}

/-- The relation on the outer side of a step, unless that side is a sub-query. -/
def outerRelation? (p : Problem) (s : Step) : Option ℕ :=
  p.joins[s.join]?.bind fun j =>
    match s.outer with
    | .left => some j.left
    | .right => j.right

/-- The cost of a relation's scan. -/
def scanCost (p : Problem) (relation : ℕ) : Cost := (p.scanned (some relation) false).cost

/-- A step skips the plan that it is appended to if its outer side is the scan of a relation without
rows. The plan is then the inner side, which runs once for each row of the outer one. -/
structure SkipsPlan (p : Problem) (plan : PartialPlan) (s : Step) (relation : ℕ) : Prop where
  outer : p.outerRelation? s = some relation
  fresh : p.isRead plan.steps relation = false
  empty : p.scanRows relation = 0

/-- The step at a position skips the plan before it. -/
def SkipsAt (p : Problem) (plan : PartialPlan) (k : ℕ) : Prop :=
  ∃ s relation, plan.steps[k]? = some s ∧ p.SkipsPlan (plan.take k) s relation

theorem rows_scanned_eq_zero_iff {relation : ℕ} {keyed : Bool} :
    (p.scanned (some relation) keyed).rows = 0 ↔ p.scanRows relation = 0 := by
  rw [← toNat_rows_scanned relation keyed, ← UInt64.toNat_inj]
  rfl

theorem cost_scanned (relation : ℕ) (keyed : Bool) :
    (p.scanned (some relation) keyed).cost = p.scanCost relation := by
  rw [scanCost, scanned, scanned]
  cases (some relation).bind fun r => p.relations[r]? <;> rfl

/-- A join outside of which a scan runs costs at least as much as its inner side, unless the scan
has no rows. Then it costs what the scan costs. -/
theorem cost_arrange_of_scan {j : Join} {l r : Side} (hl : l.IsProper) (hr : r.IsProper)
    (table : j.condition.isSubquery = false) {relation : ℕ} {keyed : Bool}
    (scan : (j.arrange l r).outer = p.scanned (some relation) keyed) :
    if p.scanRows relation = 0 then
      (j.arrange l r).cost ≤ p.scanCost relation ∧ p.scanCost relation ≤ (j.arrange l r).cost
    else (j.arrange l r).inner.cost ≤ (j.arrange l r).cost := by
  split
  · next empty =>
    rw [← cost_scanned relation keyed, ← scan]
    have rows : (j.arrange l r).outer.rows = 0 := scan ▸ rows_scanned_eq_zero_iff.2 empty
    exact ⟨Join.cost_arrange_le_outer hl hr table rows, Join.outer_le_cost_arrange hl hr⟩
  · next runs =>
    apply Join.inner_le_cost_arrange hl hr
    rw [scan, Ne, rows_scanned_eq_zero_iff]
    exact .inr runs

/-- The join that a plan with joins is extended by: the plan is the outer side, or it is the inner
side of the scan of a relation that the plan does not read. -/
theorem cost_of_nextStep? (subqueries : ∀ j ∈ p.joins, j.condition.isSubquery = j.right.isNone)
    (scans : p.ScansAreProper) (proper : Cost.IsProper plan.cost) (nonempty : plan.isEmpty = false)
    (step : p.nextStep? plan index = some s) :
    ∃ relation, p.outerRelation? s = some relation ∧
      if p.isRead plan.steps relation = false ∧ p.scanRows relation = 0 then
        s.cost ≤ p.scanCost relation ∧ p.scanCost relation ≤ s.cost
      else plan.cost ≤ s.cost := by
  obtain ⟨j, l, r, found, sides, rfl⟩ := nextStep?_eq_some_iff.1 step
  obtain ⟨hl, hr⟩ := isProper_sides? scans proper sides
  have absent := subqueries j (Array.mem_of_getElem? found)
  have outer := Join.outer_le_cost_arrange (j := j) hl hr
  simp only [outerRelation?, found, Option.bind_some]
  rcases sides?_eq_some sides with
    ⟨first, -⟩ | ⟨-, read, fresh, rfl, rfl⟩ | ⟨-, fresh, read, rfl, rfl⟩
  · rw [nonempty] at first
    exact absurd first Bool.false_ne_true
  · -- The plan is on the left.
    rcases Join.arrange_eq_or j (p.planned plan) (p.scanned j.right j.rightKeyed) with
      eq | ⟨eq, table⟩
    · rw [eq] at outer ⊢
      refine ⟨j.left, rfl, ?_⟩
      rw [if_neg (by simp [read])]
      exact outer
    · obtain ⟨relation, right⟩ : ∃ relation, j.right = some relation :=
        Option.isSome_iff_exists.1 (by simpa [table] using absent.symm)
      rw [right] at eq hr fresh ⊢
      rw [Option.any_some] at fresh
      have scan := cost_arrange_of_scan hl hr table (congrArg Arrangement.outer eq)
      rw [eq] at scan ⊢
      refine ⟨relation, rfl, ?_⟩
      simp only [fresh, true_and]
      exact scan
  · -- The plan is on the right.
    obtain ⟨other, right, -⟩ := (Option.any_eq_true _ _).1 read
    have table : j.condition.isSubquery = false := by simpa [right] using absent
    rcases Join.arrange_eq_or j (p.scanned (some j.left) j.leftKeyed) (p.planned plan) with
      eq | ⟨eq, -⟩
    · have scan := cost_arrange_of_scan hl hr table (congrArg Arrangement.outer eq)
      rw [eq] at scan ⊢
      refine ⟨j.left, rfl, ?_⟩
      simp only [fresh, true_and]
      exact scan
    · rw [eq] at outer ⊢
      rw [right, Option.any_some] at read
      refine ⟨other, right, ?_⟩
      rw [if_neg (by simp [read])]
      exact outer

/-- A step costs at least as much as the plan that it is appended to, unless it skips that plan. -/
theorem cost_le_or_skipsPlan (subqueries : ∀ j ∈ p.joins, j.condition.isSubquery = j.right.isNone)
    (scans : p.ScansAreProper) (proper : Cost.IsProper plan.cost) (nonempty : plan.isEmpty = false)
    (step : p.nextStep? plan index = some s) :
    plan.cost ≤ s.cost ∨ ∃ relation, p.SkipsPlan plan s relation := by
  obtain ⟨relation, outer, cost⟩ := cost_of_nextStep? subqueries scans proper nonempty step
  split at cost
  · next skips => exact .inr ⟨relation, outer, skips.1, skips.2⟩
  · exact .inl cost

/-- A step that skips its plan costs what the scan on its outer side costs. -/
theorem cost_of_skipsPlan (subqueries : ∀ j ∈ p.joins, j.condition.isSubquery = j.right.isNone)
    (scans : p.ScansAreProper) (proper : Cost.IsProper plan.cost) (nonempty : plan.isEmpty = false)
    (step : p.nextStep? plan index = some s) {relation : ℕ} (skips : p.SkipsPlan plan s relation) :
    s.cost ≤ p.scanCost relation ∧ p.scanCost relation ≤ s.cost := by
  obtain ⟨relation', outer, cost⟩ := cost_of_nextStep? subqueries scans proper nonempty step
  obtain rfl : relation = relation' := Option.some.inj (skips.outer.symm.trans outer)
  rwa [if_pos ⟨skips.fresh, skips.empty⟩] at cost

/-! ## Whole plans -/

theorem eq_ofSteps_of_replay? (h : p.replay? ∅ order = some plan) : plan = ofSteps plan.steps := by
  induction order using List.reverseRecOn generalizing plan with
  | nil =>
    obtain rfl := Option.some.inj h
    rfl
  | append_singleton order last ih =>
    obtain ⟨prior, s, replayed, -, rfl⟩ := replay?_concat_eq_some_iff.1 h
    rw [steps_extend, ofSteps_concat, ← ih replayed]

/-- A replayed plan is extended by its steps one after another. -/
theorem nextStep?_take_of_replay? (h : p.replay? ∅ order = some plan)
    (found : plan.steps[k]? = some s) : p.nextStep? (plan.take k) s.join = some s := by
  induction order using List.reverseRecOn generalizing plan with
  | nil =>
    obtain rfl := Option.some.inj h
    exact absurd found (by simp)
  | append_singleton order last ih =>
    obtain ⟨prior, t, replayed, step, rfl⟩ := replay?_concat_eq_some_iff.1 h
    rcases getElem?_steps_extend found with ⟨earlier, eq⟩ | ⟨rfl, eq⟩
    · rw [eq]
      exact ih replayed earlier
    · rw [eq, ← eq_ofSteps_of_replay? replayed, join_of_nextStep? step]
      exact step

section Prefixes

variable (subqueries : ∀ j ∈ p.joins, j.condition.isSubquery = j.right.isNone)
  (scans : p.ScansAreProper) (replayed : p.replay? ∅ order = some plan)
  (finite : ∀ s ∈ plan.steps, s.cost.isFinite = true)

include scans replayed finite

theorem isProper_cost_take (le : k ≤ plan.steps.length) : Cost.IsProper (plan.take k).cost := by
  induction k with
  | zero => exact Cost.isProper_zero
  | succ k ih =>
    have found : plan.steps[k]? = some plan.steps[k] := List.getElem?_eq_getElem le
    have step := nextStep?_take_of_replay? replayed found
    rw [take_succ found, cost_extend]
    exact ⟨cost_nextStep?_nonneg scans (ih (Nat.le_of_succ_le le)) step,
      finite _ (List.getElem_mem le)⟩

include subqueries

/-- A prefix of a plan costs no more than a longer one, unless a step between them skips the plan
before it. -/
theorem cost_take_le_or_skipsAt {i : ℕ} (pos : 0 < i) (le : i ≤ k) (le' : k ≤ plan.steps.length) :
    (plan.take i).cost ≤ (plan.take k).cost ∨ ∃ m, i ≤ m ∧ m < k ∧ p.SkipsAt plan m := by
  induction k, le using Nat.le_induction with
  | base =>
    have proper := isProper_cost_take scans replayed finite le'
    exact .inl proper.le_refl
  | succ k le ih =>
    have found : plan.steps[k]? = some plan.steps[k] := List.getElem?_eq_getElem le'
    have step := nextStep?_take_of_replay? replayed found
    have proper := isProper_cost_take scans replayed finite (Nat.le_of_succ_le le')
    have nonempty := isEmpty_take (pos.trans_le le) (Nat.le_of_succ_le le')
    rcases ih (Nat.le_of_succ_le le') with before | ⟨m, lower, upper, skips⟩
    · rcases cost_le_or_skipsPlan subqueries scans proper nonempty step with
        more | ⟨relation, skips⟩
      · rw [take_succ found, cost_extend]
        exact .inl (le_trans before more)
      · exact .inr ⟨k, le, k.lt_succ_self, _, relation, found, skips⟩
    · exact .inr ⟨m, lower, upper.trans k.lt_succ_self, skips⟩

/-- A step behind the first one that skips the plan before it costs what one scan costs. -/
theorem cost_of_skipsAt (pos : 0 < k) {relation : ℕ} (found : plan.steps[k]? = some s)
    (skips : p.SkipsPlan (plan.take k) s relation) :
    s.cost ≤ p.scanCost relation ∧ p.scanCost relation ≤ s.cost := by
  have lt : k < plan.steps.length := (List.getElem?_eq_some_iff.1 found).1
  exact cost_of_skipsPlan subqueries scans (isProper_cost_take scans replayed finite lt.le)
    (isEmpty_take pos lt.le) (nextStep?_take_of_replay? replayed found) skips

end Prefixes

/-! ## A scan without rows -/

/-- A chain whose last relation has no rows left after its filters. -/
def filteredOut : Problem where
  joins := #[
    { condition := { left := ⟨"a", "x"⟩, op := .equal, right := .column ⟨"b", "x"⟩ }
      left := 0, right := some 1, leftKeyed := false, rightKeyed := false },
    { condition := { left := ⟨"b", "y"⟩, op := .equal, right := .column ⟨"c", "y"⟩ }
      left := 1, right := some 2, leftKeyed := false, rightKeyed := false },
    { condition := { left := ⟨"c", "z"⟩, op := .equal, right := .column ⟨"d", "z"⟩ }
      left := 2, right := some 3, leftKeyed := false, rightKeyed := false }]
  relations := #[⟨"a", { cost := 1, rows := 1 }⟩, ⟨"b", { cost := 1, rows := 1 }⟩,
    ⟨"c", { cost := 100, rows := 100 }⟩, ⟨"d", { cost := 5, rows := 0 }⟩]

theorem filteredOut_scansAreProper : filteredOut.ScansAreProper := by decide +kernel

def filteredOutPlan : PartialPlan where
  steps := [{ join := 0, outer := .left, cost := 3, rows := 1 },
    { join := 1, outer := .left, cost := 203, rows := 100 },
    { join := 2, outer := .right, cost := 5, rows := 100 }]
  cost := 5
  rows := 100

/-- The last step of the greedy plan costs less than the one before it. -/
theorem greedy_filteredOut : filteredOut.greedy = .ok filteredOutPlan := by
  have first : filteredOut.cheapest? ∅ [0, 1, 2] =
      some { join := 0, outer := .left, cost := 3, rows := 1 } := by
    decide +kernel
  have second : filteredOut.cheapest? (PartialPlan.extend ∅
      { join := 0, outer := .left, cost := 3, rows := 1 }) [1, 2] =
      some { join := 1, outer := .left, cost := 203, rows := 100 } := by
    decide +kernel
  have third : filteredOut.cheapest? ((PartialPlan.extend ∅
      { join := 0, outer := .left, cost := 3, rows := 1 }).extend
      { join := 1, outer := .left, cost := 203, rows := 100 }) [2] =
      some { join := 2, outer := .right, cost := 5, rows := 100 } := by
    decide +kernel
  calc filteredOut.greedy
      = filteredOut.greedyFrom ∅ [0, 1, 2] := rfl
    _ = filteredOut.greedyFrom _ [1, 2] := greedyFrom_of_cheapest? first
    _ = filteredOut.greedyFrom _ [2] := greedyFrom_of_cheapest? second
    _ = filteredOut.greedyFrom _ [] := greedyFrom_of_cheapest? third
    _ = .ok filteredOutPlan := greedyFrom_nil filteredOut filteredOutPlan

theorem filteredOutPlan_isFinite : ∀ s ∈ filteredOutPlan.steps, s.cost.isFinite = true := by
  decide +kernel

end Problem

namespace Inputs

open Problem

variable {inputs : Inputs} {p : Problem} {plan : PartialPlan} {search : Search}

/-- In a plan that either search returns, a step costs at least as much as any step before it, and
the whole plan as much as any of its steps, unless a step in between skips the plan before it. Such
a step costs what the scan costs that it starts with. -/
theorem cost_le_of_run (h : inputs.problem = .ok p) (scans : p.ScansAreProper)
    (run : p.run search = .ok plan) (finite : ∀ s ∈ plan.steps, s.cost.isFinite = true) :
    (∀ i k s t, i < k → plan.steps[i]? = some s → plan.steps[k]? = some t →
      s.cost ≤ t.cost ∨ ∃ m, i < m ∧ m ≤ k ∧ p.SkipsAt plan m) ∧
    (∀ i s, plan.steps[i]? = some s →
      s.cost ≤ plan.cost ∨ ∃ m, i < m ∧ m < plan.steps.length ∧ p.SkipsAt plan m) ∧
    ∀ k s relation, 0 < k → plan.steps[k]? = some s → p.SkipsPlan (plan.take k) s relation →
      s.cost ≤ p.scanCost relation ∧ p.scanCost relation ≤ s.cost := by
  have subqueries := isSubquery_of_problem h
  have replayed := (placesAll_of_run run).replay
  have prefixes {i k : ℕ} (pos : 0 < i) (le : i ≤ k) (le' : k ≤ plan.steps.length) :=
    cost_take_le_or_skipsAt subqueries scans replayed finite pos le le'
  refine ⟨?_, ?_, ?_⟩
  · intro i k s t lt foundS foundT
    have small : k < plan.steps.length := (List.getElem?_eq_some_iff.1 foundT).1
    rw [← PartialPlan.cost_take_succ foundS, ← PartialPlan.cost_take_succ foundT]
    rcases prefixes i.succ_pos (Nat.succ_le_succ lt.le) small with le | ⟨m, lower, upper, skips⟩
    · exact .inl le
    · exact .inr ⟨m, lower, Nat.le_of_lt_succ upper, skips⟩
  · intro i s found
    have small : i < plan.steps.length := (List.getElem?_eq_some_iff.1 found).1
    have whole : plan.take plan.steps.length = plan := by
      rw [PartialPlan.take_length, ← eq_ofSteps_of_replay? replayed]
    have total := prefixes i.succ_pos small le_rfl
    rwa [PartialPlan.cost_take_succ found, whole] at total
  · intro k s relation pos found skips
    exact cost_of_skipsAt subqueries scans replayed finite pos found skips

/-- A query that poses this problem: a filter on the last table lets fewer than one row pass. -/
def filteredOut : Inputs where
  query :=
    { scans := (((Bindings.empty.bind "a" 1).bind "b" 2).bind "c" 3).bind "d" 4
      joins := [
        { left := ⟨"a", "x"⟩, op := .equal, right := .column ⟨"b", "x"⟩ },
        { left := ⟨"b", "y"⟩, op := .equal, right := .column ⟨"c", "y"⟩ },
        { left := ⟨"c", "z"⟩, op := .equal, right := .column ⟨"d", "z"⟩ }] }
  catalog := { tables := [
    { id := 1, name := "a", columns := [⟨"x", false⟩] },
    { id := 2, name := "b", columns := [⟨"x", false⟩, ⟨"y", false⟩] },
    { id := 3, name := "c", columns := [⟨"y", false⟩, ⟨"z", false⟩] },
    { id := 4, name := "d", columns := [⟨"z", false⟩] }] }
  statistics := (((Bindings.empty.bind "a" { tuples := 1, pages := 1 }).bind
    "b" { tuples := 1, pages := 1 }).bind "c" { tuples := 100, pages := 100 }).bind
    "d" { tuples := 10, pages := 5 }
  selectivities := (((Bindings.empty.bind "a" unfiltered).bind "b" unfiltered).bind
    "c" unfiltered).bind "d" 0.05

set_option maxRecDepth 20000 in
theorem problem_filteredOut : filteredOut.problem = .ok Problem.filteredOut := rfl

/-- The last step of this plan is the one that skips the plan before it. -/
theorem filteredOut_cost_le :
    (filteredOut.problem = .ok Problem.filteredOut ∧ Problem.filteredOut.ScansAreProper ∧
      Problem.filteredOut.run .greedy = .ok filteredOutPlan ∧
      ∀ s ∈ filteredOutPlan.steps, s.cost.isFinite = true) ∧
    ∃ m, 1 < m ∧ m ≤ 2 ∧ Problem.filteredOut.SkipsAt filteredOutPlan m := by
  have run : Problem.filteredOut.run .greedy = .ok filteredOutPlan := greedy_filteredOut
  refine ⟨⟨problem_filteredOut, filteredOut_scansAreProper, run, filteredOutPlan_isFinite⟩, ?_⟩
  have costs := cost_le_of_run problem_filteredOut filteredOut_scansAreProper run
    filteredOutPlan_isFinite
  rcases costs.1 1 2 _ _ (by decide) rfl rfl with le | skips
  · exact absurd le (by decide +kernel)
  · exact skips

/-- The costs along a plan may fall. -/
theorem not_cost_le_of_run :
    ¬∀ (inputs : Inputs) (p : Problem) (search : Search) (plan : PartialPlan),
      inputs.problem = .ok p → p.ScansAreProper → p.run search = .ok plan →
        (∀ s ∈ plan.steps, s.cost.isFinite = true) →
          ∀ k s t, plan.steps[k]? = some s → plan.steps[k + 1]? = some t → s.cost ≤ t.cost := by
  intro claim
  have le := claim filteredOut Problem.filteredOut .greedy filteredOutPlan problem_filteredOut
    filteredOut_scansAreProper greedy_filteredOut filteredOutPlan_isFinite 1 _ _ rfl rfl
  exact absurd le (by decide +kernel)

end Inputs
end LeftDeep
