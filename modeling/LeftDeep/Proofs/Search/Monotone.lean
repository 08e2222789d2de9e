import LeftDeep.Proofs.Estimate.JoinCost
import LeftDeep.Proofs.Search.Entries

/-!
# Cheaper and smaller plans are cheaper to extend

The cost of a join grows with the costs and the rows of its inputs. So a plan that costs no more
than another one of the same joins, and yields no more rows, can be extended at no more cost.

## Main definitions

* `Side.LE`: an input that is no dearer and no larger than another one.
* `Problem.ScansAreProper`: the scan costs of a problem are proper.

## Main statements

* `Join.cost_arrange_le`: the cheaper way to run a join is monotone in its inputs.
* `Problem.exists_nextStep?_le`: extending a plan that is no dearer and no larger.
* `Problem.IsPlanTable.meetsNumbers`: with proper scans, the exhaustive search meets numbers only.
-/

namespace LeftDeep

open Double

/-- An input with a proper cost. -/
def Side.IsProper (side : Side) : Prop := Cost.IsProper side.cost

/-- An input that costs no more than another one and yields no more rows. -/
structure Side.LE (side side' : Side) : Prop where
  cost : side.cost ≤ side'.cost
  rows : side.rows ≤ side'.rows

theorem Side.LE.refl {side : Side} (h : side.IsProper) : side.LE side :=
  ⟨h.le_refl, UInt64.le_refl _⟩

namespace Join

variable {j : Join} {l l' r r' : Side}

theorem cost_leftOuter_nonneg (hl : l.IsProper) (hr : r.IsProper) : 0 ≤ (j.leftOuter l r).cost :=
  Condition.joinCost_nonneg hl hr

theorem cost_rightOuter_nonneg (hl : l.IsProper) (hr : r.IsProper) : 0 ≤ (j.rightOuter l r).cost :=
  Condition.joinCost_nonneg hr hl

/-- A join runs one of the two ways, and the other one only if it may be swapped. -/
theorem arrange_eq_or (j : Join) (l r : Side) :
    j.arrange l r = j.leftOuter l r ∨
      j.arrange l r = j.rightOuter l r ∧ j.condition.isSubquery = false := by
  rw [arrange]
  by_cases subquery : j.condition.isSubquery = true
  · rw [if_pos subquery]
    exact .inl rfl
  · rw [if_neg subquery]
    split
    · exact .inr ⟨rfl, Bool.eq_false_iff.2 subquery⟩
    · exact .inl rfl

theorem cost_arrange_nonneg (hl : l.IsProper) (hr : r.IsProper) : 0 ≤ (j.arrange l r).cost := by
  rcases arrange_eq_or j l r with eq | ⟨eq, -⟩
  · rw [eq]
    exact cost_leftOuter_nonneg hl hr
  · rw [eq]
    exact cost_rightOuter_nonneg hl hr

theorem cost_arrange_le_leftOuter (hl : l.IsProper) (hr : r.IsProper) :
    (j.arrange l r).cost ≤ (j.leftOuter l r).cost := by
  have self := le_refl (nonneg_iff.1 (cost_leftOuter_nonneg (j := j) hl hr)).1
  rw [arrange]
  by_cases subquery : j.condition.isSubquery = true
  · rw [if_pos subquery]
    exact self
  · rw [if_neg subquery]
    split
    · next lt => exact le_of_lt lt
    · exact self

theorem cost_arrange_le_rightOuter (hl : l.IsProper) (hr : r.IsProper)
    (notSubquery : j.condition.isSubquery = false) :
    (j.arrange l r).cost ≤ (j.rightOuter l r).cost := by
  have left := (nonneg_iff.1 (cost_leftOuter_nonneg (j := j) hl hr)).1
  have right := (nonneg_iff.1 (cost_rightOuter_nonneg (j := j) hl hr)).1
  rw [arrange, if_neg (by simp [notSubquery])]
  split
  · exact le_refl right
  · next notLess => exact (not_lt_iff right left).1 notLess

/-- The cheaper way to run a join costs no more if the inputs are no dearer and no larger. -/
theorem cost_arrange_le (hl : l.IsProper) (hr : r.IsProper) (hl' : l'.IsProper) (hr' : r'.IsProper)
    (lel : l.LE l') (ler : r.LE r') : (j.arrange l r).cost ≤ (j.arrange l' r').cost := by
  rcases arrange_eq_or j l' r' with eq | ⟨eq, notSubquery⟩
  · rw [eq]
    exact le_trans (cost_arrange_le_leftOuter hl hr)
      (Condition.joinCost_le hl hr hr' lel.rows ler.rows lel.cost ler.cost)
  · rw [eq]
    exact le_trans (cost_arrange_le_rightOuter hl hr notSubquery)
      (Condition.joinCost_le hr hl hl' ler.rows lel.rows ler.cost lel.cost)

end Join

namespace Problem

variable {p : Problem} {plan plan' : PartialPlan} {index : ℕ} {s : Step} {table : PlanTable}
  {set : IndexSet}

/-- The scan costs are finite and not negative. -/
def ScansAreProper (p : Problem) : Prop := ∀ r ∈ p.relations, Cost.IsProper r.scan.cost

instance (p : Problem) : Decidable p.ScansAreProper :=
  inferInstanceAs (Decidable (∀ r ∈ p.relations, Cost.IsProper r.scan.cost))

theorem chain_scansAreProper : chain.ScansAreProper := by decide +kernel

theorem isProper_scanned (h : p.ScansAreProper) (relation : Option ℕ) (keyed : Bool) :
    (p.scanned relation keyed).IsProper := by
  rw [scanned]
  cases eq : relation.bind fun r => p.relations[r]? with
  | none => exact Cost.isProper_zero
  | some r =>
    obtain ⟨i, -, found⟩ := Option.bind_eq_some_iff.1 eq
    exact h r (Array.mem_of_getElem? found)

theorem isProper_sides? (h : p.ScansAreProper) (proper : Cost.IsProper plan.cost) {j : Join}
    {l r : Side} (sides : p.sides? plan j = some (l, r)) : l.IsProper ∧ r.IsProper := by
  rcases sides?_eq_some sides with ⟨-, rfl, rfl⟩ | ⟨-, -, -, rfl, rfl⟩ | ⟨-, -, -, rfl, rfl⟩
  · exact ⟨isProper_scanned h _ _, isProper_scanned h _ _⟩
  · exact ⟨proper, isProper_scanned h _ _⟩
  · exact ⟨isProper_scanned h _ _, proper⟩

/-- The cost of a step that extends a proper plan is not negative. -/
theorem cost_nextStep?_nonneg (h : p.ScansAreProper) (proper : Cost.IsProper plan.cost)
    (step : p.nextStep? plan index = some s) : 0 ≤ s.cost := by
  obtain ⟨j, l, r, -, sides, rfl⟩ := nextStep?_eq_some_iff.1 step
  obtain ⟨hl, hr⟩ := isProper_sides? h proper sides
  exact Join.cost_arrange_nonneg hl hr

/-- The inputs of a join that is appended to a plan that is no dearer and no larger. -/
theorem exists_sides?_le (h : p.ScansAreProper) (same : plan.SamePlaced plan')
    (cost : plan.cost ≤ plan'.cost) (rows : plan.rows ≤ plan'.rows) {j : Join} {l' r' : Side}
    (sides : p.sides? plan' j = some (l', r')) :
    ∃ l r, p.sides? plan j = some (l, r) ∧ l.LE l' ∧ r.LE r' := by
  have scan (relation : Option ℕ) (keyed : Bool) := Side.LE.refl (isProper_scanned h relation keyed)
  have planned : (p.planned plan).LE (p.planned plan') := ⟨cost, rows⟩
  rw [sides?, same.isEmpty_eq, SamePlaced.isRead_eq same]
  rcases sides?_eq_some sides with
    ⟨empty, rfl, rfl⟩ | ⟨empty, left, right, rfl, rfl⟩ | ⟨empty, left, right, rfl, rfl⟩
  · rw [empty]
    exact ⟨_, _, rfl, scan _ _, scan _ _⟩
  · rw [empty, left, right]
    exact ⟨_, _, rfl, planned, scan _ _⟩
  · rw [empty, left, right]
    exact ⟨_, _, rfl, scan _ _, planned⟩

/-- A plan that is no dearer and no larger than another one of the same joins can be extended in
the same way, at no more cost. -/
theorem exists_nextStep?_le (h : p.ScansAreProper) (same : plan.SamePlaced plan')
    (nonneg : 0 ≤ plan.cost) (cost : plan.cost ≤ plan'.cost) (rows : plan.rows ≤ plan'.rows)
    (proper : Cost.IsProper plan'.cost) (step : p.nextStep? plan' index = some s) :
    ∃ s', p.nextStep? plan index = some s' ∧ s'.cost ≤ s.cost := by
  obtain ⟨j, l', r', found, sides', rfl⟩ := nextStep?_eq_some_iff.1 step
  obtain ⟨l, r, sides, lel, ler⟩ := exists_sides?_le h same cost rows sides'
  obtain ⟨hl, hr⟩ := isProper_sides? h (proper.of_le nonneg cost) sides
  obtain ⟨hl', hr'⟩ := isProper_sides? h proper sides'
  exact ⟨_, nextStep?_eq_some_iff.2 ⟨j, l, r, found, sides, rfl⟩,
    Join.cost_arrange_le hl hr hl' hr' lel ler⟩

/-! ## The table -/

namespace IsPlanTable

variable (isPlanTable : p.IsPlanTable table)

include isPlanTable

/-- With proper scans, the costs in the table are proper. -/
theorem isProper (h : p.ScansAreProper) (found : table.find? set = some plan) :
    Cost.IsProper plan.cost := by
  obtain ⟨n, hn⟩ : ∃ n, n = set.size := ⟨_, rfl⟩
  induction n using Nat.strong_induction_on generalizing set plan with
  | _ n ih =>
    -- Smaller entries are proper, so what is appended to them does not cost less than nothing.
    have nonneg : ∀ last prior s, set.contains last = true → PriorPlan table set last prior →
        p.nextStep? prior last = some s → 0 ≤ s.cost := by
      intro last prior s contains priorPlan step
      rcases priorPlan with ⟨-, rfl⟩ | found
      · exact cost_nextStep?_nonneg h Cost.isProper_zero step
      · have proper := ih _ (hn ▸ IndexSet.size_erase_lt contains) found rfl
        exact cost_nextStep?_nonneg h proper step
    have first := isPlanTable.firstLeast found fun last prior s contains priorPlan step =>
      (nonneg_iff.1 (nonneg last prior s contains priorPlan step)).1
    obtain ⟨last, mem, candidate⟩ := isPlanTable.exists_candidate found
    obtain ⟨prior, s, priorPlan, step, rfl⟩ := isPlanTable.candidate?_eq_some_iff.1 candidate
    have cost := nonneg last prior s (IndexSet.mem_toList.1 mem) priorPlan step
    exact Cost.isProper_of_lt cost first.below

/-- With proper scans, the exhaustive search meets numbers only. -/
theorem meetsNumbers (h : p.ScansAreProper) : p.MeetsNumbers table := by
  intro set last prior s joinSet contains priorPlan step
  have proper : Cost.IsProper prior.cost := by
    rcases priorPlan with ⟨-, rfl⟩ | found
    · exact Cost.isProper_zero
    · exact isPlanTable.isProper h found
  exact (nonneg_iff.1 (cost_nextStep?_nonneg h proper step)).1

end IsPlanTable

end Problem
end LeftDeep
