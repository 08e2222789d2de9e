import LeftDeep.Proofs.Plan.Relations
import LeftDeep.Proofs.Search.Monotone

/-!
# What extends a plan

The step that appends a join to a plan, said without the search: which inputs the join has, which of
its two ways to run is kept, and what the step records. A join is refused if the plan is not empty
and does not read exactly one of its sides. Of the plan, only the set of placed joins, the cost and
the rows matter.

## Main definitions

* `Problem.Reads`, `Problem.ComparesKey`: what the placed joins of a plan read and compare.
* `Problem.IsScan`, `Problem.IsPlan`: an input that is a scan, and one that is a plan.
* `Problem.HasInputs`: the inputs of a join that is appended to a plan.
* `Join.Extends`: the step of a join with given inputs.

## Main statements

* `Problem.nextStep?_eq_none_iff`: which joins are refused.
* `Problem.nextStep?_congr`: what a step depends on.
* `Inputs.nextStep?_outcome`: the step that appends a join of a query.
-/

namespace LeftDeep

open Double

namespace Join

variable {j : Join} {left right : Side} {index : ℕ} {s : Step}

/-- The cost of a join as the query has it. -/
def writtenCost (j : Join) (left right : Side) : Cost :=
  j.condition.joinCost left.rows right.rows left.cost right.cost

/-- The cost of a join with its sides exchanged. -/
def swappedCost (j : Join) (left right : Side) : Cost :=
  j.condition.swap.joinCost right.rows left.rows right.cost left.cost

/-- The step of a join with given inputs. It runs as written, unless it is a join of two tables that
costs strictly less with its sides exchanged. Rows and keys go with the sides. -/
inductive Extends (j : Join) (left right : Side) (index : ℕ) : Step → Prop
  | written (kept : j.condition.isSubquery = true ∨
      ¬j.swappedCost left right < j.writtenCost left right) :
      Extends j left right index
        { join := index, outer := .left, cost := j.writtenCost left right
          rows := j.condition.joinRows left.rows right.rows left.keyed right.keyed }
  | swapped (table : j.condition.isSubquery = false)
      (less : j.swappedCost left right < j.writtenCost left right) :
      Extends j left right index
        { join := index, outer := .right, cost := j.swappedCost left right
          rows := j.condition.swap.joinRows right.rows left.rows right.keyed left.keyed }

/-- The cheaper way to run a join makes its step. -/
theorem extends_arrange (j : Join) (left right : Side) (index : ℕ) :
    j.Extends left right index
      { join := index, outer := (j.arrange left right).outerSide
        cost := (j.arrange left right).cost, rows := j.rows (j.arrange left right) } := by
  rw [arrange]
  split
  · next subquery => exact .written (.inl subquery)
  · next table =>
    split
    · next less => exact .swapped (Bool.eq_false_iff.2 table) less
    · next notLess => exact .written (.inr notLess)

/-- A join of two tables costs what its cheaper way to run costs. -/
theorem Extends.cost_eq_min (h : j.Extends left right index s)
    (table : j.condition.isSubquery = false) (written : (j.writtenCost left right).isNaN = false)
    (swapped : (j.swappedCost left right).isNaN = false) :
    s.cost = min (j.writtenCost left right) (j.swappedCost left right) := by
  cases h with
  | written kept =>
    have notLess := kept.resolve_left (by simp [table])
    exact (if_pos ((not_lt_iff swapped written).1 notLess)).symm
  | swapped _ less => exact (if_neg (not_le_of_lt less)).symm

end Join

namespace Problem

open PartialPlan

variable {p : Problem} {plan plan' : PartialPlan} {j : Join} {index relation : ℕ} {side : Side}

/-- Some join that a plan places reads a relation. -/
def Reads (p : Problem) (plan : PartialPlan) (relation : ℕ) : Prop :=
  ∃ s ∈ plan.steps, ∃ j, p.joins[s.join]? = some j ∧ (j.left = relation ∨ j.right = some relation)

/-- Some join that a plan places compares a primary key. -/
def ComparesKey (p : Problem) (plan : PartialPlan) : Prop :=
  ∃ s ∈ plan.steps, ∃ j, p.joins[s.join]? = some j ∧ (j.leftKeyed = true ∨ j.rightKeyed = true)

/-- An input that is the scan of a relation, or of a sub-query if there is no relation. -/
def IsScan (p : Problem) (relation : Option ℕ) (keyed : Bool) (side : Side) : Prop :=
  match relation with
  | some index => ∃ r, p.relations[index]? = some r ∧
      side.cost = r.scan.cost ∧ side.rows = r.scan.rows ∧ side.keyed = keyed
  | none => side.cost = 0 ∧ side.rows = 0 ∧ side.keyed = false

/-- An input that is a plan. Its rows have a key if one of its joins compares one. -/
structure IsPlan (p : Problem) (plan : PartialPlan) (side : Side) : Prop where
  cost : side.cost = plan.cost
  rows : side.rows = plan.rows
  keyed : side.keyed = true ↔ p.ComparesKey plan

/-- The inputs of a join that is appended to a plan: two scans for the first join, and else the plan
on the one side that it reads. -/
inductive HasInputs (p : Problem) (plan : PartialPlan) (j : Join) : Side → Side → Prop
  | scans {left right : Side} (first : plan.steps = [])
      (isLeft : p.IsScan (some j.left) j.leftKeyed left)
      (isRight : p.IsScan j.right j.rightKeyed right) : HasInputs p plan j left right
  | onLeft {left right : Side} (later : plan.steps ≠ []) (reads : p.Reads plan j.left)
      (fresh : ∀ r, j.right = some r → ¬p.Reads plan r) (isLeft : p.IsPlan plan left)
      (isRight : p.IsScan j.right j.rightKeyed right) : HasInputs p plan j left right
  | onRight {left right : Side} {r : ℕ} (later : plan.steps ≠ []) (fresh : ¬p.Reads plan j.left)
      (table : j.right = some r) (reads : p.Reads plan r)
      (isLeft : p.IsScan (some j.left) j.leftKeyed left) (isRight : p.IsPlan plan right) :
      HasInputs p plan j left right

theorem isRead_iff_reads : p.isRead plan.steps relation = true ↔ p.Reads plan relation := by
  simp [isRead, Reads, Join.reads, List.any_eq_true, Option.any_eq_true]

theorem hasKey_iff_comparesKey : p.hasKey plan.steps = true ↔ p.ComparesKey plan := by
  simp [hasKey, ComparesKey, Join.hasKey, List.any_eq_true, Option.any_eq_true]

theorem any_isRead_iff : j.right.any (p.isRead plan.steps) = true ↔
    ∃ r, j.right = some r ∧ p.Reads plan r := by
  simp only [Option.any_eq_true, isRead_iff_reads]

theorem isEmpty_iff_steps : plan.isEmpty = true ↔ plan.steps = [] := List.isEmpty_iff

/-! ## Which joins are refused -/

/-- A join is refused if there are joins before it and not exactly one of its sides is read. -/
theorem nextStep?_eq_none_iff (found : p.joins[index]? = some j) :
    p.nextStep? plan index = none ↔
      plan.steps ≠ [] ∧ ¬Xor (p.Reads plan j.left) (∃ r, j.right = some r ∧ p.Reads plan r) := by
  have accepted : (p.nextStep? plan index).isSome = true ↔ plan.steps = [] ∨
      Xor (p.Reads plan j.left) (∃ r, j.right = some r ∧ p.Reads plan r) := by
    rw [isSome_nextStep?_iff]
    simp only [found, Option.some.injEq, exists_eq_left', isSome_sides?_iff, Bool.or_eq_true,
      isEmpty_iff_steps, Bool.coe_xor_iff, isRead_iff_reads, any_isRead_iff]
  rw [← Option.not_isSome_iff_eq_none, accepted, not_or]

/-! ## The inputs of a join -/

theorem isScan_scanned {r : Option ℕ} (lt : ∀ i, r = some i → i < p.relations.size)
    (keyed : Bool) : p.IsScan r keyed (p.scanned r keyed) := by
  cases r with
  | none => exact ⟨rfl, rfl, rfl⟩
  | some i =>
    have found := Array.getElem?_eq_getElem (lt i rfl)
    refine ⟨_, found, ?_⟩
    rw [scanned, Option.bind_some, found]
    exact ⟨rfl, rfl, rfl⟩

theorem isPlan_planned (p : Problem) (plan : PartialPlan) : p.IsPlan plan (p.planned plan) where
  cost := rfl
  rows := rfl
  keyed := hasKey_iff_comparesKey

/-- Joins that are not refused have the inputs that they should have. -/
theorem hasInputs_of_sides? (indexed : p.IsIndexed) (mem : j ∈ p.joins) {left right : Side}
    (sides : p.sides? plan j = some (left, right)) : p.HasInputs plan j left right := by
  have isLeft : p.IsScan (some j.left) j.leftKeyed (p.scanned (some j.left) j.leftKeyed) := by
    apply isScan_scanned
    intro i eq
    obtain rfl := Option.some.inj eq
    exact indexed.left_lt j mem
  have isRight : p.IsScan j.right j.rightKeyed (p.scanned j.right j.rightKeyed) :=
    isScan_scanned (indexed.right_lt j mem) _
  have isPlan := isPlan_planned p plan
  rcases sides?_eq_some sides with ⟨empty, rfl, rfl⟩ | ⟨nonempty, read, fresh, rfl, rfl⟩ |
    ⟨nonempty, fresh, read, rfl, rfl⟩
  · exact .scans (isEmpty_iff_steps.1 empty) isLeft isRight
  · have later : plan.steps ≠ [] := by simpa [isEmpty] using nonempty
    have other : ¬∃ r, j.right = some r ∧ p.Reads plan r := by
      rw [← any_isRead_iff, fresh]
      exact Bool.false_ne_true
    exact .onLeft later (isRead_iff_reads.1 read) (fun r eq reads => other ⟨r, eq, reads⟩)
      isPlan isRight
  · have later : plan.steps ≠ [] := by simpa [isEmpty] using nonempty
    have other : ¬p.Reads plan j.left := by
      rw [← isRead_iff_reads, fresh]
      exact Bool.false_ne_true
    obtain ⟨r, eq, reads⟩ := any_isRead_iff.1 read
    exact .onRight later other eq reads isLeft isPlan

/-! ## What a step depends on -/

/-- Plans of the same joins with equal estimates are extended by equal steps, whatever the order of
the joins and the estimates on the way. -/
theorem nextStep?_congr (same : plan.SamePlaced plan') (cost : plan.cost = plan'.cost)
    (rows : plan.rows = plan'.rows) (index : ℕ) :
    p.nextStep? plan index = p.nextStep? plan' index := by
  have keyed : p.hasKey plan.steps = p.hasKey plan'.steps :=
    SamePlaced.any_steps_eq same Join.hasKey
  have planned : p.planned plan = p.planned plan' := by
    rw [planned, planned, keyed]
    congr 1
    exact congrArg₂ Estimate.mk cost rows
  have sides (j : Join) : p.sides? plan j = p.sides? plan' j := by
    rw [sides?, sides?, same.isEmpty_eq, SamePlaced.isRead_eq same, planned]
  simp only [nextStep?, sides]

end Problem

/-- The step that appends a join of a query to a plan. -/
theorem Inputs.nextStep?_outcome {inputs : Inputs} {p : Problem} (posed : inputs.problem = .ok p)
    {index : ℕ} {j : Join} (found : p.joins[index]? = some j) (plan : PartialPlan) :
    (p.nextStep? plan index = none ↔
      plan.steps ≠ [] ∧ ¬Xor (p.Reads plan j.left) (∃ r, j.right = some r ∧ p.Reads plan r)) ∧
    (∀ s, p.nextStep? plan index = some s → ∃ left right,
      p.HasInputs plan j left right ∧ j.Extends left right index s ∧
        (j.condition.isSubquery = false → (j.writtenCost left right).isNaN = false →
          (j.swappedCost left right).isNaN = false →
          s.cost = min (j.writtenCost left right) (j.swappedCost left right))) ∧
    ∀ plan' : PartialPlan, (∀ i, i ∈ plan.joins ↔ i ∈ plan'.joins) → plan.cost = plan'.cost →
      plan.rows = plan'.rows → p.nextStep? plan index = p.nextStep? plan' index := by
  refine ⟨Problem.nextStep?_eq_none_iff found, ?_, ?_⟩
  · intro s step
    obtain ⟨j', left, right, found', sides, rfl⟩ := Problem.nextStep?_eq_some_iff.1 step
    obtain rfl := Option.some.inj (found.symm.trans found')
    have inputs := Problem.hasInputs_of_sides? (isIndexed_of_problem posed)
      (Array.mem_of_getElem? found) sides
    have extends' := j.extends_arrange left right index
    exact ⟨left, right, inputs, extends', extends'.cost_eq_min⟩
  · intro plan' same cost rows
    exact Problem.nextStep?_congr same cost rows index

/-- The first and the last join of the chain share no table, so neither follows the other. Behind
the first two, their order does not matter. -/
theorem Inputs.chain_nextStep? :
    (chain.problem = .ok Problem.chain ∧ Problem.chain.joins[0]?.isSome = true ∧
      Problem.chain.joins[2]?.isSome = true) ∧
    Problem.chain.nextStep? (PartialPlan.extend ∅
      { join := 2, outer := .right, cost := 9, rows := 4 }) 0 = none ∧
    Problem.chain.nextStep?
        { cost := 20, rows := 3
          steps := [{ join := 0, outer := .right, cost := 14, rows := 3 },
            { join := 1, outer := .left, cost := 20, rows := 3 }] } 2 =
      Problem.chain.nextStep?
        { cost := 20, rows := 3
          steps := [{ join := 1, outer := .right, cost := 7, rows := 3 },
            { join := 0, outer := .left, cost := 20, rows := 3 }] } 2 := by
  refine ⟨⟨problem_chain, rfl, rfl⟩, ?_, ?_⟩
  · obtain ⟨refused, -, -⟩ := nextStep?_outcome problem_chain
      (show Problem.chain.joins[0]? = some _ from rfl)
      (PartialPlan.extend ∅ { join := 2, outer := .right, cost := 9, rows := 4 })
    refine refused.2 ⟨by simp, ?_⟩
    rw [← Problem.isRead_iff_reads, ← Problem.any_isRead_iff]
    decide
  · obtain ⟨-, -, same⟩ := nextStep?_outcome problem_chain
      (show Problem.chain.joins[2]? = some _ from rfl)
      { cost := 20, rows := 3
        steps := [{ join := 0, outer := .right, cost := 14, rows := 3 },
          { join := 1, outer := .left, cost := 20, rows := 3 }] }
    refine same _ ?_ rfl rfl
    intro i
    simp [PartialPlan.joins, or_comm]

end LeftDeep
