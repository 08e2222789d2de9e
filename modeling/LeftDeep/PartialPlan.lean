import LeftDeep.Statistics

/-!
# Left-deep partial plans

A left-deep plan joins one condition after another to the result so far. A partial plan keeps the
conditions already placed, by their index in the query, with the estimates after each.

## Main definitions

* `OuterSide`: which side of a join runs as the outer one.
* `Step`: one placed join with the estimate of the plan up to it.
* `PartialPlan`: the steps so far, with `PartialPlan.extend`.
-/

namespace LeftDeep

/-- Which side of a join runs as the outer one. -/
inductive OuterSide where
  /-- The left side: the join runs as the query has it. -/
  | left
  /-- The right side: the sides trade places. -/
  | right
  deriving DecidableEq, Repr, Inhabited

/-- A join placed in a plan, with the cost of the plan up to it and the rows it yields. -/
structure Step extends Estimate where
  /-- The index of the join in the query. -/
  join : Nat
  /-- The side that runs as the outer one. -/
  outer : OuterSide
  deriving BEq, Repr

/-- A left-deep plan of some of the joins, with its cost and the rows it yields. -/
structure PartialPlan extends Estimate where
  steps : List Step
  deriving BEq, Repr

namespace PartialPlan

/-- The plan without joins. -/
def empty : PartialPlan := { steps := [], cost := 0, rows := 0 }

instance : EmptyCollection PartialPlan := ⟨empty⟩
instance : Inhabited PartialPlan := ⟨empty⟩

/-- Whether no join is placed. -/
def isEmpty (p : PartialPlan) : Bool := p.steps.isEmpty

/-- The plan followed by one more step, whose estimates become those of the plan. -/
def extend (p : PartialPlan) (s : Step) : PartialPlan :=
  { steps := p.steps ++ [s], cost := s.cost, rows := s.rows }

/-- The indexes of the placed joins, in order. -/
def joins (p : PartialPlan) : List Nat := p.steps.map Step.join

@[simp] theorem steps_extend (p : PartialPlan) (s : Step) :
    (p.extend s).steps = p.steps ++ [s] := rfl

@[simp] theorem cost_extend (p : PartialPlan) (s : Step) : (p.extend s).cost = s.cost := rfl

@[simp] theorem rows_extend (p : PartialPlan) (s : Step) : (p.extend s).rows = s.rows := rfl

@[simp] theorem joins_extend (p : PartialPlan) (s : Step) :
    (p.extend s).joins = p.joins ++ [s.join] := by
  simp [joins]

@[simp] theorem isEmpty_extend (p : PartialPlan) (s : Step) : (p.extend s).isEmpty = false := by
  simp [isEmpty]

end PartialPlan
end LeftDeep
