import LeftDeep.JoinEstimate
import LeftDeep.PartialPlan

/-!
# Join-ordering problems

A join-ordering problem is what a search needs to know of a query: the relations that its joins
read, each with the estimate of its scan, and the joins between them. Joins and relations are
known by their index.

Joins are appended to a left-deep plan one at a time. The first join reads both of its sides from
tables. A later join must have exactly one side among the relations the plan already reads; the
plan then stands in for that side. Anything else would pair rows without a condition, or compare
the plan with itself, and is refused.

## Main definitions

* `Problem`, `Relation`, `Join`: the problem.
* `Problem.sides?`: the two inputs of a join that is appended to a plan.
* `Join.arrange`: the cheaper way to run a join.
* `Problem.nextStep?`: the step that appends a join.
-/

namespace LeftDeep

/-- A relation that some join reads. -/
structure Relation where
  /-- The alias it is scanned under. -/
  name : String
  scan : Estimate
  deriving BEq, Repr

/-- A join between relations of a problem. -/
structure Join where
  condition : Condition
  /-- The index of the relation on the left. -/
  left : Nat
  /-- The index of the relation on the right, unless that side is a sub-query. -/
  right : Option Nat
  /-- Whether the left column is a primary key. -/
  leftKeyed : Bool
  /-- Whether the right column is a primary key. -/
  rightKeyed : Bool
  deriving DecidableEq, Repr

/-- The joins of a query and the relations they read. -/
structure Problem where
  joins : Array Join
  relations : Array Relation
  deriving BEq, Repr

/-- One input of a join: its estimate, and whether its rows are known to have a key. -/
structure Side extends Estimate where
  keyed : Bool
  deriving BEq, Repr

/-- A sub-query as an input. Its own cost is not known here. -/
def Side.absent : Side := { cost := 0, rows := 0, keyed := false }

/-- A way to run a join: which side is the outer one, and the cost. -/
structure Arrangement where
  outerSide : OuterSide
  outer : Side
  inner : Side
  cost : Cost
  deriving BEq, Repr

/-- A condition with its outer side on the left. -/
def Condition.withOuter (c : Condition) : OuterSide → Condition
  | .left => c
  | .right => c.swap

namespace Join

/-- Whether the join reads a relation. -/
def reads (j : Join) (relation : Nat) : Bool := j.left == relation || j.right == some relation

/-- Whether a column of the join is a primary key. -/
def hasKey (j : Join) : Bool := j.leftKeyed || j.rightKeyed

/-- The join as the query has it. -/
def leftOuter (j : Join) (left right : Side) : Arrangement :=
  { outerSide := .left, outer := left, inner := right
    cost := j.condition.joinCost left.rows right.rows left.cost right.cost }

/-- The join with its sides exchanged. -/
def rightOuter (j : Join) (left right : Side) : Arrangement :=
  { outerSide := .right, outer := right, inner := left
    cost := j.condition.swap.joinCost right.rows left.rows right.cost left.cost }

/-- The cheaper way to run a join of two inputs. It is swapped only if that is strictly cheaper,
and never if the right side is a sub-query. -/
def arrange (j : Join) (left right : Side) : Arrangement :=
  if j.condition.isSubquery then j.leftOuter left right
  else if (j.rightOuter left right).cost < (j.leftOuter left right).cost then j.rightOuter left right
  else j.leftOuter left right

/-- The rows of a join that runs in the given way. -/
def rows (j : Join) (a : Arrangement) : Rows :=
  (j.condition.withOuter a.outerSide).joinRows a.outer.rows a.inner.rows a.outer.keyed
    a.inner.keyed

end Join

namespace Problem

/-- The number of joins. -/
def size (p : Problem) : Nat := p.joins.size

/-- The condition of a join. -/
def condition? (p : Problem) (index : Nat) : Option Condition :=
  p.joins[index]?.map Join.condition

/-- The scan estimates of the relations, in order. -/
def scans (p : Problem) : List (String × Estimate) :=
  p.relations.toList.map fun r => (r.name, r.scan)

/-- Whether some join of a plan reads a relation. -/
def isRead (p : Problem) (steps : List Step) (relation : Nat) : Bool :=
  steps.any fun s => p.joins[s.join]?.any fun j => j.reads relation

/-- Whether some join of a plan compares a primary key. -/
def hasKey (p : Problem) (steps : List Step) : Bool :=
  steps.any fun s => p.joins[s.join]?.any Join.hasKey

/-- A relation as an input, read by a scan. -/
def scanned (p : Problem) (relation : Option Nat) (keyed : Bool) : Side :=
  match relation.bind fun r => p.relations[r]? with
  | some r => { toEstimate := r.scan, keyed }
  | none => .absent

/-- A plan as an input. -/
def planned (p : Problem) (plan : PartialPlan) : Side :=
  { toEstimate := plan.toEstimate, keyed := p.hasKey plan.steps }

/-- The inputs of a join that is appended to a plan: the scans of both sides if the plan is empty,
and else the plan on the one side that it reads. -/
def sides? (p : Problem) (plan : PartialPlan) (j : Join) : Option (Side × Side) :=
  if plan.isEmpty then some (p.scanned (some j.left) j.leftKeyed, p.scanned j.right j.rightKeyed)
  else
    match p.isRead plan.steps j.left, j.right.any (p.isRead plan.steps) with
    | true, false => some (p.planned plan, p.scanned j.right j.rightKeyed)
    | false, true => some (p.scanned (some j.left) j.leftKeyed, p.planned plan)
    | _, _ => none

/-- The step that appends a join to a plan, unless that would need a cross product. -/
def nextStep? (p : Problem) (plan : PartialPlan) (index : Nat) : Option Step := do
  let j ← p.joins[index]?
  let (left, right) ← p.sides? plan j
  let a := j.arrange left right
  some { join := index, outer := a.outerSide, cost := a.cost, rows := j.rows a }

theorem join_of_nextStep? {p : Problem} {plan : PartialPlan} {index : Nat} {s : Step}
    (h : p.nextStep? plan index = some s) : s.join = index := by
  simp only [nextStep?, bind, Option.bind_eq_some_iff] at h
  obtain ⟨_, _, _, _, h⟩ := h
  obtain rfl := Option.some.inj h
  rfl

end Problem
end LeftDeep
