import LeftDeep.Condition
import LeftDeep.Statistics

/-!
# Join estimates

A join runs as a nested loop: the inner side runs once for each row of the outer side, and every
pair of rows is compared. A sub-query has been costed elsewhere, so a join with one adds its cost
once and passes over the outer rows.

## Main definitions

* `Condition.joinCost`: the cost of a join from the costs and rows of its sides.
* `Comparison.joinRows` and `Condition.joinRows`: the rows a join yields.
-/

namespace LeftDeep

/-- The fraction of all pairs of rows assumed to pass a comparison other than equality. -/
def inequalityFraction : Selectivity := 0.3

/-- The rows of a join of two tables. An equality with a key matches each row of the other side at
most once; without a key the larger side bounds the result. Any other comparison passes a fixed
fraction of the pairs, rounded down, and does not look at keys. -/
def Comparison.joinRows (op : Comparison) (leftRows rightRows : Rows)
    (leftKeyed rightKeyed : Bool) : Rows :=
  if op.isEqual then
    if leftKeyed then rightRows
    else if rightKeyed then leftRows
    else max leftRows rightRows
  else (inequalityFraction * leftRows.toFloat * rightRows.toFloat).toUInt64

namespace Condition

/-- The cost of a join whose left side is the outer one. -/
def joinCost (c : Condition) (leftRows rightRows : Rows) (leftCost rightCost : Cost) : Cost :=
  if c.isSubquery then leftRows.toFloat + leftCost + rightCost
  else leftCost + leftRows.toFloat * rightCost + leftRows.toFloat * rightRows.toFloat

/-- The rows of a join. A join with a sub-query keeps the rows of its left side. -/
def joinRows (c : Condition) (leftRows rightRows : Rows) (leftKeyed rightKeyed : Bool) : Rows :=
  if c.isSubquery then leftRows
  else c.op.joinRows leftRows rightRows leftKeyed rightKeyed

end Condition
end LeftDeep
