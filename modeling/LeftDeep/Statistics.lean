import LeftDeep.Decimal.Layout

/-!
# Table statistics and scan estimates

What is known about the size of a table, and what scanning it is estimated to cost and to yield.

## Main definitions

* `Statistics`: the numbers of tuples and pages, and the cost of reading one page.
* `Estimate`: an estimated cost with an estimated number of rows.
* `Statistics.scanCost` and `Statistics.filteredRows`.
-/

namespace LeftDeep

/-- An estimated cost, in abstract units of reading and computing. -/
abbrev Cost := Float

/-- An estimated number of rows. -/
abbrev Rows := UInt64

/-- The fraction of a table's rows that pass its filters. -/
abbrev Selectivity := Float

/-- The selectivity of a table without filters. -/
def unfiltered : Selectivity := 1.0

/-- What running a part of a query is estimated to cost and to yield. -/
structure Estimate where
  cost : Cost
  rows : Rows
  deriving BEq, Repr

/-- The written form of an estimate, as it stands in plans and trees. -/
def Estimate.text (e : Estimate) : String :=
  "(cost = " ++ plainText e.cost ++ ", card = " ++ toString e.rows.toNat ++ ")"

/-- The size of a table. A scan reads every page once. -/
structure Statistics where
  tuples : Rows
  pages : UInt64
  pageCost : Cost := 1.0
  deriving BEq, Repr

namespace Statistics

/-- The cost of one scan of the whole table. -/
def scanCost (s : Statistics) : Cost := s.pages.toFloat * s.pageCost

/-- The rows left by filters of the given selectivity, rounded down. What is negative or no number
gives no rows, and what is too large gives the largest count. -/
def filteredRows (s : Statistics) (selectivity : Selectivity) : Rows :=
  (s.tuples.toFloat * selectivity).toUInt64

/-- The estimate of scanning the table under filters of the given selectivity. -/
def scan (s : Statistics) (selectivity : Selectivity) : Estimate :=
  { cost := s.scanCost, rows := s.filteredRows selectivity }

end Statistics
end LeftDeep
