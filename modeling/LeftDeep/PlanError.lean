import LeftDeep.Query
import LeftDeep.Statistics

/-!
# Why a query cannot be planned

## Main definitions

* `PlanError`: the causes of failure.
* `PlanError.message`: their texts.
-/

namespace LeftDeep

/-- Why no plan is returned. -/
inductive PlanError where
  /-- A join condition names an alias that the query does not scan. -/
  | unknownRelation (relation : String)
  /-- A scan has an id that no table has. -/
  | unknownTableId (id : TableId)
  | missingStatistics (table : String)
  | missingSelectivity (relation : String)
  /-- A selectivity outside the interval from 0 to 1. -/
  | invalidSelectivity (relation : String) (value : Selectivity)
  /-- The exhaustive search found no order of all the joins. -/
  | infeasible (joins : Nat)
  /-- The greedy search could not append any of the joins that remain. -/
  | disconnected (remaining : List Condition)
  /-- More joins than the exhaustive search can address. -/
  | tooManyJoins (count limit : Nat)

/-- The text of an error. -/
def PlanError.message : PlanError → String
  | unknownRelation relation => "Unknown table " ++ relation
  | unknownTableId id => "Table id " ++ toString id.toNat ++ " is not in the catalog"
  | missingStatistics table => "No statistics for table " ++ table
  | missingSelectivity relation => "No filter selectivity for table " ++ relation
  | invalidSelectivity relation value =>
    "Selectivity " ++ plainText value ++ " for table " ++ relation ++ " is outside [0, 1]"
  | infeasible joins =>
    "No left-deep plan without cross products covers all " ++ toString joins ++ " joins"
  | disconnected remaining =>
    "Joins cannot be connected to the plan without a cross product: "
      ++ ", ".intercalate (remaining.map Condition.text)
  | tooManyJoins count limit =>
    "Dynamic programming supports at most " ++ toString limit ++ " joins, got " ++ toString count

end LeftDeep
