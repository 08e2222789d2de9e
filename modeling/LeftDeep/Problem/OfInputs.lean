import LeftDeep.PlanError
import LeftDeep.Problem.Basic

/-!
# From a query to a join-ordering problem

The aliases that the joins of a query name are looked up in the query, the catalog, the statistics
and the selectivities. An alias the query does not scan is reported before anything else that may
be missing; of the other defects, the first alias in the order of use decides.

## Main definitions

* `Inputs`: all that planning a query depends on.
* `Inputs.relation`: the relation an alias stands for.
* `Inputs.problem`: the problem a query poses.
-/

namespace LeftDeep

/-- All that planning a query depends on. -/
structure Inputs where
  query : Query := {}
  catalog : Catalog := ∅
  /-- The statistics of tables, by table name. -/
  statistics : Bindings Statistics := ∅
  /-- The selectivities of the filters on scans, by alias. -/
  selectivities : Bindings Selectivity := ∅

namespace Inputs

/-- The value, or the error that stands for its absence. -/
def orError {α : Type} (value : Option α) (e : PlanError) : Except PlanError α :=
  match value with
  | some a => .ok a
  | none => .error e

/-- Whether a selectivity is in the interval from 0 to 1. -/
def isFraction (s : Selectivity) : Bool := 0 ≤ s && s ≤ 1

/-- The relation an alias stands for. -/
def relation (inputs : Inputs) (name : String) : Except PlanError Relation := do
  let id ← orError (inputs.query.tableId? name) (.unknownRelation name)
  let table ← orError (inputs.catalog.nameOf? id) (.unknownTableId id)
  let statistics ← orError (inputs.statistics.find? table) (.missingStatistics table)
  let selectivity ← orError (inputs.selectivities.find? name) (.missingSelectivity name)
  if isFraction selectivity then .ok { name, scan := statistics.scan selectivity }
  else .error (.invalidSelectivity name selectivity)

/-- Whether a column is the primary key of its table. -/
def isKey (inputs : Inputs) (ref : ColumnRef) : Bool :=
  ((inputs.query.tableId? ref.relation).bind inputs.catalog.primaryKey?) == some ref.field

/-- A join between the named relations. -/
def join (inputs : Inputs) (names : List String) (c : Condition) : Join :=
  { condition := c
    left := names.idxOf c.left.relation
    right := c.right.column?.map fun ref => names.idxOf ref.relation
    leftKeyed := inputs.isKey c.left
    rightKeyed := c.right.column?.any inputs.isKey }

/-- The first alias in use that the query does not scan. -/
def unscanned? (inputs : Inputs) : Option String :=
  inputs.query.joinedAliases.find? fun name => (inputs.query.tableId? name).isNone

/-- The relations that the joins read, in the order of their first use. -/
def relationNames (inputs : Inputs) : List String := inputs.query.joinedAliases.eraseDups

/-- The problem that the query poses. -/
def problem (inputs : Inputs) : Except PlanError Problem :=
  match inputs.unscanned? with
  | some name => .error (.unknownRelation name)
  | none => do
    let names := inputs.relationNames
    let relations ← names.mapM inputs.relation
    .ok { joins := (inputs.query.joins.map (inputs.join names)).toArray
          relations := relations.toArray }

end Inputs
end LeftDeep
