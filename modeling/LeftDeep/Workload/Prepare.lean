import LeftDeep.Planner
import LeftDeep.Workload.Basic

/-!
# From a workload to planning

The tables of a workload are entered into a new catalog, then its scans are bound, then its joins
are read. The first defect in this order is the one reported.

## Main definitions

* `TableEntry.schema`: the columns a table is created with.
* `JoinEntry.condition`: the condition of a join entry.
* `Workload.inputs`: all that planning the workload's query depends on.
-/

namespace LeftDeep

/-- The columns a table is created with: the mentioned ones, and the primary key if it is not
among them. -/
def TableEntry.schema (t : TableEntry) : List Column :=
  let mentioned := t.columns.map fun name =>
    ({ name, isPrimaryKey := t.primaryKey == some name } : Column)
  match t.primaryKey with
  | some key => if t.columns.contains key then mentioned else mentioned ++ [⟨key, true⟩]
  | none => mentioned

/-- A column given by its written form. -/
def WorkloadError.column (text : String) : Except WorkloadError ColumnRef :=
  match ColumnRef.parse? text with
  | some ref => .ok ref
  | none => .error (.invalidColumnRef text)

/-- The condition of a join entry. -/
def JoinEntry.condition (j : JoinEntry) : Except WorkloadError Condition := do
  let left ← WorkloadError.column j.left
  match j.right with
  | some text =>
    let right ← WorkloadError.column text
    .ok { left, op := j.op, right := .column right }
  | none => .ok { left, op := j.op, right := .subquery }

namespace Workload

/-- Enters a table into the catalog. -/
def enterTable (catalog : Catalog) (t : TableEntry) : Except WorkloadError Catalog :=
  match catalog.create t.name t.schema with
  | .ok (_, catalog) => .ok catalog
  | .error e => .error (.catalog e)

/-- The scan of a table under its own name, without filters. -/
def defaultScan (t : TableEntry) : ScanEntry := { table := t.name }

/-- The scans of the query. -/
def effectiveScans (w : Workload) : List ScanEntry :=
  if w.scans.isEmpty then w.tables.map defaultScan else w.scans

/-- The table of a scan. -/
def scannedTable (catalog : Catalog) (s : ScanEntry) : Except WorkloadError TableId :=
  match catalog.idOf? s.table with
  | some id => .ok id
  | none => .error (.catalog (.tableNotFound s.table))

/-- All that planning the workload's query depends on. -/
def inputs (w : Workload) : Except WorkloadError Inputs := do
  let catalog ← w.tables.foldlM enterTable ∅
  let scans ← w.effectiveScans.mapM fun s => (scannedTable catalog s).map fun id => (s, id)
  let joins ← w.joins.mapM JoinEntry.condition
  let bound := scans.foldl (fun q (s, id) => q.withScan s.boundName id) (Query.empty w.query)
  .ok { query := { bound with joins }
        catalog
        statistics := w.tables.foldl (fun b t => b.bind t.name t.statistics) ∅
        selectivities := w.effectiveScans.foldl (fun b s => b.bind s.boundName s.selectivity) ∅ }

end Workload
end LeftDeep
