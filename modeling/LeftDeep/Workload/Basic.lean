import LeftDeep.Catalog
import LeftDeep.Comparison
import LeftDeep.Statistics
import LeftDeep.Strategy

/-!
# Workloads

A workload describes one query together with the tables it reads and their statistics. It is what
a workload file holds.

## Main definitions

* `Workload`: the query, its tables, scans and joins, and how to order them.
* `WorkloadError`: why a workload cannot be loaded or prepared.
-/

namespace LeftDeep

/-- A table of a workload and its statistics. -/
structure TableEntry where
  name : String
  /-- The names of the columns that are mentioned. -/
  columns : List String := []
  /-- The name of the primary key, which need not be among the columns. -/
  primaryKey : Option String := none
  statistics : Statistics
  deriving BEq, Repr

/-- A scan of a table. -/
structure ScanEntry where
  table : String
  /-- The alias of the scan; without one, the name of the table. -/
  name : Option String := none
  selectivity : Selectivity := unfiltered
  deriving BEq, Repr

/-- The alias a scan binds. -/
def ScanEntry.boundName (s : ScanEntry) : String := s.name.getD s.table

/-- A join condition between columns given by their written forms. Without a right side it is one
with a sub-query. -/
structure JoinEntry where
  left : String
  op : Comparison := .equal
  right : Option String := none
  deriving DecidableEq, Repr

/-- A query with its tables, and how to order its joins. -/
structure Workload where
  /-- The query as its author wrote it. -/
  query : Option String := none
  tables : List TableEntry
  /-- The scans. If there are none, every table is scanned once under its own name. -/
  scans : List ScanEntry := []
  joins : List JoinEntry
  config : SearchConfig := {}
  deriving BEq, Repr

/-- Why a file cannot be read as text. -/
inductive ReadError where
  /-- The system refused, with its description and error number. -/
  | system (description : String) (code : Nat)
  /-- The bytes are not UTF-8. -/
  | invalidText
  deriving DecidableEq, Repr

namespace ReadError

/-- There is no such file. -/
def notFound : ReadError := .system "No such file or directory" 2

/-- The text of a read error. -/
def message : ReadError → String
  | system description code => description ++ " (os error " ++ toString code ++ ")"
  | invalidText => "stream did not contain valid UTF-8"

end ReadError

/-- Why a workload cannot be loaded or prepared. -/
inductive WorkloadError where
  | read (e : ReadError)
  /-- The text is no JSON, or the JSON is no workload. -/
  | format
  | catalog (e : CatalogError)
  /-- A join side that does not have the form `alias.field`. -/
  | invalidColumnRef (text : String)
  deriving DecidableEq, Repr

namespace WorkloadError

/-- The text of a workload error. What is wrong with a refused text is not told. -/
def message : WorkloadError → String
  | read e => "I/O error: " ++ e.message
  | format => "Invalid workload JSON"
  | catalog e => "Catalog error: " ++ e.message
  | invalidColumnRef text => "Invalid column reference '" ++ text ++ "', expected alias.field"

/-- The texts of the error and of the errors behind it, outermost first. The text of the error behind
a refused text is left blank. -/
def causes (e : WorkloadError) : List String :=
  match e with
  | read inner => [e.message, inner.message]
  | format => [e.message, ""]
  | catalog inner => [e.message, inner.message]
  | invalidColumnRef _ => [e.message]

end WorkloadError
end LeftDeep
