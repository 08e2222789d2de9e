import LeftDeep.Format.Basic
import LeftDeep.Workload.Basic

/-!
# The written form of workloads

A table entry holds the fields of its statistics among its own, and is always an object. Its other
fields are set aside first and looked at later, so a field that it does not know must be readable
all the same.

## Main definitions

* `Workload.ofValue?` and `Workload.toValue`: a workload and its JSON value.
* `Workload.parse` and `Workload.render`: a workload and its text.
* `Workload.ofFile`: a workload from the bytes of a file.
-/

namespace LeftDeep

namespace TableEntry

/-- The names of the fields that are not statistics, in order. -/
def ownFieldNames : List String := ["name", "columns", "primary_key"]

/-- How many levels of containers may nest. The innermost one is inside all others. -/
def nestingLimit : Nat := 127

/-- The containers around a field of a table entry: the workload, its tables, and the entry. -/
def nesting : Nat := 3

/-- Reads a table entry. -/
def ofValue? : Json.Value → Option TableEntry
  | .object members => do
    let all ← Json.Fields.ofMembers? members
    let fs ← all.known? (ownFieldNames ++ Statistics.fieldNames)
    let aside := all.filter fun (n, _) => !ownFieldNames.contains n
    let name ← fs.required? "name" Json.Value.text?
    let columns ← fs.orDefault? "columns" (Json.Value.list? Json.Value.text?) []
    let primaryKey ← fs.orDefault? "primary_key" Json.Value.optionalText? none
    let statistics ← Statistics.ofFields? fs
    if aside.all fun (_, v) => v.isReadable (nestingLimit - nesting) then
      some { name, columns, primaryKey, statistics }
    else none
  | _ => none

/-- Writes a table entry. -/
def toValue (t : TableEntry) : Json.Value :=
  .record ([("name", .ofText t.name), ("columns", .array (t.columns.map .ofText)),
    ("primary_key", .ofText? t.primaryKey)] ++ t.statistics.toFields)

end TableEntry

namespace ScanEntry

/-- The names of the fields, in order. -/
def fieldNames : List String := ["table", "alias", "selectivity"]

/-- Reads a scan. -/
def ofValue? (v : Json.Value) : Option ScanEntry := do
  let fs ← v.fields? fieldNames
  let table ← fs.required? "table" Json.Value.text?
  let name ← fs.orDefault? "alias" Json.Value.optionalText? none
  let selectivity ← fs.orDefault? "selectivity" Json.Value.float? unfiltered
  some { table, name, selectivity }

/-- Writes a scan. -/
def toValue (s : ScanEntry) : Json.Value :=
  .record [("table", .ofText s.table), ("alias", .ofText? s.name),
    ("selectivity", .ofFloat s.selectivity)]

end ScanEntry

namespace JoinEntry

/-- The names of the fields, in order. -/
def fieldNames : List String := ["left", "op", "right"]

/-- Reads a join condition. -/
def ofValue? (v : Json.Value) : Option JoinEntry := do
  let fs ← v.fields? fieldNames
  let left ← fs.required? "left" Json.Value.text?
  let op ← fs.orDefault? "op" Comparison.ofValue? .equal
  let right ← fs.orDefault? "right" Json.Value.optionalText? none
  some { left, op, right }

/-- Writes a join condition. -/
def toValue (j : JoinEntry) : Json.Value :=
  .record [("left", .ofText j.left), ("op", j.op.toValue), ("right", .ofText? j.right)]

end JoinEntry

namespace Workload

/-- The names of the fields, in order. -/
def fieldNames : List String := ["query", "tables", "scans", "joins", "config"]

/-- Reads a workload. -/
def ofValue? (v : Json.Value) : Option Workload := do
  let fs ← v.fields? fieldNames
  let query ← fs.orDefault? "query" Json.Value.optionalText? none
  let tables ← fs.required? "tables" (Json.Value.list? TableEntry.ofValue?)
  let scans ← fs.orDefault? "scans" (Json.Value.list? ScanEntry.ofValue?) []
  let joins ← fs.required? "joins" (Json.Value.list? JoinEntry.ofValue?)
  let config ← fs.orDefault? "config" SearchConfig.ofValue? {}
  some { query, tables, scans, joins, config }

/-- Writes a workload. -/
def toValue (w : Workload) : Json.Value :=
  .record [("query", .ofText? w.query), ("tables", .array (w.tables.map TableEntry.toValue)),
    ("scans", .array (w.scans.map ScanEntry.toValue)),
    ("joins", .array (w.joins.map JoinEntry.toValue)), ("config", w.config.toValue)]

/-- Reads the text of a workload. -/
def parse (text : String) : Except WorkloadError Workload :=
  match Json.read? ofValue? text with
  | some w => .ok w
  | none => .error .format

/-- The text of a workload. -/
def render (w : Workload) : String := w.toValue.render

/-- Reads a workload from the bytes of a file, if the file could be read. -/
def ofFile (file : Except ReadError ByteArray) : Except WorkloadError Workload :=
  match file with
  | .error e => .error (.read e)
  | .ok bytes =>
    match String.fromUTF8? bytes with
    | some text => parse text
    | none => .error (.read .invalidText)

end Workload
end LeftDeep
