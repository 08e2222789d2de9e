import LeftDeep.Catalog
import LeftDeep.Format.Basic

/-!
# The written form of table schemas

A column without a mark is no primary key. The other fields have to be there.
-/

namespace LeftDeep

namespace Column

/-- The names of the fields, in order. -/
def fieldNames : List String := ["name", "primary_key"]

/-- Reads a column. -/
def ofValue? (v : Json.Value) : Option Column := do
  let fs ← v.fields? fieldNames
  let name ← fs.required? "name" Json.Value.text?
  let isPrimaryKey ← fs.orDefault? "primary_key" Json.Value.bool? false
  some { name, isPrimaryKey }

/-- Writes a column. -/
def toValue (c : Column) : Json.Value :=
  .record [("name", .ofText c.name), ("primary_key", .bool c.isPrimaryKey)]

end Column

namespace Table

/-- The names of the fields, in order. -/
def fieldNames : List String := ["id", "name", "columns"]

/-- Reads a schema. -/
def ofValue? (v : Json.Value) : Option Table := do
  let fs ← v.fields? fieldNames
  let id ← fs.required? "id" Json.Value.uint32?
  let name ← fs.required? "name" Json.Value.text?
  let columns ← fs.required? "columns" (Json.Value.list? Column.ofValue?)
  some { id, name, columns }

/-- Writes a schema. -/
def toValue (t : Table) : Json.Value :=
  .record [("id", .ofUInt64 t.id.toUInt64), ("name", .ofText t.name),
    ("columns", .array (t.columns.map Column.toValue))]

end Table
end LeftDeep
