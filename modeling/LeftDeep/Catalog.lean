/-!
# Tables and the catalog

The catalog knows the tables a query may scan: their names, columns and primary keys. A table gets
its id when it is created; ids count up from 1 and names are unique.

## Main definitions

* `Table` and `Column`: a table's schema, with `Table.primaryKey?`.
* `Catalog.create`: adds a table and assigns its id.
* `Catalog.table?`, `Catalog.idOf?`, `Catalog.nameOf?`, `Catalog.primaryKey?`: look-ups by name
  and by id.
-/

namespace LeftDeep

/-- The number a catalog knows a table by. -/
abbrev TableId := UInt32

/-- A column of a table. -/
structure Column where
  name : String
  /-- Whether the column is declared as the primary key. -/
  isPrimaryKey : Bool
  deriving DecidableEq, Repr

/-- A table's schema. A table outside a catalog has id 0. -/
structure Table where
  id : TableId
  name : String
  columns : List Column
  deriving DecidableEq, Repr

namespace Table

/-- The first column of a name. -/
def column? (t : Table) (name : String) : Option Column :=
  t.columns.find? fun c => c.name == name

/-- Whether there is a column of a name. -/
def hasColumn (t : Table) (name : String) : Bool := (t.column? name).isSome

/-- The name of the first column declared as primary key. Keys have one column. -/
def primaryKey? (t : Table) : Option String :=
  (t.columns.find? Column.isPrimaryKey).map Column.name

end Table

/-- Why a catalog look-up or change fails. -/
inductive CatalogError where
  | tableExists (name : String)
  | tableNotFound (name : String)
  deriving DecidableEq, Repr

/-- The text of a catalog error. -/
def CatalogError.message : CatalogError → String
  | tableExists name => "Table " ++ name ++ " already exists"
  | tableNotFound name => "Table " ++ name ++ " not found"

/-- The known tables, in the order they were created. -/
structure Catalog where
  tables : List Table
  deriving DecidableEq, Repr

namespace Catalog

/-- The catalog without tables. -/
def empty : Catalog := ⟨[]⟩

instance : EmptyCollection Catalog := ⟨empty⟩
instance : Inhabited Catalog := ⟨empty⟩

/-- The table of a name. -/
def table? (c : Catalog) (name : String) : Option Table :=
  c.tables.find? fun t => t.name == name

/-- The table of an id. -/
def tableById? (c : Catalog) (id : TableId) : Option Table :=
  c.tables.find? fun t => t.id == id

/-- The id of a name. -/
def idOf? (c : Catalog) (name : String) : Option TableId := (c.table? name).map Table.id

/-- The name of an id. -/
def nameOf? (c : Catalog) (id : TableId) : Option String := (c.tableById? id).map Table.name

/-- The primary key of the table of an id, if it declares one. -/
def primaryKey? (c : Catalog) (id : TableId) : Option String :=
  (c.tableById? id).bind Table.primaryKey?

/-- The id the next table gets. -/
def nextId (c : Catalog) : TableId := (c.tables.length + 1).toUInt32

/-- Adds a table and returns its id. A name in use is refused. -/
def create (c : Catalog) (name : String) (columns : List Column) :
    Except CatalogError (TableId × Catalog) :=
  match c.table? name with
  | some _ => .error (.tableExists name)
  | none => .ok (c.nextId, ⟨c.tables ++ [{ id := c.nextId, name, columns }]⟩)

end Catalog
end LeftDeep
