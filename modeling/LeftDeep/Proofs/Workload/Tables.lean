import Mathlib.Data.List.Induction
import LeftDeep.Proofs.Catalog.Numbered
import LeftDeep.Proofs.Result
import LeftDeep.Workload.Prepare

/-!
# The catalog of a workload

The tables of a workload are entered into the catalog in their order, each under the next id. As
long as the ids do not run out, the id found for a name leads back to the name and to the primary
key of the workload's table.

## Main definitions

* `TableEntry.table`: a table of the workload under its id.
* `Workload.catalogOf`: the catalog that holds the tables of a workload.

## Main statements

* `TableEntry.primaryKey?_table`: a table has the primary key it is given.
* `Workload.foldlM_enterTable_eq_ok_iff`: tables of distinct names make up a catalog.
* `Workload.exists_idOf?_catalogOf`: what the catalog knows of a table.
-/

namespace LeftDeep

namespace TableEntry

/-- A table of the workload, created after `index` others. -/
def table (t : TableEntry) (index : ℕ) : Table :=
  { id := (index + 1).toUInt32, name := t.name, columns := t.schema }

@[simp] theorem id_table (t : TableEntry) (index : ℕ) :
    (t.table index).id = (index + 1).toUInt32 := rfl

@[simp] theorem name_table (t : TableEntry) (index : ℕ) : (t.table index).name = t.name := rfl

/-- The first mentioned column that is the key, however often it is mentioned. -/
theorem find?_mentioned (columns : List String) (key : String) :
    ((columns.map fun name => ({ name, isPrimaryKey := some key == some name } : Column)).find?
      Column.isPrimaryKey).map Column.name = if key ∈ columns then some key else none := by
  induction columns with
  | nil => simp
  | cons name columns ih =>
    by_cases same : key = name
    · simp [same]
    · simpa [same] using ih

/-- A table has the primary key it is given, among its columns or not. -/
@[simp] theorem primaryKey?_table (t : TableEntry) (index : ℕ) :
    (t.table index).primaryKey? = t.primaryKey := by
  rw [table, Table.primaryKey?, schema]
  cases t.primaryKey with
  | none => simp [List.find?_map, Function.comp_def]
  | some key =>
    have mentioned := find?_mentioned t.columns key
    by_cases mem : key ∈ t.columns
    · simpa [mem] using mentioned
    · rw [if_neg mem, Option.map_eq_none_iff] at mentioned
      have absent : ¬t.columns.contains key = true := by simpa using mem
      dsimp only
      rw [if_neg absent, List.find?_append, mentioned]
      rfl

end TableEntry

namespace Workload

variable {entries : List TableEntry} {catalog : Catalog} {name : String}

/-- The catalog that holds the given tables. -/
def catalogOf (entries : List TableEntry) : Catalog :=
  ⟨entries.mapIdx fun i t => t.table i⟩

/-! ## Entering tables -/

theorem mem_tables_catalogOf {table : Table} : table ∈ (catalogOf entries).tables ↔
    ∃ i, ∃ h : i < entries.length, entries[i].table i = table :=
  List.mem_mapIdx

theorem names_catalogOf (entries : List TableEntry) :
    (catalogOf entries).tables.map Table.name = entries.map TableEntry.name := by
  apply List.ext_getElem
  · simp [catalogOf]
  · simp [catalogOf]

theorem table?_catalogOf_eq_none_iff :
    (catalogOf entries).table? name = none ↔ name ∉ entries.map TableEntry.name := by
  rw [Catalog.table?_eq_none_iff, names_catalogOf]

/-- A table is refused if its name is in use, and else entered under the next id. -/
theorem enterTable_eq (catalog : Catalog) (t : TableEntry) :
    enterTable catalog t = if (catalog.table? t.name).isSome
      then .error (.catalog (.tableExists t.name))
      else .ok ⟨catalog.tables ++ [t.table catalog.tables.length]⟩ := by
  rw [enterTable, Catalog.create]
  cases catalog.table? t.name <;> rfl

theorem enterTable_catalogOf_eq_ok_iff (t : TableEntry) :
    enterTable (catalogOf entries) t = .ok catalog ↔
      t.name ∉ entries.map TableEntry.name ∧ catalog = catalogOf (entries ++ [t]) := by
  rw [enterTable_eq, ← table?_catalogOf_eq_none_iff]
  cases (catalogOf entries).table? t.name with
  | some table => simp
  | none => simp [catalogOf, List.mapIdx_concat, @eq_comm _ catalog]

/-- Tables of distinct names make up a catalog, and no others do. -/
theorem foldlM_enterTable_eq_ok_iff (entries : List TableEntry) (catalog : Catalog) :
    entries.foldlM enterTable ∅ = .ok catalog ↔
      (entries.map TableEntry.name).Nodup ∧ catalog = catalogOf entries := by
  -- From the end, as the id of a table is the number of tables before it.
  induction entries using List.reverseRecOn generalizing catalog with
  | nil =>
    simp only [List.foldlM_nil, pure, Except.pure, Except.ok.injEq, List.map_nil, List.nodup_nil,
      true_and]
    exact eq_comm
  | append_singleton entries t ih =>
    have distinct : ((entries ++ [t]).map TableEntry.name).Nodup ↔
        (entries.map TableEntry.name).Nodup ∧ t.name ∉ entries.map TableEntry.name := by
      rw [List.map_append, List.map_singleton, ← List.concat_eq_append, List.nodup_concat, and_comm]
    rw [List.foldlM_append, bind_eq_ok_iff, distinct]
    constructor
    · rintro ⟨before, entered, last⟩
      obtain ⟨nodup, rfl⟩ := (ih before).1 entered
      rw [List.foldlM_cons, bind_eq_ok_iff] at last
      obtain ⟨after, last, same⟩ := last
      obtain rfl := Except.ok.inj same
      obtain ⟨fresh, rfl⟩ := (enterTable_catalogOf_eq_ok_iff t).1 last
      exact ⟨⟨nodup, fresh⟩, rfl⟩
    · rintro ⟨⟨nodup, fresh⟩, rfl⟩
      refine ⟨catalogOf entries, (ih _).2 ⟨nodup, rfl⟩, ?_⟩
      rw [List.foldlM_cons, bind_eq_ok_iff]
      exact ⟨_, (enterTable_catalogOf_eq_ok_iff t).2 ⟨fresh, rfl⟩, rfl⟩

/-! ## Looking up tables -/

theorem isNumbered_catalogOf (nodup : (entries.map TableEntry.name).Nodup) :
    (catalogOf entries).IsNumbered := by
  refine ⟨names_catalogOf entries ▸ nodup, ?_⟩
  apply List.ext_getElem
  · simp [catalogOf]
  · simp [catalogOf]

/-- What the catalog knows of a table. -/
theorem exists_idOf?_catalogOf (small : entries.length < 2 ^ 32)
    (nodup : (entries.map TableEntry.name).Nodup) {t : TableEntry} (mem : t ∈ entries) :
    ∃ id, (catalogOf entries).idOf? t.name = some id ∧
      (catalogOf entries).nameOf? id = some t.name ∧
      (catalogOf entries).primaryKey? id = t.primaryKey := by
  obtain ⟨i, hi, rfl⟩ := List.mem_iff_getElem.1 mem
  have entered : entries[i].table i ∈ (catalogOf entries).tables :=
    mem_tables_catalogOf.2 ⟨i, hi, rfl⟩
  have numbered := isNumbered_catalogOf nodup
  have length : (catalogOf entries).tables.length < 2 ^ 32 := by simpa [catalogOf] using small
  have byName := numbered.table?_eq_some_iff.2 ⟨entered, rfl⟩
  have byId := (numbered.tableById?_eq_some_iff length).2 ⟨entered, rfl⟩
  refine ⟨(entries[i].table i).id, ?_, ?_, ?_⟩
  · exact congrArg (Option.map Table.id) byName
  · exact congrArg (Option.map Table.name) byId
  · rw [← TableEntry.primaryKey?_table entries[i] i]
    exact congrArg (Option.bind · Table.primaryKey?) byId

theorem idOf?_catalogOf_eq_none_iff :
    (catalogOf entries).idOf? name = none ↔ name ∉ entries.map TableEntry.name := by
  rw [Catalog.idOf?, Option.map_eq_none_iff, table?_catalogOf_eq_none_iff]

end Workload
end LeftDeep
