import LeftDeep.Proofs.Workload.Tables

/-!
# What a workload prepares

A workload is prepared by going over its tables, its scans and its joins. What comes out can be said
without the order of these stages: an alias stands for the last scan that binds it, and this scan
for the table of its name.

## Main definitions

* `Workload.scanOf?`: the last scan that binds an alias.
* `Workload.tableOf?`: the table of a name.
* `Workload.source?`: the scan and the table that an alias stands for.
* `Workload.IsPrepared`: the inputs that a workload prepares.
* `Workload.residents`: a workload of two tables and three scans.

## Main statements

* `Workload.isPrepared_of_inputs`: the stages prepare these inputs.
* `Workload.IsPrepared.relation_eq`: the relation of an alias.
* `Workload.IsPrepared.isKey_eq`: the primary keys.
-/

namespace LeftDeep.Workload

variable {w : Workload} {inputs : Inputs} {name : String} {s : ScanEntry} {t : TableEntry}

/-- The last scan that binds an alias. -/
def scanOf? (w : Workload) (name : String) : Option ScanEntry :=
  w.effectiveScans.reverse.find? fun s => s.boundName == name

/-- The table of a name. -/
def tableOf? (w : Workload) (name : String) : Option TableEntry :=
  w.tables.find? fun t => t.name == name

/-- The scan and the table that an alias stands for. -/
def source? (w : Workload) (name : String) : Option (ScanEntry × TableEntry) := do
  let s ← w.scanOf? name
  let t ← w.tableOf? s.table
  some (s, t)

/-- What the stages prepare for planning. -/
structure IsPrepared (w : Workload) (inputs : Inputs) : Prop where
  /-- The ids of the tables do not run out. -/
  ids : w.tables.length < 2 ^ 32 - 1
  names_nodup : (w.tables.map TableEntry.name).Nodup
  catalog : inputs.catalog = catalogOf w.tables
  /-- Every scan reads a table of the workload. -/
  known : ∀ s ∈ w.effectiveScans, s.table ∈ w.tables.map TableEntry.name
  joins : w.joins.mapM JoinEntry.condition = .ok inputs.query.joins
  tableId? (name : String) : inputs.query.tableId? name =
    (w.scanOf? name).bind fun s => inputs.catalog.idOf? s.table
  statistics (name : String) : inputs.statistics.find? name =
    (w.tableOf? name).map TableEntry.statistics
  selectivity (name : String) : inputs.selectivities.find? name =
    (w.scanOf? name).map ScanEntry.selectivity

/-! ## The stages -/

theorem effectiveScans_of_nil (h : w.scans = []) :
    w.effectiveScans = w.tables.map defaultScan := by
  rw [effectiveScans, h]
  rfl

theorem effectiveScans_of_ne_nil (h : w.scans ≠ []) : w.effectiveScans = w.scans := by
  rw [effectiveScans, List.isEmpty_eq_false_iff.2 h]
  rfl

theorem scannedTable_eq_ok_iff {catalog : Catalog} {id : TableId} :
    scannedTable catalog s = .ok id ↔ catalog.idOf? s.table = some id := by
  rw [scannedTable]
  cases catalog.idOf? s.table <;> simp

/-- A scan with the id of its table. -/
def IsScanOf (catalog : Catalog) (s : ScanEntry) (bound : ScanEntry × TableId) : Prop :=
  bound.1 = s ∧ catalog.idOf? s.table = some bound.2

theorem exists_of_inputs (h : w.inputs = .ok inputs) :
    ∃ bound, List.Forall₂ (IsScanOf inputs.catalog) w.effectiveScans bound ∧
      w.tables.foldlM enterTable ∅ = .ok inputs.catalog ∧
      w.joins.mapM JoinEntry.condition = .ok inputs.query.joins ∧
      inputs.query.scans = (bound.foldl (fun q (s, id) => q.withScan s.boundName id)
        (Query.empty w.query)).scans ∧
      inputs.statistics = w.tables.foldl (fun b t => b.bind t.name t.statistics) ∅ ∧
      inputs.selectivities =
        w.effectiveScans.foldl (fun b s => b.bind s.boundName s.selectivity) ∅ := by
  rw [Workload.inputs, bind_eq_ok_iff] at h
  obtain ⟨catalog, entered, h⟩ := h
  rw [bind_eq_ok_iff] at h
  obtain ⟨bound, scanned, h⟩ := h
  rw [bind_eq_ok_iff] at h
  obtain ⟨joins, read, h⟩ := h
  obtain rfl := Except.ok.inj h
  refine ⟨bound, ?_, entered, read, rfl, rfl, rfl⟩
  refine (mapM_eq_ok_iff.1 scanned).imp ?_
  intro s bound found
  cases eq : scannedTable catalog s with
  | error e => simp [eq, Except.map] at found
  | ok id =>
    rw [eq] at found
    obtain rfl := Except.ok.inj found
    exact ⟨rfl, scannedTable_eq_ok_iff.1 eq⟩

theorem scans_foldl_withScan (bound : List (ScanEntry × TableId)) (q : Query) :
    (bound.foldl (fun q (s, id) => q.withScan s.boundName id) q).scans =
      bound.foldl (fun b s => b.bind s.1.boundName s.2) q.scans := by
  induction bound generalizing q with
  | nil => rfl
  | cons s bound ih => exact ih (q.withScan s.1.boundName s.2)

/-- Finding a scan finds the id of its table. -/
theorem find?_of_forall₂ {catalog : Catalog} {scans : List ScanEntry}
    {bound : List (ScanEntry × TableId)} (h : List.Forall₂ (IsScanOf catalog) scans bound)
    (p : ScanEntry → Bool) :
    (bound.find? fun b => p b.1).map Prod.snd =
      (scans.find? p).bind fun s => catalog.idOf? s.table := by
  induction h with
  | nil => rfl
  | @cons s b scans bound head _ ih =>
    obtain ⟨rfl, found⟩ := head
    cases hp : p b.1 with
    | true => simp [hp, found]
    | false => simpa [hp] using ih

/-- Among tables of distinct names, the last one of a name is the only one. -/
theorem find?_reverse_tables (nodup : (w.tables.map TableEntry.name).Nodup) (name : String) :
    (w.tables.reverse.find? fun t => t.name == name) = w.tableOf? name := by
  have nodup' : (w.tables.reverse.map TableEntry.name).Nodup := by
    rw [List.map_reverse]
    exact List.nodup_reverse.2 nodup
  ext t
  rw [tableOf?, find?_eq_some_iff_of_nodup nodup', find?_eq_some_iff_of_nodup nodup,
    List.mem_reverse]

/-- The stages prepare the inputs. -/
theorem isPrepared_of_inputs (h : w.inputs = .ok inputs)
    (small : w.tables.length < 2 ^ 32 - 1) : w.IsPrepared inputs := by
  obtain ⟨bound, scanned, entered, joins, scans, statistics, selectivities⟩ := exists_of_inputs h
  obtain ⟨nodup, catalog⟩ := (foldlM_enterTable_eq_ok_iff _ _).1 entered
  refine ⟨small, nodup, catalog, ?known, joins, ?tableId, ?statistics, ?selectivity⟩
  case known =>
    intro s mem
    obtain ⟨b, -, -, found⟩ := exists_of_mem_left scanned mem
    by_contra unknown
    rw [catalog, idOf?_catalogOf_eq_none_iff.2 unknown] at found
    exact absurd found (by simp)
  case tableId =>
    intro name
    rw [Query.tableId?, scans, scans_foldl_withScan, Bindings.find?_foldl_bind, scanOf?,
      ← find?_of_forall₂ (List.forall₂_reverse_iff.2 scanned)]
    exact Option.or_none
  case statistics =>
    intro name
    rw [statistics, Bindings.find?_foldl_bind, find?_reverse_tables nodup]
    exact Option.or_none
  case selectivity =>
    intro name
    rw [selectivities, Bindings.find?_foldl_bind]
    exact Option.or_none

/-! ## What an alias stands for -/

theorem mem_of_scanOf? (h : w.scanOf? name = some s) :
    s ∈ w.effectiveScans ∧ s.boundName = name := by
  rw [scanOf?] at h
  have same := List.find?_some h
  exact ⟨List.mem_reverse.1 (List.mem_of_find?_eq_some h), eq_of_beq same⟩

theorem scanOf?_eq_some_iff_of_nodup
    (nodup : (w.effectiveScans.map ScanEntry.boundName).Nodup) :
    w.scanOf? name = some s ↔ s ∈ w.effectiveScans ∧ s.boundName = name := by
  rw [← List.nodup_reverse, ← List.map_reverse] at nodup
  rw [scanOf?, find?_eq_some_iff_of_nodup nodup, List.mem_reverse]

theorem scanOf?_eq_some_iff : w.scanOf? name = some s ↔
    ∃ before after, w.effectiveScans = before ++ s :: after ∧ s.boundName = name ∧
      ∀ later ∈ after, later.boundName ≠ name := by
  rw [scanOf?, List.find?_eq_some_iff_append]
  constructor
  · rintro ⟨bound, after, before, split, last⟩
    refine ⟨before.reverse, after.reverse, ?_, eq_of_beq bound, ?_⟩
    · rw [← List.reverse_reverse w.effectiveScans, split]
      simp
    · simpa using last
  · rintro ⟨before, after, split, rfl, last⟩
    refine ⟨beq_self_eq_true _, after.reverse, before.reverse, ?_, ?_⟩
    · rw [split]
      simp
    · simpa using last

theorem scanOf?_eq_none_iff :
    w.scanOf? name = none ↔ ∀ s ∈ w.effectiveScans, s.boundName ≠ name := by
  rw [scanOf?, List.find?_eq_none]
  simp

namespace IsPrepared

theorem tableOf?_eq_some_iff (h : w.IsPrepared inputs) :
    w.tableOf? name = some t ↔ t ∈ w.tables ∧ t.name = name :=
  find?_eq_some_iff_of_nodup h.names_nodup

/-- An alias stands for its last scan and the table that this scan names. -/
theorem source?_eq_some_iff (h : w.IsPrepared inputs) :
    w.source? name = some (s, t) ↔ w.scanOf? name = some s ∧ t ∈ w.tables ∧ t.name = s.table := by
  simp [source?, bind, Option.bind_eq_some_iff, h.tableOf?_eq_some_iff]

theorem exists_source? (h : w.IsPrepared inputs) (found : w.scanOf? name = some s) :
    ∃ t, w.source? name = some (s, t) := by
  obtain ⟨t, mem, same⟩ := List.mem_map.1 (h.known s (mem_of_scanOf? found).1)
  exact ⟨t, h.source?_eq_some_iff.2 ⟨found, mem, same⟩⟩

theorem source?_eq_none_iff (h : w.IsPrepared inputs) :
    w.source? name = none ↔ w.scanOf? name = none := by
  constructor
  · intro none
    by_contra some
    obtain ⟨s, found⟩ := Option.ne_none_iff_exists'.1 some
    obtain ⟨t, source⟩ := h.exists_source? found
    rw [none] at source
    exact absurd source (by simp)
  · intro none
    simp [source?, none]

theorem tableId?_eq_none (h : w.IsPrepared inputs) (none : w.source? name = none) :
    inputs.query.tableId? name = Option.none := by
  rw [h.tableId?, h.source?_eq_none_iff.1 none]
  rfl

/-- All that the prepared inputs know of an alias. -/
theorem exists_tableId? (h : w.IsPrepared inputs) (source : w.source? name = some (s, t)) :
    ∃ id, inputs.query.tableId? name = some id ∧ inputs.catalog.nameOf? id = some t.name ∧
      inputs.catalog.primaryKey? id = t.primaryKey ∧
      inputs.statistics.find? t.name = some t.statistics ∧
      inputs.selectivities.find? name = some s.selectivity := by
  obtain ⟨found, mem, same⟩ := h.source?_eq_some_iff.1 source
  have small := h.ids
  obtain ⟨id, idOf, nameOf, keyOf⟩ := exists_idOf?_catalogOf (by omega) h.names_nodup mem
  rw [← h.catalog] at idOf nameOf keyOf
  refine ⟨id, ?_, nameOf, keyOf, ?_, ?_⟩
  · rw [h.tableId?, found, Option.bind_some, ← same, idOf]
  · rw [h.statistics, h.tableOf?_eq_some_iff.2 ⟨mem, rfl⟩, Option.map_some]
  · rw [h.selectivity, found, Option.map_some]

/-- The relation of an alias. There is none only if no scan binds the alias, or if the selectivity
of the scan is no fraction. -/
theorem relation_eq (h : w.IsPrepared inputs) (name : String) :
    inputs.relation name = match w.source? name with
      | none => .error (.unknownRelation name)
      | some (s, t) =>
        if Inputs.isFraction s.selectivity then
          .ok { name, scan := t.statistics.scan s.selectivity }
        else .error (.invalidSelectivity name s.selectivity) := by
  cases source : w.source? name with
  | none =>
    rw [Inputs.relation, h.tableId?_eq_none source]
    rfl
  | some st =>
    obtain ⟨id, tableId, nameOf, -, statistics, selectivity⟩ := h.exists_tableId? source
    simp only [Inputs.relation, tableId, nameOf, statistics, selectivity, Inputs.orError, bind,
      Except.bind]

/-- A column is a primary key if it is the one of the table that its alias stands for. -/
theorem isKey_eq (h : w.IsPrepared inputs) (ref : ColumnRef) :
    inputs.isKey ref =
      (w.source? ref.relation).any fun st => st.2.primaryKey == some ref.field := by
  cases source : w.source? ref.relation with
  | none =>
    rw [Inputs.isKey, h.tableId?_eq_none source]
    rfl
  | some st =>
    obtain ⟨id, tableId, -, keyOf, -, -⟩ := h.exists_tableId? source
    rw [Inputs.isKey, tableId, Option.bind_some, keyOf, Option.any_some]

end IsPrepared

/-! ## An example -/

/-- People and their cities. The alias `p` is bound twice, and only the second scan counts. -/
def residents (selectivity : Selectivity) : Workload where
  tables := [
    { name := "person", columns := ["id", "city"], primaryKey := some "id"
      statistics := { tuples := 100, pages := 10 } },
    { name := "city", primaryKey := some "id"
      statistics := { tuples := 5, pages := 1, pageCost := 2 } }]
  scans := [{ table := "city", name := some "p" }, { table := "city" },
    { table := "person", name := some "p", selectivity }]
  joins := [{ left := "p.city", right := some "city.id" }]

/-- What this workload prepares. -/
def residentsInputs (selectivity : Selectivity) : Inputs where
  query :=
    { scans := (Bindings.empty.bind "city" 2).bind "p" 1
      joins := [{ left := ⟨"p", "city"⟩, op := .equal, right := .column ⟨"city", "id"⟩ }] }
  catalog := { tables := [
    { id := 1, name := "person", columns := [⟨"id", true⟩, ⟨"city", false⟩] },
    { id := 2, name := "city", columns := [⟨"id", true⟩] }] }
  statistics := (Bindings.empty.bind "person" { tuples := 100, pages := 10 }).bind
    "city" { tuples := 5, pages := 1, pageCost := 2 }
  selectivities := (Bindings.empty.bind "city" unfiltered).bind "p" selectivity

set_option maxRecDepth 20000 in
theorem inputs_residents (selectivity : Selectivity) :
    (residents selectivity).inputs = .ok (residentsInputs selectivity) := rfl

end LeftDeep.Workload
