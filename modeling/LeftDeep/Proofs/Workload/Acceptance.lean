import LeftDeep.Proofs.Plan.Defects
import LeftDeep.Proofs.Workload.Columns
import LeftDeep.Proofs.Workload.Preparation

/-!
# Which defect of a workload is reported

A workload may be defective in many places at once. Its tables are gone through first, then its
scans and then the columns of its joins, left before right, and the first defect found is reported.
The aliases of the scans are not looked at: a join may name an alias that no scan binds.

## Main definitions

* `IsFirstRepeated`: the first name of a list that is listed before.
* `FailsAtFirst`: computations that fail with the first text that has some property.
* `Workload.IsSound`: workloads without a defect.
* `Workload.Reports`: the error of a workload.
* `Workload.SameReferences`: workloads that name the same tables and columns.
* `Workload.ScansTables`: inputs that scan the tables of a workload in their order.
* `Workload.defective`: a workload with a defect of each kind.

## Main statements

* `FailsAtFirst.mapM`: a list of computations fails with the first text of all.
* `Workload.inputs_eq_error_iff`: a workload fails with the error that it reports.
* `Workload.inputs_outcome`: which workloads are prepared, and what else is reported.
-/

namespace LeftDeep

/-! ## The first repetition -/

/-- The first name of a list that repeats an earlier one. -/
def IsFirstRepeated (names : List String) (name : String) : Prop :=
  ∃ before after, names = before ++ name :: after ∧ before.Nodup ∧ name ∈ before

/-- The last name is the first repetition if there is none before it. -/
theorem IsFirstRepeated.concat_iff {names : List String} {name last : String} :
    IsFirstRepeated (names ++ [last]) name ↔
      IsFirstRepeated names name ∨ names.Nodup ∧ last ∈ names ∧ name = last := by
  constructor
  · rintro ⟨before, after, split, nodup, mem⟩
    obtain ⟨rest, rfl, rfl⟩ | ⟨rfl, rfl, rfl⟩ := concat_eq_append_cons_iff.1 split
    · exact .inl ⟨before, rest, rfl, nodup, mem⟩
    · exact .inr ⟨nodup, mem, rfl⟩
  · rintro (⟨before, after, rfl, nodup, mem⟩ | ⟨nodup, mem, rfl⟩)
    · exact ⟨before, after ++ [last], by simp, nodup, mem⟩
    · exact ⟨names, [], rfl, nodup, mem⟩

/-! ## Failing at the first text -/

section First

universe u

variable {ε : Type u} {α β : Type} {P : String → Prop} {err : String → ε}
  {texts later : List String}

/-- The computation fails with the first text that has the property, and only with it. -/
def FailsAtFirst (P : String → Prop) (err : String → ε) (texts : List String)
    (result : Except ε α) : Prop :=
  ∀ e, result = .error e ↔ ∃ text, IsFirst P texts text ∧ e = err text

namespace FailsAtFirst

theorem exists_ok_iff {result : Except ε α} (h : FailsAtFirst P err texts result) :
    (∃ a, result = .ok a) ↔ ∀ text ∈ texts, ¬P text := by
  cases result with
  | ok a =>
    simp only [Except.ok.injEq, exists_eq', true_iff]
    intro text mem holds
    obtain ⟨first, found⟩ := IsFirst.exists_of_mem mem holds
    exact absurd ((h (err first)).2 ⟨first, found, rfl⟩) (by simp)
  | error e =>
    obtain ⟨text, first, -⟩ := (h e).1 rfl
    simp only [reduceCtorEq, exists_false, false_iff, not_forall, not_not]
    exact ⟨text, first.mem, first.holds⟩

/-- No text has the property, and the computation succeeds. -/
theorem of_ok (a : α) (sound : ∀ text ∈ texts, ¬P text) :
    FailsAtFirst P err texts (.ok a : Except ε α) := by
  intro e
  simp only [reduceCtorEq, false_iff, not_exists, not_and]
  intro text first
  exact absurd first.holds (sound text first.mem)

/-- The only text has the property. -/
theorem of_error {text : String} (holds : P text) :
    FailsAtFirst P err [text] (.error (err text) : Except ε α) := by
  intro e
  constructor
  · intro fails
    exact ⟨text, ⟨[], [], rfl, holds, by simp⟩, (Except.error.inj fails).symm⟩
  · rintro ⟨other, first, rfl⟩
    obtain rfl := List.mem_singleton.1 first.mem
    rfl

/-- The texts of the second computation come after those of the first. -/
theorem bind {first : Except ε α} {next : α → Except ε β} (h : FailsAtFirst P err texts first)
    (h' : ∀ a, first = .ok a → FailsAtFirst P err later (next a)) :
    FailsAtFirst P err (texts ++ later) (first >>= next) := by
  intro e
  simp only [IsFirst.append_iff, or_and_right, exists_or, bind_eq_error_iff, h e]
  refine or_congr_right ?_
  constructor
  · rintro ⟨a, succeeds, fails⟩
    obtain ⟨text, found, rfl⟩ := (h' a succeeds e).1 fails
    exact ⟨text, ⟨h.exists_ok_iff.1 ⟨a, succeeds⟩, found⟩, rfl⟩
  · rintro ⟨text, ⟨sound, found⟩, rfl⟩
    obtain ⟨a, succeeds⟩ := h.exists_ok_iff.2 sound
    exact ⟨a, succeeds, (h' a succeeds _).2 ⟨text, found, rfl⟩⟩

theorem map {result : Except ε α} (h : FailsAtFirst P err texts result) (f : α → β) :
    FailsAtFirst P err texts (result.map f) := by
  intro e
  rw [← h e]
  cases result with
  | ok a => simp [Except.map]
  | error e' => simp [Except.map]

/-- A list of computations fails with the first text of all their texts. -/
theorem mapM {f : α → Except ε β} {textsOf : α → List String}
    (h : ∀ a, FailsAtFirst P err (textsOf a) (f a)) (items : List α) :
    FailsAtFirst P err (items.flatMap textsOf) (items.mapM f) := by
  induction items with
  | nil => exact of_ok [] (by simp)
  | cons a items ih =>
    rw [List.mapM_cons, List.flatMap_cons]
    refine (h a).bind fun b _ => ?_
    rw [← List.append_nil (items.flatMap textsOf)]
    exact ih.bind fun rest _ => of_ok (b :: rest) (by simp)

end FailsAtFirst
end First

/-! ## Bindings of distinct names -/

/-- Values bound to distinct names stay in the order they are bound in. -/
theorem Bindings.entries_foldl_bind {α β : Type} (key : β → String) (value : β → α) {items : List β}
    (nodup : (items.map key).Nodup) :
    (items.foldl (fun b x => b.bind (key x) (value x)) (∅ : Bindings α)).entries =
      items.map fun x => (key x, value x) := by
  induction items using List.reverseRecOn with
  | nil => rfl
  | append_singleton items x ih =>
    rw [List.map_append, List.map_singleton, ← List.concat_eq_append, List.nodup_concat] at nodup
    have others_eq : others (items.map fun x => (key x, value x)) (key x) =
        items.map fun x => (key x, value x) := by
      refine List.filter_eq_self.2 ?_
      intro entry mem
      obtain ⟨y, listed, rfl⟩ := List.mem_map.1 mem
      refine bne_iff_ne.2 ?_
      intro same
      exact nodup.1 (List.mem_map.2 ⟨y, listed, same⟩)
    rw [List.foldl_append, List.map_append, ← others_eq, ← ih nodup.2]
    rfl

/-! ## Columns of joins -/

/-- The columns of a join in writing, left before right. -/
def JoinEntry.columnTexts (j : JoinEntry) : List String := j.left :: j.right.toList

theorem WorkloadError.failsAtFirst_column (text : String) :
    FailsAtFirst (¬ColumnRef.IsWritten ·) .invalidColumnRef [text] (column text) := by
  rw [column]
  cases read : ColumnRef.parse? text with
  | none =>
    apply FailsAtFirst.of_error
    rintro ⟨ref, proper⟩
    rw [ColumnRef.parse?_eq_some_iff.2 proper] at read
    exact absurd read (by simp)
  | some ref =>
    apply FailsAtFirst.of_ok
    intro other mem
    obtain rfl := List.mem_singleton.1 mem
    exact not_not.2 ⟨ref, ColumnRef.parse?_eq_some_iff.1 read⟩

/-- The left side of a join is read before the right one. -/
theorem JoinEntry.failsAtFirst_condition (j : JoinEntry) :
    FailsAtFirst (¬ColumnRef.IsWritten ·) .invalidColumnRef j.columnTexts j.condition := by
  rw [condition, columnTexts, ← List.singleton_append]
  refine (WorkloadError.failsAtFirst_column j.left).bind fun left _ => ?_
  cases j.right with
  | none => exact .of_ok _ (by simp)
  | some text =>
    rw [Option.toList_some, ← List.append_nil [text]]
    exact (WorkloadError.failsAtFirst_column text).bind fun right _ => .of_ok _ (by simp)

namespace Workload

variable {w w' : Workload} {inputs : Inputs} {entries : List TableEntry} {e : WorkloadError}

/-- The names of the tables. -/
def tableNames (w : Workload) : List String := w.tables.map TableEntry.name

/-- The tables that the scans read, repetitions included. -/
def scannedNames (w : Workload) : List String := w.scans.map ScanEntry.table

/-- The columns of the joins in writing. -/
def columnTexts (w : Workload) : List String := w.joins.flatMap JoinEntry.columnTexts

/-! ## The stages -/

theorem enterTable_catalogOf_eq_error_iff (t : TableEntry) :
    enterTable (catalogOf entries) t = .error e ↔
      t.name ∈ entries.map TableEntry.name ∧ e = .catalog (.tableExists t.name) := by
  have known : ¬(catalogOf entries).table? t.name = none ↔ t.name ∈ entries.map TableEntry.name :=
    table?_catalogOf_eq_none_iff.not.trans not_not
  rw [enterTable_eq, ← known]
  cases (catalogOf entries).table? t.name with
  | none => simp
  | some table => simp [@eq_comm _ e]

/-- Tables are refused at the first name that repeats an earlier one. -/
theorem foldlM_enterTable_eq_error_iff (entries : List TableEntry) :
    entries.foldlM enterTable ∅ = .error e ↔ ∃ name,
      IsFirstRepeated (entries.map TableEntry.name) name ∧ e = .catalog (.tableExists name) := by
  induction entries using List.reverseRecOn with
  | nil => simp [pure, Except.pure, IsFirstRepeated]
  | append_singleton entries t ih =>
    simp only [List.foldlM_append, bind_eq_error_iff, ih, foldlM_enterTable_eq_ok_iff,
      List.map_append, List.map_singleton, IsFirstRepeated.concat_iff, or_and_right, exists_or,
      List.foldlM_cons, List.foldlM_nil, pure, Except.pure, reduceCtorEq, and_false, exists_false,
      or_false]
    refine or_congr_right ?_
    constructor
    · rintro ⟨_, ⟨nodup, rfl⟩, fails⟩
      obtain ⟨mem, rfl⟩ := (enterTable_catalogOf_eq_error_iff t).1 fails
      exact ⟨t.name, ⟨nodup, mem, rfl⟩, rfl⟩
    · rintro ⟨_, ⟨nodup, mem, rfl⟩, rfl⟩
      exact ⟨_, ⟨nodup, rfl⟩, (enterTable_catalogOf_eq_error_iff t).2 ⟨mem, rfl⟩⟩

theorem failsAtFirst_scannedTable (entries : List TableEntry) (s : ScanEntry) :
    FailsAtFirst (· ∉ entries.map TableEntry.name) (fun name => .catalog (.tableNotFound name))
      [s.table] (scannedTable (catalogOf entries) s) := by
  rw [scannedTable]
  cases found : (catalogOf entries).idOf? s.table with
  | none => exact .of_error (idOf?_catalogOf_eq_none_iff.1 found)
  | some id =>
    apply FailsAtFirst.of_ok
    intro other mem unknown
    obtain rfl := List.mem_singleton.1 mem
    rw [idOf?_catalogOf_eq_none_iff.2 unknown] at found
    exact absurd found (by simp)

/-- Scans are refused at the first table that there is not. -/
theorem failsAtFirst_scans (w : Workload) :
    FailsAtFirst (· ∉ w.tableNames) (fun name => .catalog (.tableNotFound name)) w.scannedNames
      (w.effectiveScans.mapM fun s =>
        (scannedTable (catalogOf w.tables) s).map fun id => (s, id)) := by
  have all := FailsAtFirst.mapM
    (fun s => (failsAtFirst_scannedTable w.tables s).map fun id => (s, id)) w.effectiveScans
  rw [← List.map_eq_flatMap] at all
  by_cases none : w.scans = []
  · -- The scans of a workload without any are those of its own tables.
    have known : ∀ name ∈ w.effectiveScans.map ScanEntry.table, ¬name ∉ w.tableNames := by
      rw [effectiveScans_of_nil none, List.map_map]
      exact fun name mem => not_not.2 mem
    obtain ⟨bound, succeeds⟩ := all.exists_ok_iff.2 known
    rw [succeeds, scannedNames, none]
    exact .of_ok bound (by simp)
  · rwa [effectiveScans_of_ne_nil none] at all ⊢

/-- Joins are refused at the first text that is no column. -/
theorem failsAtFirst_joins (w : Workload) :
    FailsAtFirst (¬ColumnRef.IsWritten ·) .invalidColumnRef w.columnTexts
      (w.joins.mapM JoinEntry.condition) :=
  FailsAtFirst.mapM JoinEntry.failsAtFirst_condition w.joins

theorem exists_scans_iff : (∃ bound, (w.effectiveScans.mapM fun s =>
      (scannedTable (catalogOf w.tables) s).map fun id => (s, id)) = .ok bound) ↔
    ∀ name ∈ w.scannedNames, name ∈ w.tableNames := by
  simp only [w.failsAtFirst_scans.exists_ok_iff, not_not]

theorem exists_joins_iff : (∃ joins, w.joins.mapM JoinEntry.condition = .ok joins) ↔
    ∀ text ∈ w.columnTexts, ColumnRef.IsWritten text := by
  simp only [w.failsAtFirst_joins.exists_ok_iff, not_not]

/-! ## Accepted workloads and reported defects -/

/-- Tables have distinct names, scans read tables that there are, and joins name columns. -/
structure IsSound (w : Workload) : Prop where
  names_nodup : w.tableNames.Nodup
  known : ∀ name ∈ w.scannedNames, name ∈ w.tableNames
  written : ∀ text ∈ w.columnTexts, ColumnRef.IsWritten text

/-- The error of a workload: the first defect of its tables, or of its scans if the tables have
none, or of its joins if neither have any. -/
inductive Reports (w : Workload) : WorkloadError → Prop
  | tableExists {name : String} (first : IsFirstRepeated w.tableNames name) :
      Reports w (.catalog (.tableExists name))
  | tableNotFound {name : String} (nodup : w.tableNames.Nodup)
      (first : IsFirst (· ∉ w.tableNames) w.scannedNames name) :
      Reports w (.catalog (.tableNotFound name))
  | invalidColumnRef {text : String} (nodup : w.tableNames.Nodup)
      (known : ∀ name ∈ w.scannedNames, name ∈ w.tableNames)
      (first : IsFirst (¬ColumnRef.IsWritten ·) w.columnTexts text) :
      Reports w (.invalidColumnRef text)

/-- Two workloads name the same tables and columns. They may bind them to other aliases. -/
structure SameReferences (w w' : Workload) : Prop where
  tableNames_eq : w.tableNames = w'.tableNames
  scannedNames_eq : w.scannedNames = w'.scannedNames
  columnTexts_eq : w.columnTexts = w'.columnTexts

/-- The workload scans each of its tables under its own name and in their order, without filters. -/
structure ScansTables (w : Workload) (inputs : Inputs) : Prop where
  tables : inputs.catalog.tables.map Table.name = w.tableNames
  scans : inputs.query.scans.entries = inputs.catalog.tables.map fun t => (t.name, t.id)
  selectivities : inputs.selectivities.entries = w.tableNames.map fun name => (name, unfiltered)

theorem exists_inputs_iff : (∃ inputs, w.inputs = .ok inputs) ↔ w.IsSound := by
  constructor
  · rintro ⟨inputs, prepared⟩
    rw [Workload.inputs, bind_eq_ok_iff] at prepared
    obtain ⟨catalog, entered, prepared⟩ := prepared
    obtain ⟨nodup, rfl⟩ := (foldlM_enterTable_eq_ok_iff _ _).1 entered
    obtain ⟨bound, scanned, prepared⟩ := bind_eq_ok_iff.1 prepared
    obtain ⟨joins, read, -⟩ := bind_eq_ok_iff.1 prepared
    exact ⟨nodup, exists_scans_iff.1 ⟨bound, scanned⟩, exists_joins_iff.1 ⟨joins, read⟩⟩
  · intro sound
    obtain ⟨bound, scanned⟩ := exists_scans_iff.2 sound.known
    obtain ⟨joins, read⟩ := exists_joins_iff.2 sound.written
    have entered := (foldlM_enterTable_eq_ok_iff _ _).2 ⟨sound.names_nodup, rfl⟩
    simp only [Workload.inputs, entered, scanned, read, bind, Except.bind]
    exact ⟨_, rfl⟩

/-- A workload fails with the error that it reports. -/
theorem inputs_eq_error_iff : w.inputs = .error e ↔ w.Reports e := by
  rw [inputs, bind_eq_error_iff, foldlM_enterTable_eq_error_iff]
  constructor
  · rintro (⟨name, first, rfl⟩ | ⟨catalog, entered, fails⟩)
    · exact .tableExists first
    obtain ⟨nodup, rfl⟩ := (foldlM_enterTable_eq_ok_iff _ _).1 entered
    obtain fails | ⟨bound, scanned, fails⟩ := bind_eq_error_iff.1 fails
    · obtain ⟨name, first, rfl⟩ := (w.failsAtFirst_scans e).1 fails
      exact .tableNotFound nodup first
    obtain fails | ⟨joins, read, fails⟩ := bind_eq_error_iff.1 fails
    · obtain ⟨text, first, rfl⟩ := (w.failsAtFirst_joins e).1 fails
      exact .invalidColumnRef nodup (exists_scans_iff.1 ⟨bound, scanned⟩) first
    · exact absurd fails (by simp)
  · intro reports
    cases reports with
    | @tableExists name first => exact .inl ⟨name, first, rfl⟩
    | @tableNotFound name nodup first =>
      refine .inr ⟨_, (foldlM_enterTable_eq_ok_iff _ _).2 ⟨nodup, rfl⟩, ?_⟩
      exact bind_eq_error_iff.2 (.inl ((w.failsAtFirst_scans _).2 ⟨name, first, rfl⟩))
    | @invalidColumnRef text nodup known first =>
      refine .inr ⟨_, (foldlM_enterTable_eq_ok_iff _ _).2 ⟨nodup, rfl⟩, ?_⟩
      obtain ⟨bound, scanned⟩ := exists_scans_iff.2 known
      refine bind_eq_error_iff.2 (.inr ⟨bound, scanned, ?_⟩)
      exact bind_eq_error_iff.2 (.inl ((w.failsAtFirst_joins _).2 ⟨text, first, rfl⟩))

namespace SameReferences

theorem symm (same : SameReferences w w') : SameReferences w' w :=
  ⟨same.tableNames_eq.symm, same.scannedNames_eq.symm, same.columnTexts_eq.symm⟩

theorem reports (same : SameReferences w w') (h : w.Reports e) : w'.Reports e := by
  obtain ⟨tables, scans, joins⟩ := same
  cases h with
  | tableExists first => exact .tableExists (tables ▸ first)
  | tableNotFound nodup first =>
    rw [tables, scans] at first
    exact .tableNotFound (tables ▸ nodup) first
  | invalidColumnRef nodup known first =>
    rw [tables, scans] at known
    exact .invalidColumnRef (tables ▸ nodup) known (joins ▸ first)

theorem inputs_eq_error_iff (same : SameReferences w w') :
    w.inputs = .error e ↔ w'.inputs = .error e := by
  rw [Workload.inputs_eq_error_iff, Workload.inputs_eq_error_iff]
  exact ⟨same.reports, same.symm.reports⟩

end SameReferences

/-! ## Workloads without scans -/

/-- Scans of all tables of a catalog are bound to the tables they read. -/
theorem map_bound_of_forall₂ {catalog : Catalog} (nodup : (catalog.tables.map Table.name).Nodup)
    {bound : List (ScanEntry × TableId)} (scanned : List.Forall₂ (IsScanOf catalog)
      (catalog.tables.map fun t => { table := t.name }) bound) :
    (bound.map fun s => (s.1.boundName, s.2)) = catalog.tables.map fun t => (t.name, t.id) := by
  obtain ⟨length, related⟩ := List.forall₂_iff_get.1 (List.forall₂_map_left_iff.1 scanned)
  apply List.ext_getElem
  · simpa using length.symm
  · intro i hi hi'
    rw [List.length_map] at hi hi'
    obtain ⟨scan, found⟩ := related i hi' hi
    have idOf : catalog.idOf? catalog.tables[i].name = some catalog.tables[i].id := by
      have byName := (find?_eq_some_iff_of_nodup nodup).2 ⟨List.getElem_mem hi', rfl⟩
      exact congrArg (Option.map Table.id) byName
    have same : catalog.tables[i].id = bound[i].2 := Option.some.inj (idOf.symm.trans found)
    rw [List.getElem_map, List.getElem_map, same]
    exact congrArg (·.boundName, bound[i].2) scan

theorem scansTables_of_nil (none : w.scans = []) (prepared : w.inputs = .ok inputs) :
    w.ScansTables inputs := by
  obtain ⟨bound, scanned, entered, -, scans, -, selectivities⟩ := exists_of_inputs prepared
  obtain ⟨nodup, catalog⟩ := (foldlM_enterTable_eq_ok_iff _ _).1 entered
  have names : inputs.catalog.tables.map Table.name = w.tableNames := by
    rw [catalog, names_catalogOf, tableNames]
  have default : w.tables.map defaultScan =
      inputs.catalog.tables.map fun t => { table := t.name } := by
    have eq := congrArg (List.map fun name => ({ table := name } : ScanEntry)) names
    rw [tableNames, List.map_map, List.map_map] at eq
    exact eq.symm
  rw [effectiveScans_of_nil none] at scanned selectivities
  have distinct : (inputs.catalog.tables.map Table.name).Nodup := names ▸ nodup
  have tables := map_bound_of_forall₂ distinct (default ▸ scanned)
  refine ⟨names, ?scans, ?selectivities⟩
  case scans =>
    have aliases := congrArg (List.map Prod.fst) tables
    rw [List.map_map, List.map_map] at aliases
    rw [scans, scans_foldl_withScan, ← tables]
    exact Bindings.entries_foldl_bind _ _ (aliases ▸ distinct)
  case selectivities =>
    rw [selectivities, Bindings.entries_foldl_bind]
    · simp [tableNames, defaultScan, ScanEntry.boundName]
    · simpa [Function.comp_def, defaultScan, ScanEntry.boundName] using nodup

/-- A workload is prepared if it is sound, and else reports its first defect. Both depend on the
tables and columns it names only. Without scans, it scans its tables. -/
theorem inputs_outcome (w : Workload) :
    ((∃ inputs, w.inputs = .ok inputs) ↔ w.IsSound) ∧
      (∀ e, w.inputs = .error e ↔ w.Reports e) ∧
      (∀ w', SameReferences w w' → ∀ e, w.inputs = .error e ↔ w'.inputs = .error e) ∧
      ∀ inputs, w.scans = [] → w.inputs = .ok inputs → w.ScansTables inputs :=
  ⟨exists_inputs_iff, fun _ => inputs_eq_error_iff, fun _ same _ => same.inputs_eq_error_iff,
    fun _ none prepared => scansTables_of_nil none prepared⟩

/-- Three tables, two of them of one name, two scans of other tables and a join of two texts that
are no columns. -/
def defective : Workload where
  tables := ["a", "b", "a"].map fun name => { name, statistics := { tuples := 1, pages := 1 } }
  scans := [{ table := "c" }, { table := "d" }]
  joins := [{ left := "a.", right := some ".b" }]

/-- The defects are reported one after the other as the workload is mended. In the end it is
prepared, although its join names an alias that no scan binds. -/
theorem defective_inputs_outcome :
    defective.inputs = .error (.catalog (.tableExists "a")) ∧
    { defective with tables := defective.tables.take 2 }.inputs =
      .error (.catalog (.tableNotFound "c")) ∧
    { defective with tables := defective.tables.take 2, scans := [] }.inputs =
      .error (.invalidColumnRef "a.") ∧
    ∃ inputs, { defective with
      tables := defective.tables.take 2, scans := [], joins := [{ left := "z.x" }] }.inputs =
        .ok inputs := by
  refine ⟨?tables, ?scans, ?joins, ?sound⟩
  case tables =>
    exact ((inputs_outcome _).2.1 _).2 (.tableExists ⟨["a", "b"], [], rfl, by decide, by decide⟩)
  case scans =>
    refine ((inputs_outcome _).2.1 _).2 (.tableNotFound (by decide) ?_)
    exact ⟨[], ["d"], rfl, by decide, by decide⟩
  case joins =>
    refine ((inputs_outcome _).2.1 _).2 (.invalidColumnRef (by decide) (by decide) ?_)
    exact ⟨[], [".b"], rfl, by decide +kernel, by decide⟩
  case sound =>
    exact (inputs_outcome _).1.2 ⟨by decide, by decide, by decide +kernel⟩

end Workload
end LeftDeep
