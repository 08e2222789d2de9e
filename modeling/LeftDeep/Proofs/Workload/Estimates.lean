import LeftDeep.Proofs.Estimate.Filter
import LeftDeep.Proofs.Plan.Interning
import LeftDeep.Proofs.Plan.Resolution
import LeftDeep.Proofs.Search.Run
import LeftDeep.Proofs.Workload.Preparation

/-!
# Where the estimates come from

The estimate of a relation goes back to the table and the selectivity that its alias stands for in
the workload, whatever ids and names it is looked up by on the way. So does the key of a column.

## Main definitions

* `Workload.StandsFor`: the table and the selectivity of an alias.
* `Workload.IsKey`: the primary keys.

## Main statements

* `Workload.IsPrepared.standsFor_iff`: an alias stands for what is looked up under it.
* `Workload.IsPrepared.standsFor_unique`: it stands for nothing else.
* `Workload.estimates_of_problem`: the estimates and keys of a problem.
-/

namespace LeftDeep.Workload

variable {w : Workload} {inputs : Inputs} {p : Problem} {name : String} {s : ScanEntry}
  {t : TableEntry} {selectivity : Selectivity}

/-- The table that an alias stands for, and the selectivity it is read with. Of several scans that
bind the alias, the last one decides. Without any scans, an alias is the name of a table. -/
inductive StandsFor (w : Workload) (name : String) : TableEntry → Selectivity → Prop
  | unlisted {t : TableEntry} (none : w.scans = []) (mem : t ∈ w.tables) (same : t.name = name) :
    w.StandsFor name t 1.0
  | scanned {before after : List ScanEntry} {s : ScanEntry} {t : TableEntry}
    (listed : w.scans = before ++ s :: after) (bound : s.name.getD s.table = name)
    (last : ∀ later ∈ after, later.name.getD later.table ≠ name) (mem : t ∈ w.tables)
    (same : t.name = s.table) : w.StandsFor name t s.selectivity

/-- A column is the primary key of the table that its alias stands for. -/
def IsKey (w : Workload) (ref : ColumnRef) : Prop :=
  ∃ t selectivity, w.StandsFor ref.relation t selectivity ∧ t.primaryKey = some ref.field

namespace IsPrepared

/-- Without any scans, an alias stands for the table of its name. -/
theorem scanOf?_of_unlisted (h : w.IsPrepared inputs) (none : w.scans = []) :
    w.scanOf? name = some s ↔ ∃ t ∈ w.tables, t.name = name ∧ s = defaultScan t := by
  have scans := effectiveScans_of_nil none
  have names : w.effectiveScans.map ScanEntry.boundName = w.tables.map TableEntry.name := by
    rw [scans, List.map_map]
    rfl
  rw [scanOf?_eq_some_iff_of_nodup (names ▸ h.names_nodup), scans, List.mem_map]
  constructor
  · rintro ⟨⟨t, mem, rfl⟩, same⟩
    exact ⟨t, mem, same, rfl⟩
  · rintro ⟨t, mem, same, rfl⟩
    exact ⟨⟨t, mem, rfl⟩, same⟩

/-- An alias stands for the table and the selectivity that are looked up under it. -/
theorem standsFor_iff (h : w.IsPrepared inputs) :
    w.StandsFor name t selectivity ↔
      ∃ s, w.source? name = some (s, t) ∧ s.selectivity = selectivity := by
  simp only [h.source?_eq_some_iff]
  constructor
  · intro stands
    cases stands with
    | unlisted none mem same =>
      have scan := (h.scanOf?_of_unlisted none).2 ⟨t, mem, same, rfl⟩
      exact ⟨defaultScan t, ⟨scan, mem, rfl⟩, rfl⟩
    | @scanned before after s _ listed bound last mem same =>
      have some : w.scans ≠ [] := by
        rw [listed]
        simp
      have scan := scanOf?_eq_some_iff.2
        ⟨before, after, (effectiveScans_of_ne_nil some).trans listed, bound, last⟩
      exact ⟨s, ⟨scan, mem, same⟩, rfl⟩
  · rintro ⟨s, ⟨scan, mem, same⟩, rfl⟩
    by_cases none : w.scans = []
    · obtain ⟨t', -, named, rfl⟩ := (h.scanOf?_of_unlisted none).1 scan
      exact .unlisted none mem (same.trans named)
    · obtain ⟨before, after, listed, bound, last⟩ := scanOf?_eq_some_iff.1 scan
      rw [effectiveScans_of_ne_nil none] at listed
      exact .scanned listed bound last mem same

/-- In a prepared workload, an alias stands for no more than one table and selectivity. -/
theorem standsFor_unique (h : w.IsPrepared inputs) {t' : TableEntry} {selectivity' : Selectivity}
    (stands : w.StandsFor name t selectivity) (stands' : w.StandsFor name t' selectivity') :
    t = t' ∧ selectivity = selectivity' := by
  obtain ⟨s, source, rfl⟩ := h.standsFor_iff.1 stands
  obtain ⟨s', source', rfl⟩ := h.standsFor_iff.1 stands'
  rw [source] at source'
  obtain ⟨rfl, rfl⟩ := Prod.mk.inj (Option.some.inj source')
  exact ⟨rfl, rfl⟩

theorem isKey_iff (h : w.IsPrepared inputs) (ref : ColumnRef) :
    inputs.isKey ref = true ↔ w.IsKey ref := by
  rw [h.isKey_eq, Option.any_eq_true]
  constructor
  · rintro ⟨⟨s, t⟩, source, key⟩
    exact ⟨t, s.selectivity, h.standsFor_iff.2 ⟨s, source, rfl⟩, eq_of_beq key⟩
  · rintro ⟨t, selectivity, stands, key⟩
    obtain ⟨s, source, -⟩ := h.standsFor_iff.1 stands
    exact ⟨(s, t), source, beq_iff_eq.2 key⟩

/-- The estimate of a relation is that of the table and the selectivity its alias stands for. -/
theorem exists_of_relation (h : w.IsPrepared inputs) {r : Relation}
    (found : inputs.relation name = .ok r) :
    ∃ t selectivity, w.StandsFor name t selectivity ∧ Inputs.isFraction selectivity = true ∧
      r.scan = t.statistics.scan selectivity := by
  rw [h.relation_eq] at found
  cases source : w.source? name with
  | none =>
    rw [source] at found
    exact absurd found (by simp)
  | some st =>
    obtain ⟨s, t⟩ := st
    rw [source] at found
    cases fraction : Inputs.isFraction s.selectivity with
    | false => simp [fraction] at found
    | true =>
      simp only [fraction, if_true, Except.ok.injEq] at found
      obtain rfl := found
      exact ⟨t, s.selectivity, h.standsFor_iff.2 ⟨s, source, rfl⟩, fraction, rfl⟩

end IsPrepared

/-- The aliases in use have relations with the estimates of the tables that they stand for, and the
joins of the query have the keys of these tables. -/
theorem estimates_of_problem (h : w.inputs = .ok inputs) (small : w.tables.length < 2 ^ 32 - 1)
    (problem : inputs.problem = .ok p) :
    ((∀ name ∈ inputs.query.joinedAliases, ∃ r ∈ p.relations, r.name = name) ∧
      p.joins.toList.map Join.condition = inputs.query.joins) ∧
    (∀ r ∈ p.relations, ∃ t selectivity, w.StandsFor r.name t selectivity ∧
      r.scan.cost = t.statistics.pages.toFloat * t.statistics.pageCost ∧
      r.scan.rows = (t.statistics.tuples.toFloat * selectivity).toUInt64 ∧
      r.scan.rows.toNat =
        min (Double.whole (t.statistics.tuples.toFloat * selectivity)) (2 ^ 64 - 1)) ∧
    ∀ j ∈ p.joins, (j.leftKeyed = true ↔ w.IsKey j.condition.left) ∧
      (j.rightKeyed = true ↔ ∃ ref, j.condition.right = .column ref ∧ w.IsKey ref) := by
  have prepared := isPrepared_of_inputs h small
  refine ⟨⟨?named, Inputs.conditions_of_problem problem⟩, ?estimates, ?keys⟩
  case named =>
    intro name mem
    obtain ⟨r, listed, found⟩ := Inputs.relation_eq_ok_of_problem problem mem
    exact ⟨r, listed, Inputs.name_of_relation found⟩
  case estimates =>
    intro r mem
    obtain ⟨name, -, found⟩ := exists_of_mem_right (Inputs.forall₂_relations_of_problem problem)
      (Array.mem_toList_iff.2 mem)
    obtain ⟨t, selectivity, stands, fraction, scan⟩ := prepared.exists_of_relation found
    rw [Inputs.name_of_relation found, scan]
    exact ⟨t, selectivity, stands, rfl, rfl, t.statistics.toNat_filteredRows fraction⟩
  case keys =>
    intro j mem
    rw [Inputs.joins_of_problem problem, List.mem_toArray, List.mem_map] at mem
    obtain ⟨c, -, rfl⟩ := mem
    refine ⟨prepared.isKey_iff c.left, ?_⟩
    cases eq : c.right with
    | subquery => simp [Inputs.join, eq, Operand.column?]
    | column ref => simp [Inputs.join, eq, Operand.column?, prepared.isKey_iff]

/-- The problem of the residents, a quarter of whom are read. -/
def residentsProblem : Problem where
  joins := #[
    { condition := { left := ⟨"p", "city"⟩, op := .equal, right := .column ⟨"city", "id"⟩ }
      left := 0, right := some 1, leftKeyed := false, rightKeyed := true }]
  relations := #[⟨"p", { cost := 10, rows := 25 }⟩, ⟨"city", { cost := 2, rows := 5 }⟩]

set_option maxRecDepth 20000 in
theorem problem_residents : (residentsInputs 0.25).problem = .ok residentsProblem := by
  have people : Statistics.scan { tuples := 100, pages := 10 } 0.25 =
      { cost := 10, rows := 25 } := by
    decide +kernel
  have cities : Statistics.scan { tuples := 5, pages := 1, pageCost := 2 } unfiltered =
      { cost := 2, rows := 5 } := by
    decide +kernel
  rw [residentsProblem, ← people, ← cities]
  rfl

/-- The rows of `p` are a quarter of the people, and the key of the cities is not among their
columns. -/
theorem residents_estimates :
    ((residents 0.25).inputs = .ok (residentsInputs 0.25) ∧
      (residents 0.25).tables.length < 2 ^ 32 - 1 ∧
      (residentsInputs 0.25).problem = .ok residentsProblem) ∧
    (∃ t selectivity, (residents 0.25).StandsFor "p" t selectivity ∧
      25 = (t.statistics.tuples.toFloat * selectivity).toUInt64) ∧
    ¬(residents 0.25).IsKey ⟨"p", "city"⟩ ∧ (residents 0.25).IsKey ⟨"city", "id"⟩ := by
  have small : (residents 0.25).tables.length < 2 ^ 32 - 1 := by decide
  have estimates := estimates_of_problem (inputs_residents 0.25) small problem_residents
  have people := estimates.2.1 ⟨"p", { cost := 10, rows := 25 }⟩ (by simp [residentsProblem])
  obtain ⟨t, selectivity, stands, -, rows, -⟩ := people
  obtain ⟨left, right⟩ := estimates.2.2 residentsProblem.joins[0] (Array.getElem_mem _)
  obtain ⟨ref, eq, key⟩ := right.1 rfl
  obtain rfl := Operand.column.inj eq
  refine ⟨⟨inputs_residents 0.25, small, problem_residents⟩, ⟨t, selectivity, stands, rows⟩, ?_,
    key⟩
  intro key
  exact absurd (left.2 key) Bool.false_ne_true

end LeftDeep.Workload
