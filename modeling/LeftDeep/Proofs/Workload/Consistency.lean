import LeftDeep.Proofs.Plan.Placement
import LeftDeep.Proofs.Plan.Resolution
import LeftDeep.Proofs.Search.Failure
import LeftDeep.Proofs.Workload.Preparation

/-!
# Prepared workloads are consistent

Planning looks up the alias of a scan, then the table of its id, then the statistics of the table's
name. The stages that prepare a workload fill these maps one after another and under different keys,
yet a look-up that starts at a scanned alias never ends halfway. So planning a workload reports only
what is wrong with the query: an alias that no scan binds, a selectivity that is no fraction, or
joins that the search cannot order.

## Main definitions

* `Inputs.IsConsistent`: every scanned alias has all that planning looks up.
* `Workload.MayReport`: the errors that planning a prepared workload is left with.

## Main statements

* `Workload.isConsistent_of_inputs`: prepared inputs are consistent, and no other error occurs.
-/

namespace LeftDeep

/-- Every scanned alias has all that planning looks up. -/
structure Inputs.IsConsistent (inputs : Inputs) : Prop where
  /-- The aliases with a table are those with a selectivity. -/
  selectivity (name : String) :
    (inputs.query.tableId? name).isSome = (inputs.selectivities.find? name).isSome
  /-- The table of an alias is in the catalog, and has statistics under its name. -/
  statistics {name : String} {id : TableId} (scanned : inputs.query.tableId? name = some id) :
    ∃ table, inputs.catalog.nameOf? id = some table ∧
      (inputs.statistics.find? table).isSome = true

namespace Workload

variable {w : Workload} {inputs : Inputs} {p : Problem} {search : Search} {e : PlanError}

/-- The errors that a search is left with on the inputs of a workload. -/
def MayReport (w : Workload) (inputs : Inputs) (search : Search) : PlanError → Prop
  | .unknownRelation name =>
    name ∈ inputs.query.joinedAliases ∧ ∀ s ∈ w.effectiveScans, s.boundName ≠ name
  | .invalidSelectivity name value => name ∈ inputs.query.joinedAliases ∧
    ∃ s, w.scanOf? name = some s ∧ s.selectivity = value ∧ Inputs.isFraction value = false
  | .infeasible count => search = .exhaustive ∧ count = inputs.query.joins.length
  | .tooManyJoins count limit =>
    search = .exhaustive ∧ count = inputs.query.joins.length ∧ limit = 64 ∧ limit < count
  | .disconnected remaining =>
    search = .greedy ∧ remaining ≠ [] ∧ remaining.Sublist inputs.query.joins
  | .unknownTableId _ => False
  | .missingStatistics _ => False
  | .missingSelectivity _ => False

/-! ## Errors -/

/-- An alias without a relation has no scan, or one with an invalid selectivity. -/
theorem mayReport_of_relation (h : w.IsPrepared inputs) {name : String}
    (mem : name ∈ inputs.query.joinedAliases)
    (fails : inputs.relation name = .error e) : w.MayReport inputs search e := by
  rw [h.relation_eq] at fails
  cases source : w.source? name with
  | none =>
    rw [source] at fails
    obtain rfl := Except.error.inj fails
    exact ⟨mem, scanOf?_eq_none_iff.1 (h.source?_eq_none_iff.1 source)⟩
  | some st =>
    obtain ⟨s, t⟩ := st
    rw [source] at fails
    cases fraction : Inputs.isFraction s.selectivity with
    | true => simp [fraction] at fails
    | false =>
      simp only [fraction, Bool.false_eq_true, if_false, Except.error.injEq] at fails
      obtain rfl := fails
      exact ⟨mem, s, (h.source?_eq_some_iff.1 source).1, rfl, fraction⟩

/-- A search that fails reports joins of the query. -/
theorem mayReport_of_run (problem : inputs.problem = .ok p) (fails : p.run search = .error e) :
    w.MayReport inputs search e := by
  have size : p.size = inputs.query.joins.length := Inputs.size_of_problem problem
  cases search with
  | greedy =>
    obtain ⟨conditions, ne, sublist, rfl⟩ := Problem.conditions_of_greedy_eq_error fails
    exact ⟨rfl, ne, Inputs.conditions_of_problem problem ▸ sublist⟩
  | exhaustive =>
    rcases Problem.eq_of_exhaustive_eq_error fails with rfl | ⟨large, rfl⟩
    · exact ⟨rfl, size⟩
    · exact ⟨rfl, size, rfl, large⟩

theorem mayReport_of_planWith (h : w.IsPrepared inputs)
    (fails : inputs.planWith search = .error e) : w.MayReport inputs search e := by
  cases problem : inputs.problem with
  | error e' =>
    rw [Inputs.planWith, problem] at fails
    obtain rfl := Except.error.inj fails
    obtain ⟨name, mem, fails⟩ := Inputs.exists_of_problem_eq_error problem
    exact mayReport_of_relation h mem fails
  | ok p =>
    rw [Inputs.planWith_of_problem problem, Problem.plan] at fails
    cases run : p.run search with
    | error e' =>
      rw [run] at fails
      obtain rfl := Except.error.inj fails
      exact mayReport_of_run problem run
    | ok placed =>
      rw [run] at fails
      exact absurd fails (by simp [Except.map])

/-! ## Consistency -/

/-- The inputs that a workload prepares are consistent: no search, nor the one that a configuration
chooses, reports that an id, statistics or a selectivity is missing. -/
theorem isConsistent_of_inputs (h : w.inputs = .ok inputs)
    (small : w.tables.length < 2 ^ 32 - 1) :
    inputs.IsConsistent ∧
    (∀ search e, inputs.planWith search = .error e → w.MayReport inputs search e) ∧
    ∀ config e, inputs.plan config = .error e →
      w.MayReport inputs (config.searchFor inputs.query.joins.length) e := by
  have prepared := isPrepared_of_inputs h small
  refine ⟨⟨?selectivity, ?statistics⟩, fun search e => mayReport_of_planWith prepared,
    fun config e => mayReport_of_planWith prepared⟩
  case selectivity =>
    intro name
    cases source : w.source? name with
    | none =>
      rw [prepared.tableId?_eq_none source, prepared.selectivity,
        prepared.source?_eq_none_iff.1 source]
      rfl
    | some st =>
      obtain ⟨id, tableId, -, -, -, selectivity⟩ := prepared.exists_tableId? source
      rw [tableId, selectivity]
      rfl
  case statistics =>
    intro name id scanned
    cases source : w.source? name with
    | none =>
      rw [prepared.tableId?_eq_none source] at scanned
      exact absurd scanned (by simp)
    | some st =>
      obtain ⟨id', tableId, nameOf, -, statistics, -⟩ := prepared.exists_tableId? source
      rw [scanned] at tableId
      obtain rfl := Option.some.inj tableId
      refine ⟨st.2.name, nameOf, ?_⟩
      rw [statistics]
      rfl

set_option maxRecDepth 20000 in
theorem planWith_residents : (residentsInputs 1.5).planWith .greedy =
    .error (.invalidSelectivity "p" 1.5) := rfl

/-- The inputs of a workload whose last scan of `p` has a selectivity above 1. -/
theorem residents_isConsistent :
    ((residents 1.5).inputs = .ok (residentsInputs 1.5) ∧
      (residents 1.5).tables.length < 2 ^ 32 - 1) ∧
    (residentsInputs 1.5).IsConsistent ∧
    (residents 1.5).MayReport (residentsInputs 1.5) .greedy (.invalidSelectivity "p" 1.5) := by
  have small : (residents 1.5).tables.length < 2 ^ 32 - 1 := by decide
  have consistent := isConsistent_of_inputs (inputs_residents 1.5) small
  exact ⟨⟨inputs_residents 1.5, small⟩, consistent.1,
    consistent.2.1 .greedy _ planWith_residents⟩

end Workload
end LeftDeep
