import LeftDeep.Proofs.Checked.Resolution
import LeftDeep.Proofs.Double.Order
import LeftDeep.Proofs.Plan.Interning

/-!
# Which defect of a query is reported

Many aliases of a query may be defective at once, each in more than one way. The aliases that the
joins name are gone through in the order of use, first for those that the query does not scan and
then for all other defects. The first defect found is reported. An alias that no join names is not
looked at, nor are the table and the statistics that only such an alias leads to.

## Main definitions

* `IsFirst`: the first name of a list with some property.
* `Inputs.Defect`: what is wrong with a scanned alias, and the error that says so.
* `Inputs.Reports`: the error of a query.
* `Inputs.SameLookups`: inputs that say the same of all aliases that joins name.

## Main statements

* `Inputs.relation_eq_error_iff`: the relation of an alias fails with its defect.
* `Inputs.problem_eq_error_iff`: a query fails with the error that it reports.
* `Inputs.problem_outcome`: a query fails in this way only, and depends on nothing else.
-/

namespace LeftDeep

/-! ## The first of many -/

/-- Where an element stands in a list with one more element at its end. -/
theorem concat_eq_append_cons_iff {α : Type} {items before after : List α} {last a : α} :
    items ++ [last] = before ++ a :: after ↔
      (∃ rest, after = rest ++ [last] ∧ items = before ++ a :: rest) ∨
        after = [] ∧ items = before ∧ last = a := by
  constructor
  · intro split
    cases after using List.reverseRecOn with
    | nil =>
      obtain ⟨rfl, eq⟩ := List.append_inj' split rfl
      exact .inr ⟨rfl, rfl, List.singleton_inj.1 eq⟩
    | append_singleton rest end' =>
      rw [← List.cons_append, ← List.append_assoc] at split
      obtain ⟨rfl, eq⟩ := List.append_inj' split rfl
      obtain rfl := List.singleton_inj.1 eq
      exact .inl ⟨rest, rfl, rfl⟩
  · rintro (⟨rest, rfl, rfl⟩ | ⟨rfl, rfl, rfl⟩)
    · rw [List.append_assoc, List.cons_append]
    · rfl

/-- The first name of a list with some property. It may be listed again. -/
def IsFirst (P : String → Prop) (names : List String) (name : String) : Prop :=
  ∃ before after, names = before ++ name :: after ∧ P name ∧ ∀ other ∈ before, ¬P other

namespace IsFirst

variable {P : String → Prop} {names later : List String} {name last : String}

theorem mem (h : IsFirst P names name) : name ∈ names := by
  obtain ⟨before, after, rfl, -⟩ := h
  exact List.mem_append_right _ List.mem_cons_self

theorem holds (h : IsFirst P names name) : P name := by
  obtain ⟨_, _, _, holds, -⟩ := h
  exact holds

/-- The last name comes first if none before it has the property. -/
theorem concat_iff : IsFirst P (names ++ [last]) name ↔
    IsFirst P names name ∨ (∀ other ∈ names, ¬P other) ∧ P last ∧ name = last := by
  constructor
  · rintro ⟨before, after, split, holds, first⟩
    obtain ⟨rest, rfl, rfl⟩ | ⟨rfl, rfl, rfl⟩ := concat_eq_append_cons_iff.1 split
    · exact .inl ⟨before, rest, rfl, holds, first⟩
    · exact .inr ⟨first, holds, rfl⟩
  · rintro (⟨before, after, rfl, holds, first⟩ | ⟨first, holds, rfl⟩)
    · exact ⟨before, after ++ [last], by simp, holds, first⟩
    · exact ⟨names, [], rfl, holds, first⟩

/-- A name of the second list comes first if none of the first list has the property. -/
theorem append_iff : IsFirst P (names ++ later) name ↔
    IsFirst P names name ∨ (∀ other ∈ names, ¬P other) ∧ IsFirst P later name := by
  induction later using List.reverseRecOn with
  | nil => simp [IsFirst]
  | append_singleton later last ih =>
    rw [← List.append_assoc, concat_iff, ih, concat_iff, List.forall_mem_append]
    tauto

/-- One of the names with a property comes first. -/
theorem exists_of_mem (mem : name ∈ names) (holds : P name) : ∃ first, IsFirst P names first := by
  induction names with
  | nil => exact absurd mem List.not_mem_nil
  | cons a names ih =>
    by_cases now : P a
    · exact ⟨a, [], names, rfl, now, by simp⟩
    · have later : name ∈ names := by
        refine (List.mem_cons.1 mem).resolve_left ?_
        rintro rfl
        exact now holds
      obtain ⟨first, found⟩ := ih later
      refine ⟨first, ?_⟩
      rw [← List.singleton_append, append_iff]
      exact .inr ⟨by simpa using now, found⟩

/-- Dropping repetitions leaves the first name as it is. -/
theorem eraseDups_iff : IsFirst P names.eraseDups name ↔ IsFirst P names name := by
  induction names using List.reverseRecOn with
  | nil => rfl
  | append_singleton names last ih =>
    rw [Inputs.eraseDups_concat, concat_iff]
    split
    · next mem =>
      -- A repetition is not the first: what it repeats has the property too.
      have none : ¬((∀ other ∈ names, ¬P other) ∧ P last ∧ name = last) := by
        rintro ⟨first, holds, -⟩
        exact first last mem holds
      rw [ih, or_iff_left none]
    · rw [concat_iff, ih]
      simp only [List.mem_eraseDups]

end IsFirst

namespace Inputs

variable {inputs inputs' : Inputs} {name : String} {e : PlanError}

/-! ## Single aliases -/

/-- What is wrong with an alias that the query scans: its table id is in no catalog, or its table
has no statistics, or it has no selectivity, or that is no fraction. Each is looked at if nothing
before it is missing. -/
inductive Defect (inputs : Inputs) (name : String) : PlanError → Prop
  | unknownTableId {id : TableId} (scanned : inputs.query.tableId? name = some id)
      (unknown : inputs.catalog.nameOf? id = none) : Defect inputs name (.unknownTableId id)
  | missingStatistics {id : TableId} {table : String}
      (scanned : inputs.query.tableId? name = some id)
      (known : inputs.catalog.nameOf? id = some table)
      (missing : inputs.statistics.find? table = none) :
      Defect inputs name (.missingStatistics table)
  | missingSelectivity {id : TableId} {table : String} {statistics : Statistics}
      (scanned : inputs.query.tableId? name = some id)
      (known : inputs.catalog.nameOf? id = some table)
      (found : inputs.statistics.find? table = some statistics)
      (missing : inputs.selectivities.find? name = none) :
      Defect inputs name (.missingSelectivity name)
  | invalidSelectivity {id : TableId} {table : String} {statistics : Statistics}
      {value : Selectivity} (scanned : inputs.query.tableId? name = some id)
      (known : inputs.catalog.nameOf? id = some table)
      (found : inputs.statistics.find? table = some statistics)
      (bound : inputs.selectivities.find? name = some value)
      (invalid : value.isNaN = true ∨ value < 0 ∨ 1 < value) :
      Defect inputs name (.invalidSelectivity name value)

/-- A selectivity is no fraction if it is no number or lies outside the interval from 0 to 1. -/
theorem isFraction_eq_false_iff {value : Selectivity} :
    isFraction value = false ↔ value.isNaN = true ∨ value < 0 ∨ 1 < value := by
  have one : (1 : Selectivity).isNaN = false := by decide +kernel
  cases number : value.isNaN with
  | true =>
    have notLe : ¬0 ≤ value := by
      rw [Double.le_iff, number]
      simp
    simp [isFraction, notLe]
  | false =>
    rw [isFraction, Bool.and_eq_false_iff, decide_eq_false_iff_not, decide_eq_false_iff_not,
      Double.not_le_iff Double.isNaN_zero number, Double.not_le_iff number one]
    simp

/-- An alias fails because the query does not scan it, or because of its defect. -/
theorem relation_eq_error_iff : inputs.relation name = .error e ↔
    inputs.query.tableId? name = none ∧ e = .unknownRelation name ∨ inputs.Defect name e := by
  have last (statistics : Statistics) (value : Selectivity) :
      (if isFraction value then .ok { name, scan := statistics.scan value }
        else .error (.invalidSelectivity name value) : Except PlanError Relation) = .error e ↔
      isFraction value = false ∧ e = .invalidSelectivity name value := by
    cases isFraction value <;> simp [@eq_comm _ e]
  simp only [relation, bind_eq_error_iff, orError_eq_error_iff, orError_eq_ok_iff, last,
    isFraction_eq_false_iff]
  constructor
  · rintro (⟨unscanned, rfl⟩ | ⟨id, scanned, ⟨unknown, rfl⟩ | ⟨table, known, ⟨missing, rfl⟩ |
      ⟨statistics, found, ⟨missing, rfl⟩ | ⟨value, bound, invalid, rfl⟩⟩⟩⟩)
    · exact .inl ⟨unscanned, rfl⟩
    · exact .inr (.unknownTableId scanned unknown)
    · exact .inr (.missingStatistics scanned known missing)
    · exact .inr (.missingSelectivity scanned known found missing)
    · exact .inr (.invalidSelectivity scanned known found bound invalid)
  · rintro (⟨unscanned, rfl⟩ | defect)
    · exact .inl ⟨unscanned, rfl⟩
    · right
      cases defect with
      | unknownTableId scanned unknown => exact ⟨_, scanned, .inl ⟨unknown, rfl⟩⟩
      | missingStatistics scanned known missing =>
        exact ⟨_, scanned, .inr ⟨_, known, .inl ⟨missing, rfl⟩⟩⟩
      | missingSelectivity scanned known found missing =>
        exact ⟨_, scanned, .inr ⟨_, known, .inr ⟨_, found, .inl ⟨missing, rfl⟩⟩⟩⟩
      | invalidSelectivity scanned known found bound invalid =>
        exact ⟨_, scanned, .inr ⟨_, known, .inr ⟨_, found, .inr ⟨_, bound, invalid, rfl⟩⟩⟩⟩

/-- An alias that the query scans fails because of its defect. -/
theorem relation_eq_error_iff_defect (scanned : inputs.query.tableId? name ≠ none) :
    inputs.relation name = .error e ↔ inputs.Defect name e := by
  rw [relation_eq_error_iff, or_iff_right]
  rintro ⟨unscanned, -⟩
  exact scanned unscanned

theorem exists_relation_iff (scanned : inputs.query.tableId? name ≠ none) :
    (∃ r, inputs.relation name = .ok r) ↔ ¬∃ e, inputs.Defect name e := by
  simp only [← relation_eq_error_iff_defect scanned]
  cases inputs.relation name <;> simp

/-! ## Whole queries -/

/-- The error of a query: the first alias that it does not scan, or else the defect of the first
alias with one. -/
inductive Reports (inputs : Inputs) : PlanError → Prop
  | unscanned {name : String}
      (first : IsFirst (fun name => inputs.query.tableId? name = none)
        inputs.query.joinedAliases name) : Reports inputs (.unknownRelation name)
  | defective {name : String} {e : PlanError}
      (scanned : ∀ name ∈ inputs.query.joinedAliases, inputs.query.tableId? name ≠ none)
      (first : IsFirst (fun name => ∃ e, inputs.Defect name e) inputs.query.joinedAliases name)
      (defect : inputs.Defect name e) : Reports inputs e

theorem unscanned?_eq_some_iff : inputs.unscanned? = some name ↔
    IsFirst (fun name => inputs.query.tableId? name = none) inputs.query.joinedAliases name := by
  rw [unscanned?, List.find?_eq_some_iff_append]
  simp only [Option.isNone_iff_eq_none, Bool.not_eq_true', Option.isNone_eq_false_iff]
  constructor
  · rintro ⟨unscanned, before, after, split, scanned⟩
    refine ⟨before, after, split, unscanned, ?_⟩
    intro other mem
    exact Option.isSome_iff_ne_none.1 (scanned other mem)
  · rintro ⟨before, after, split, unscanned, scanned⟩
    refine ⟨unscanned, before, after, split, ?_⟩
    intro other mem
    exact Option.isSome_iff_ne_none.2 (scanned other mem)

theorem unscanned?_eq_none_iff : inputs.unscanned? = none ↔
    ∀ name ∈ inputs.query.joinedAliases, inputs.query.tableId? name ≠ none := by
  simp [unscanned?, List.find?_eq_none]

/-- If all aliases are scanned, looking them up in turn fails with the first defect. -/
theorem mapM_relation_eq_error_iff
    (scanned : ∀ name ∈ inputs.query.joinedAliases, inputs.query.tableId? name ≠ none) :
    inputs.relationNames.mapM inputs.relation = .error e ↔
      ∃ name, IsFirst (fun name => ∃ e, inputs.Defect name e) inputs.query.joinedAliases name ∧
        inputs.Defect name e := by
  have scanned' : ∀ name ∈ inputs.relationNames, inputs.query.tableId? name ≠ none := by
    intro name mem
    exact scanned name (mem_relationNames_iff.1 mem)
  rw [mapM_eq_error_iff]
  constructor
  · rintro ⟨before, name, after, split, succeed, fails⟩
    have mem {other : String} (listed : other ∈ before ++ [name]) :
        other ∈ inputs.relationNames := by
      rw [split, List.append_cons]
      exact List.mem_append_left _ listed
    have defect := (relation_eq_error_iff_defect (scanned' name (mem (by simp)))).1 fails
    refine ⟨name, IsFirst.eraseDups_iff.1 ⟨before, after, split, ⟨e, defect⟩, ?_⟩, defect⟩
    intro other earlier
    have listed := mem (List.mem_append_left _ earlier)
    exact (exists_relation_iff (scanned' other listed)).1 (succeed other earlier)
  · rintro ⟨name, first, defect⟩
    obtain ⟨before, after, split, -, succeed⟩ := IsFirst.eraseDups_iff.2 first
    have split' : inputs.relationNames = before ++ name :: after := split
    refine ⟨before, name, after, split', ?_, ?_⟩
    · intro other earlier
      have listed : other ∈ inputs.relationNames := split' ▸ List.mem_append_left _ earlier
      exact (exists_relation_iff (scanned' other listed)).2 (succeed other earlier)
    · exact (relation_eq_error_iff_defect (scanned name first.mem)).2 defect

/-- A query fails with the error that it reports. -/
theorem problem_eq_error_iff : inputs.problem = .error e ↔ inputs.Reports e := by
  constructor
  · intro fails
    cases unscanned : inputs.unscanned? with
    | some name =>
      rw [problem_of_unscanned unscanned] at fails
      obtain rfl := Except.error.inj fails
      exact .unscanned (unscanned?_eq_some_iff.1 unscanned)
    | none =>
      rw [problem_of_scanned unscanned] at fails
      have scanned := unscanned?_eq_none_iff.1 unscanned
      cases found : inputs.relationNames.mapM inputs.relation with
      | ok relations =>
        rw [found] at fails
        exact absurd fails (by simp [Except.map])
      | error e' =>
        rw [found] at fails
        obtain rfl := Except.error.inj fails
        obtain ⟨name, first, defect⟩ := (mapM_relation_eq_error_iff scanned).1 found
        exact .defective scanned first defect
  · intro reports
    cases reports with
    | unscanned first => exact problem_of_unscanned (unscanned?_eq_some_iff.2 first)
    | defective scanned first defect =>
      have fails := (mapM_relation_eq_error_iff scanned).2 ⟨_, first, defect⟩
      rw [problem_of_scanned (unscanned?_eq_none_iff.2 scanned), fails]
      rfl

/-- A query can be planned if all aliases that its joins name are scanned and free of defects. -/
theorem exists_problem_iff : (∃ p, inputs.problem = .ok p) ↔
    ∀ name ∈ inputs.query.joinedAliases,
      inputs.query.tableId? name ≠ none ∧ ¬∃ e, inputs.Defect name e := by
  constructor
  · rintro ⟨p, ok⟩ name mem
    obtain ⟨r, -, found⟩ := relation_eq_ok_of_problem ok mem
    have scanned : inputs.query.tableId? name ≠ none := by
      intro unscanned
      rw [relation_eq_unknownRelation_iff.2 unscanned] at found
      exact absurd found (by simp)
    exact ⟨scanned, (exists_relation_iff scanned).1 ⟨r, found⟩⟩
  · intro sound
    cases posed : inputs.problem with
    | ok p => exact ⟨p, rfl⟩
    | error e =>
      cases problem_eq_error_iff.1 posed with
      | unscanned first => exact absurd first.holds (sound _ first.mem).1
      | defective _ first defect => exact absurd ⟨e, defect⟩ (sound _ first.mem).2

/-! ## What is looked at -/

/-- The same joins, and the same answers to all look-ups that start at an alias which they name. -/
structure SameLookups (inputs inputs' : Inputs) : Prop where
  joins : inputs'.query.joins = inputs.query.joins
  tableId : ∀ name ∈ inputs.query.joinedAliases,
    inputs'.query.tableId? name = inputs.query.tableId? name
  catalog : ∀ name ∈ inputs.query.joinedAliases, ∀ id, inputs.query.tableId? name = some id →
    inputs'.catalog.nameOf? id = inputs.catalog.nameOf? id ∧
      inputs'.catalog.primaryKey? id = inputs.catalog.primaryKey? id
  statistics : ∀ name ∈ inputs.query.joinedAliases, ∀ id table,
    inputs.query.tableId? name = some id → inputs.catalog.nameOf? id = some table →
      inputs'.statistics.find? table = inputs.statistics.find? table
  selectivity : ∀ name ∈ inputs.query.joinedAliases,
    inputs'.selectivities.find? name = inputs.selectivities.find? name

theorem SameLookups.relation_eq (same : inputs.SameLookups inputs')
    (mem : name ∈ inputs.query.joinedAliases) : inputs.relation name = inputs'.relation name := by
  rw [relation, relation, same.tableId name mem, same.selectivity name mem]
  apply bind_congr_of_ok
  intro id found
  have scanned := orError_eq_ok_iff.1 found
  rw [(same.catalog name mem id scanned).1]
  apply bind_congr_of_ok
  intro table found
  rw [same.statistics name mem id table scanned (orError_eq_ok_iff.1 found)]

theorem SameLookups.isKey_eq (same : inputs.SameLookups inputs') {ref : ColumnRef}
    (mem : ref.relation ∈ inputs.query.joinedAliases) : inputs.isKey ref = inputs'.isKey ref := by
  rw [isKey, isKey, same.tableId _ mem]
  cases scanned : inputs.query.tableId? ref.relation with
  | none => rfl
  | some id => rw [Option.bind_some, Option.bind_some, (same.catalog _ mem id scanned).2]

/-- Inputs with the same look-ups pose the same problem, or fail with the same error. -/
theorem SameLookups.problem_eq (same : inputs.SameLookups inputs') :
    inputs.problem = inputs'.problem := by
  apply problem_congr same.joins.symm
  · intro name mem
    exact same.relation_eq mem
  · rintro ref ⟨c, written, compared⟩
    apply same.isKey_eq
    rw [Query.joinedAliases, List.mem_flatMap]
    refine ⟨c, written, ?_⟩
    rcases compared with rfl | right
    · exact List.mem_cons_self
    · simp [Condition.aliases, right, Operand.column?]

/-- A query fails with the error that it reports and in no other way, whatever the inputs say of
aliases that no join names. -/
theorem problem_outcome (inputs : Inputs) :
    (∀ e, inputs.problem = .error e ↔ inputs.Reports e) ∧
    ((∃ p, inputs.problem = .ok p) ↔ ∀ name ∈ inputs.query.joinedAliases,
      inputs.query.tableId? name ≠ none ∧ ¬∃ e, inputs.Defect name e) ∧
    ∀ inputs', inputs.SameLookups inputs' → inputs.problem = inputs'.problem :=
  ⟨fun _ => problem_eq_error_iff, exists_problem_iff, fun _ same => same.problem_eq⟩

/-- A query with two defects. The first alias has an id that no table has, the second is not
scanned. -/
def unboundAlias : Inputs where
  query :=
    { scans := Bindings.empty.bind "a" 7
      joins := [{ left := ⟨"a", "x"⟩, op := .equal, right := .column ⟨"b", "x"⟩ }] }

/-- The query of the chain, with another alias whose id no table has. -/
def spareAlias : Inputs :=
  { chain with query := { chain.query with scans := chain.query.scans.bind "e" 9 } }

theorem sameLookups_spareAlias : chain.SameLookups spareAlias where
  joins := rfl
  tableId := by decide +kernel
  catalog _ _ _ _ := ⟨rfl, rfl⟩
  statistics _ _ _ _ _ _ := rfl
  selectivity _ _ := rfl

/-- The later defect is reported if it is that the alias is not scanned. An alias that no join names
may have any defect. -/
theorem spareAlias_problem_outcome :
    (unboundAlias.Defect "a" (.unknownTableId 7) ∧
      unboundAlias.Reports (.unknownRelation "b") ∧ chain.SameLookups spareAlias) ∧
    unboundAlias.problem = .error (.unknownRelation "b") ∧
    chain.problem = spareAlias.problem := by
  have reports : unboundAlias.Reports (.unknownRelation "b") := by
    refine .unscanned ⟨["a"], [], rfl, rfl, ?_⟩
    decide +kernel
  refine ⟨⟨.unknownTableId rfl rfl, reports, sameLookups_spareAlias⟩, ?_, ?_⟩
  · exact ((problem_outcome unboundAlias).1 _).2 reports
  · exact (problem_outcome chain).2.2 spareAlias sameLookups_spareAlias

end Inputs
end LeftDeep
