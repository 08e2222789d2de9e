import Mathlib.Data.List.Find
import LeftDeep.Problem.OfInputs
import LeftDeep.Proofs.Result

/-!
# How a query is resolved

A problem is posed by the joins of a query and by what the inputs say of the aliases and columns
that these joins name. Nothing else in the inputs is looked at.

## Main definitions

* `Inputs.IsReferenced`: a column that some join compares.

## Main statements

* `Inputs.relation_eq_ok_iff`: an alias stands for a relation if nothing about it is missing.
* `Inputs.forall₂_relations_of_problem`: the relations of a problem are those of its aliases.
* `Inputs.exists_of_problem_eq_error`: a problem fails as the relation of some alias does.
* `Inputs.problem_congr`: inputs that agree on the names in use pose the same problem.
-/

namespace LeftDeep.Inputs

variable {inputs inputs' : Inputs} {p : Problem} {r : Relation} {name : String} {e : PlanError}
  {ref : ColumnRef}

/-! ## Single relations -/

theorem orError_eq_ok_iff {α : Type} {value : Option α} {a : α} :
    orError value e = .ok a ↔ value = some a := by
  cases value <;> simp [orError]

theorem orError_eq_error_iff {α : Type} {value : Option α} {e' : PlanError} :
    orError value e = .error e' ↔ value = none ∧ e = e' := by
  cases value <;> simp [orError]

/-- An alias stands for a relation if nothing about it is missing. -/
theorem relation_eq_ok_iff : inputs.relation name = .ok r ↔
    ∃ id table statistics selectivity, inputs.query.tableId? name = some id ∧
      inputs.catalog.nameOf? id = some table ∧ inputs.statistics.find? table = some statistics ∧
      inputs.selectivities.find? name = some selectivity ∧ isFraction selectivity = true ∧
      r = { name, scan := statistics.scan selectivity } := by
  have last (statistics : Statistics) (selectivity : Selectivity) :
      (if isFraction selectivity then .ok { name, scan := statistics.scan selectivity }
        else .error (.invalidSelectivity name selectivity) : Except PlanError Relation) = .ok r ↔
      isFraction selectivity = true ∧ r = { name, scan := statistics.scan selectivity } := by
    cases isFraction selectivity <;> simp [@eq_comm _ r]
  simp only [relation, bind_eq_ok_iff, orError_eq_ok_iff, last]
  constructor
  · rintro ⟨id, h₁, table, h₂, statistics, h₃, selectivity, h₄, h₅, h₆⟩
    exact ⟨id, table, statistics, selectivity, h₁, h₂, h₃, h₄, h₅, h₆⟩
  · rintro ⟨id, table, statistics, selectivity, h₁, h₂, h₃, h₄, h₅, h₆⟩
    exact ⟨id, h₁, table, h₂, statistics, h₃, selectivity, h₄, h₅, h₆⟩

theorem name_of_relation (h : inputs.relation name = .ok r) : r.name = name := by
  obtain ⟨_, _, _, _, _, _, _, _, _, rfl⟩ := relation_eq_ok_iff.1 h
  rfl

/-- The error of an alias that the query does not scan is no other defect. -/
theorem relation_eq_unknownRelation_iff :
    inputs.relation name = .error (.unknownRelation name) ↔ inputs.query.tableId? name = none := by
  have last (statistics : Statistics) (selectivity : Selectivity) :
      ¬(if isFraction selectivity then .ok { name, scan := statistics.scan selectivity }
        else .error (.invalidSelectivity name selectivity) : Except PlanError Relation) =
          .error (.unknownRelation name) := by
    cases isFraction selectivity <;> simp
  simp [relation, bind_eq_error_iff, orError_eq_error_iff, last]

/-! ## Problems -/

/-- Some join of the query compares a column. -/
def IsReferenced (inputs : Inputs) (ref : ColumnRef) : Prop :=
  ∃ c ∈ inputs.query.joins, c.left = ref ∨ c.right = .column ref

theorem mem_relationNames_iff :
    name ∈ inputs.relationNames ↔ name ∈ inputs.query.joinedAliases :=
  List.mem_eraseDups

theorem problem_of_unscanned (h : inputs.unscanned? = some name) :
    inputs.problem = .error (.unknownRelation name) := by
  rw [problem, h]

theorem problem_of_scanned (h : inputs.unscanned? = none) :
    inputs.problem = (inputs.relationNames.mapM inputs.relation).map fun relations =>
      { joins := (inputs.query.joins.map (inputs.join inputs.relationNames)).toArray
        relations := relations.toArray } := by
  simp only [problem, h]
  cases inputs.relationNames.mapM inputs.relation <;> rfl

/-- The relations of a problem are those of the aliases in use. -/
theorem forall₂_relations_of_problem (h : inputs.problem = .ok p) :
    List.Forall₂ (fun name r => inputs.relation name = .ok r) inputs.relationNames
      p.relations.toList := by
  cases unscanned : inputs.unscanned? with
  | some name =>
    rw [problem_of_unscanned unscanned] at h
    exact absurd h (by simp)
  | none =>
    rw [problem_of_scanned unscanned] at h
    cases found : inputs.relationNames.mapM inputs.relation with
    | error e =>
      rw [found] at h
      exact absurd h (by simp [Except.map])
    | ok relations =>
      rw [found] at h
      obtain rfl := Except.ok.inj h
      exact mapM_eq_ok_iff.1 found

/-- A problem fails as the relation of some alias in use does. -/
theorem exists_of_problem_eq_error (h : inputs.problem = .error e) :
    ∃ name ∈ inputs.query.joinedAliases, inputs.relation name = .error e := by
  cases unscanned : inputs.unscanned? with
  | some name =>
    rw [problem_of_unscanned unscanned] at h
    obtain rfl := Except.error.inj h
    have isNone := List.find?_some unscanned
    exact ⟨name, List.mem_of_find?_eq_some unscanned,
      relation_eq_unknownRelation_iff.2 (Option.isNone_iff_eq_none.1 isNone)⟩
  | none =>
    rw [problem_of_scanned unscanned] at h
    cases found : inputs.relationNames.mapM inputs.relation with
    | ok relations =>
      rw [found] at h
      exact absurd h (by simp [Except.map])
    | error e' =>
      rw [found] at h
      obtain rfl := Except.error.inj h
      obtain ⟨before, name, after, split, -, fails⟩ := mapM_eq_error_iff.1 found
      have mem : name ∈ inputs.relationNames := split ▸ List.mem_append_right _ List.mem_cons_self
      exact ⟨name, mem_relationNames_iff.1 mem, fails⟩

/-! ## Inputs that agree -/

theorem relation_eq_ok_of_problem (h : inputs.problem = .ok p)
    (mem : name ∈ inputs.query.joinedAliases) :
    ∃ r ∈ p.relations, inputs.relation name = .ok r := by
  obtain ⟨r, listed, found⟩ :=
    exists_of_mem_left (forall₂_relations_of_problem h) (mem_relationNames_iff.2 mem)
  exact ⟨r, Array.mem_toList_iff.1 listed, found⟩

theorem unscanned?_congr (joins : inputs.query.joins = inputs'.query.joins)
    (relation : ∀ name ∈ inputs.query.joinedAliases, inputs.relation name = inputs'.relation name) :
    inputs.unscanned? = inputs'.unscanned? := by
  rw [unscanned?, unscanned?, Query.joinedAliases, Query.joinedAliases, ← joins]
  apply List.find?_congr
  intro name mem
  rw [Bool.eq_iff_iff, Option.isNone_iff_eq_none, Option.isNone_iff_eq_none,
    ← relation_eq_unknownRelation_iff, ← relation_eq_unknownRelation_iff, relation name mem]

/-- Inputs that agree on the aliases and columns in use pose the same problem. -/
theorem problem_congr (joins : inputs.query.joins = inputs'.query.joins)
    (relation : ∀ name ∈ inputs.query.joinedAliases, inputs.relation name = inputs'.relation name)
    (isKey : ∀ ref, inputs.IsReferenced ref → inputs.isKey ref = inputs'.isKey ref) :
    inputs.problem = inputs'.problem := by
  have names : inputs.relationNames = inputs'.relationNames := by
    rw [relationNames, relationNames, Query.joinedAliases, Query.joinedAliases, joins]
  have relations : inputs.relationNames.mapM inputs.relation =
      inputs'.relationNames.mapM inputs'.relation := by
    rw [← names]
    apply mapM_congr
    intro name mem
    exact relation name (mem_relationNames_iff.1 mem)
  have resolved : inputs.query.joins.map (inputs.join inputs.relationNames) =
      inputs'.query.joins.map (inputs'.join inputs'.relationNames) := by
    rw [← names, ← joins]
    apply List.map_congr_left
    intro c mem
    have left := isKey c.left ⟨c, mem, .inl rfl⟩
    have right : c.right.column?.any inputs.isKey = c.right.column?.any inputs'.isKey := by
      cases eq : c.right with
      | subquery => rfl
      | column ref => exact isKey ref ⟨c, mem, .inr eq⟩
    rw [join, join, left, right]
  have unscanned := unscanned?_congr joins relation
  cases first : inputs.unscanned? with
  | some name =>
    rw [problem_of_unscanned first, problem_of_unscanned (unscanned ▸ first)]
  | none =>
    rw [problem_of_scanned first, problem_of_scanned (unscanned ▸ first), relations, resolved]

end LeftDeep.Inputs
