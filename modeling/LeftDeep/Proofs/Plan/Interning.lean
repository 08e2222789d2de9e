import Mathlib.Data.Bool.Basic
import Mathlib.Data.List.Basic
import LeftDeep.Problem.OfInputs
import LeftDeep.Proofs.Search.Replay

/-!
# Aliases and relation indexes

A problem knows its relations by index, a query by alias. Different aliases have different indexes,
so a plan reads a relation exactly when one of its joins names the alias of the relation, and a
join can be appended exactly when one of its two sides is named before.

## Main definitions

* `Condition.NamesOnce`: exactly one side of a condition has a property.
* `Inputs.IsNamed`: some of the placed joins names an alias.
* `Inputs.chain`: a query of three joins.

## Main statements

* `Inputs.joins_of_problem`: the joins of the problem are those of the query.
* `Inputs.isRead_iff`: reading a relation is naming its alias.
* `Inputs.namesOnce_of_nextStep?`: a join is appended when exactly one of its aliases is named.
-/

namespace LeftDeep

/-- Exactly one side of a condition has an alias with a property. A sub-query has no alias. -/
def Condition.NamesOnce (c : Condition) (named : String → Prop) : Prop :=
  Xor (named c.left.relation) (∃ ref, c.right = .column ref ∧ named ref.relation)

theorem Condition.namesOnce_swap (c : Condition) (named : String → Prop) :
    c.swap.NamesOnce named ↔ c.NamesOnce named := by
  obtain ⟨left, op, right⟩ := c
  cases right with
  | subquery => rfl
  | column ref =>
    simp only [NamesOnce, swap, Operand.column.injEq, exists_eq_left']
    rw [xor_comm]

theorem Condition.mem_aliases_swap (c : Condition) (name : String) :
    name ∈ c.swap.aliases ↔ name ∈ c.aliases := by
  obtain ⟨left, op, right⟩ := c
  cases right with
  | subquery => rfl
  | column ref => simp [swap, aliases, Operand.column?, or_comm]

namespace Inputs

variable {inputs : Inputs} {p : Problem} {plan : PartialPlan} {c : Condition} {name : String}
  {index : ℕ} {s : Step}

/-- The joins of the problem are those of the query, with aliases replaced by indexes. -/
theorem joins_of_problem (h : inputs.problem = .ok p) :
    p.joins = (inputs.query.joins.map (inputs.join inputs.relationNames)).toArray := by
  rw [problem] at h
  split at h
  · exact absurd h (by simp)
  · cases relations : inputs.relationNames.mapM inputs.relation with
    | error e =>
      simp only [relations, bind, Except.bind] at h
      exact absurd h (by simp)
    | ok relations =>
      simp only [relations, bind, Except.bind, Except.ok.injEq] at h
      rw [← h]

theorem size_of_problem (h : inputs.problem = .ok p) : p.size = inputs.query.joins.length := by
  rw [Problem.size, joins_of_problem h, List.size_toArray, List.length_map]

theorem conditions_of_problem (h : inputs.problem = .ok p) :
    p.joins.toList.map Join.condition = inputs.query.joins := by
  rw [joins_of_problem h, List.map_map]
  exact List.map_id _

theorem getElem?_joins_of_problem (h : inputs.problem = .ok p) (index : ℕ) :
    p.joins[index]? = inputs.query.joins[index]?.map (inputs.join inputs.relationNames) := by
  rw [joins_of_problem h, List.getElem?_toArray, List.getElem?_map]

theorem condition?_of_problem (h : inputs.problem = .ok p) (index : ℕ) :
    p.condition? index = inputs.query.joins[index]? := by
  rw [Problem.condition?, getElem?_joins_of_problem h]
  cases inputs.query.joins[index]? <;> rfl

/-- The aliases of a query's joins have indexes. -/
theorem mem_relationNames (mem : c ∈ inputs.query.joins) (named : name ∈ c.aliases) :
    name ∈ inputs.relationNames := by
  rw [relationNames, List.mem_eraseDups]
  exact List.mem_flatMap.2 ⟨c, mem, named⟩

/-- A join reads the relation of an alias if its condition names the alias. -/
theorem reads_join_iff (known : name ∈ inputs.relationNames) :
    (inputs.join inputs.relationNames c).reads (inputs.relationNames.idxOf name) = true ↔
      name ∈ c.aliases := by
  have inj (other : String) :
      inputs.relationNames.idxOf other = inputs.relationNames.idxOf name ↔ name = other := by
    rw [eq_comm, List.idxOf_inj known]
  obtain ⟨left, op, right⟩ := c
  cases right with
  | subquery => simp [Join.reads, join, Operand.column?, Condition.aliases, inj]
  | column ref => simp [Join.reads, join, Operand.column?, Condition.aliases, inj]

/-- Some of the joins of a query with the given indexes name an alias. -/
def IsNamed (inputs : Inputs) (indexes : List ℕ) (name : String) : Prop :=
  ∃ i ∈ indexes, ∃ c, inputs.query.joins[i]? = some c ∧ name ∈ c.aliases

/-- A plan reads the relation of an alias if one of its joins names the alias. -/
theorem isRead_iff (h : inputs.problem = .ok p) (plan : PartialPlan)
    (known : name ∈ inputs.relationNames) :
    p.isRead plan.steps (inputs.relationNames.idxOf name) = true ↔
      inputs.IsNamed plan.joins name := by
  rw [Problem.isRead, Problem.any_steps plan, List.any_eq_true, IsNamed]
  apply exists_congr
  intro i
  apply and_congr_right'
  rw [getElem?_joins_of_problem h]
  cases inputs.query.joins[i]? with
  | none => simp
  | some c => simp [reads_join_iff known]

/-- A join is appended to joins of which exactly one of its sides is named. -/
theorem namesOnce_of_nextStep? (h : inputs.problem = .ok p) (ne : plan.joins ≠ [])
    (step : p.nextStep? plan index = some s) (found : inputs.query.joins[index]? = some c) :
    c.NamesOnce (inputs.IsNamed plan.joins) := by
  have some : (p.nextStep? plan index).isSome = true := by
    rw [step]
    rfl
  obtain ⟨j, eq, sides⟩ := Problem.isSome_nextStep?_iff.1 some
  rw [getElem?_joins_of_problem h, found, Option.map_some, Option.some.injEq] at eq
  have nonempty : plan.isEmpty = false := by
    rw [Bool.eq_false_iff]
    intro empty
    exact ne (PartialPlan.isEmpty_iff.1 empty)
  have mem : c ∈ inputs.query.joins := List.mem_of_getElem? found
  rw [Problem.isSome_sides?_iff, nonempty, Bool.false_or, ← eq] at sides
  have left := isRead_iff h plan (mem_relationNames mem List.mem_cons_self)
  obtain ⟨leftRef, op, right⟩ := c
  cases right with
  | subquery =>
    have read : p.isRead plan.steps (inputs.relationNames.idxOf leftRef.relation) = true := by
      simpa [join, Operand.column?] using sides
    refine .inl ⟨left.1 read, ?_⟩
    rintro ⟨ref, eq, -⟩
    exact absurd eq (by simp)
  | column ref =>
    have named : ref.relation ∈ Condition.aliases ⟨leftRef, op, .column ref⟩ := by
      simp [Condition.aliases, Operand.column?]
    have right := isRead_iff h plan (mem_relationNames mem named)
    simp only [join, Operand.column?, Option.map_some, Option.any_some] at sides
    rw [Bool.coe_xor_iff, left, right] at sides
    simpa [Condition.NamesOnce] using sides

/-- A query that poses the problem of the chain. -/
def chain : Inputs where
  query :=
    { scans := (((Bindings.empty.bind "a" 1).bind "b" 2).bind "c" 3).bind "d" 4
      joins := [
        { left := ⟨"a", "x"⟩, op := .equal, right := .column ⟨"b", "x"⟩ },
        { left := ⟨"a", "y"⟩, op := .equal, right := .column ⟨"c", "id"⟩ },
        { left := ⟨"c", "z"⟩, op := .equal, right := .column ⟨"d", "z"⟩ }] }
  catalog := { tables := [
    { id := 1, name := "a", columns := [⟨"x", false⟩, ⟨"y", false⟩] },
    { id := 2, name := "b", columns := [⟨"x", false⟩] },
    { id := 3, name := "c", columns := [⟨"id", true⟩, ⟨"z", false⟩] },
    { id := 4, name := "d", columns := [⟨"z", false⟩] }] }
  statistics := (((Bindings.empty.bind "a" { tuples := 3, pages := 3 }).bind
    "b" { tuples := 2, pages := 2 }).bind "c" { tuples := 1, pages := 1 }).bind
    "d" { tuples := 4, pages := 4 }
  selectivities := (((Bindings.empty.bind "a" unfiltered).bind "b" unfiltered).bind
    "c" unfiltered).bind "d" unfiltered

set_option maxRecDepth 20000 in
theorem problem_chain : chain.problem = .ok Problem.chain := rfl

end Inputs
end LeftDeep
