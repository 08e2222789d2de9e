import LeftDeep.Proofs.Search.Monotone

/-!
# The equation of the exhaustive search

The entry of a set of joins is the cheapest way to append one of them to the entry of the others,
and of equally cheap ways the one that appends the join that comes first in the query. So every
prefix of an entry is itself an entry.

## Main definitions

* `Problem.IsBellmanTable`: what the finished table satisfies.

## Main statements

* `Problem.exists_isBellmanTable`: the search ends with such a table, if all costs it meets are
  numbers.
-/

namespace LeftDeep.Problem

variable {p : Problem} {table : PlanTable}

/-- The equation of the exhaustive search. -/
structure IsBellmanTable (p : Problem) (table : PlanTable) : Prop where
  /-- A set of joins has an entry if it has a candidate. -/
  isSome_iff : ∀ set, p.IsJoinSet set →
    ((table.find? set).isSome = true ↔ ∃ last prior s, p.Candidate table set last prior s)
  /-- Nothing else has an entry. -/
  eq_none : ∀ set, ¬p.IsJoinSet set → table.find? set = none
  /-- The entry is the cheapest candidate, with the first join last among equally cheap ones. -/
  least : ∀ set plan, table.find? set = some plan → ∃ last prior s,
    p.Candidate table set last prior s ∧ plan = prior.extend s ∧
      ∀ last' prior' s', p.Candidate table set last' prior' s' →
        s.cost ≤ s'.cost ∧ (s'.cost ≤ s.cost → last ≤ last')
  /-- The entry places the members of the set. -/
  perm : ∀ set plan, table.find? set = some plan → plan.joins.Perm set.toList
  /-- A prefix of an entry is the entry of the joins it places. -/
  of_prefix : ∀ set plan k, table.find? set = some plan → 0 < k → k < plan.joins.length →
    ∃ part, table.find? (IndexSet.ofList (plan.joins.take k)) = some part ∧
      part.steps = plan.steps.take k

theorem IsPlanTable.isBellmanTable (isPlanTable : p.IsPlanTable table)
    (numbers : p.MeetsNumbers table) : p.IsBellmanTable table := by
  constructor
  case isSome_iff =>
    intro set joinSet
    constructor
    · intro some
      obtain ⟨plan, h⟩ := Option.isSome_iff_exists.1 some
      obtain ⟨last, prior, s, candidate, -⟩ := isPlanTable.least numbers h
      exact ⟨last, prior, s, candidate⟩
    · rintro ⟨last, prior, s, candidate⟩
      exact isPlanTable.isSome_of_candidate joinSet candidate
  case eq_none =>
    intro set notJoinSet
    exact isPlanTable.find?_eq_none notJoinSet
  case least =>
    intro set plan h
    exact isPlanTable.least numbers h
  case perm =>
    intro set plan h
    exact isPlanTable.perm h
  case of_prefix =>
    intro set plan k h pos lt
    exact isPlanTable.of_prefix h pos lt

/-- The exhaustive search ends with a table that satisfies its equation. -/
theorem exists_isBellmanTable (h : p.size ≤ IndexSet.capacity)
    (numbers : ∀ table, p.planTable = .ok table → p.MeetsNumbers table) :
    ∃ table, p.planTable = .ok table ∧ p.IsBellmanTable table := by
  obtain ⟨table, eq, isPlanTable⟩ := exists_planTable h
  exact ⟨table, eq, isPlanTable.isBellmanTable (numbers table eq)⟩

/-- The costs of the chain are numbers, since its scan costs are. -/
theorem chain_isBellmanTable :
    chain.size ≤ IndexSet.capacity ∧
      (∀ table, chain.planTable = .ok table → chain.MeetsNumbers table) ∧
      ∃ table, chain.planTable = .ok table ∧ chain.IsBellmanTable table := by
  have small : chain.size ≤ IndexSet.capacity := by decide
  have numbers : ∀ table, chain.planTable = .ok table → chain.MeetsNumbers table := by
    intro table eq
    exact (isPlanTable_of_planTable eq).meetsNumbers chain_scansAreProper
  exact ⟨small, numbers, exists_isBellmanTable small numbers⟩

end LeftDeep.Problem
