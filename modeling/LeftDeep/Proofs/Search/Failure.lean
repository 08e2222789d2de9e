import LeftDeep.Plan.Basic
import LeftDeep.Proofs.Result
import LeftDeep.Proofs.Search.Connectivity

/-!
# How the searches fail

The greedy search fails when none of the remaining joins can be appended, the exhaustive search when
there are too many joins, or when its table has no plan for all of them.

## Main statements

* `Problem.exists_of_greedyFrom_eq_error`: a run of the greedy search reports joins that remain.
* `Problem.conditions_of_greedy_eq_error`: the conditions it reports are in the order of the query.
* `Problem.eq_of_exhaustive_eq_error`: the two errors of the exhaustive search.
-/

namespace LeftDeep.Problem

variable {p : Problem} {plan : PartialPlan} {remaining : List ℕ} {e : PlanError}

/-- A run of the greedy search that fails reports joins that remain, in their order. -/
theorem exists_of_greedyFrom_eq_error (h : p.greedyFrom plan remaining = .error e) :
    ∃ left, left ≠ [] ∧ left.Sublist remaining ∧
      e = .disconnected (left.filterMap p.condition?) := by
  fun_induction greedyFrom p plan remaining with
  | case1 plan remaining empty => exact absurd h (by simp)
  | case2 plan remaining nonempty none =>
    obtain rfl := Except.error.inj h
    exact ⟨remaining, by simpa using nonempty, List.Sublist.refl remaining, rfl⟩
  | case3 plan remaining nonempty s cheapest ih =>
    obtain ⟨left, ne, sublist, eq⟩ := ih h
    exact ⟨left, ne, sublist.trans List.erase_sublist, eq⟩

theorem filterMap_condition?_range (p : Problem) :
    (List.range p.size).filterMap p.condition? = p.joins.toList.map Join.condition := by
  have found (i : ℕ) : p.condition? i = (p.joins.toList.map Join.condition)[i]? := by
    rw [condition?, List.getElem?_map, Array.getElem?_toList]
  have length : (p.joins.toList.map Join.condition).length = p.size := by simp [size]
  rw [List.filterMap_congr fun i _ => found i, filterMap_getElem?_range, ← length, List.take_length]

/-- The greedy search reports conditions of the query, in the order of the query. -/
theorem conditions_of_greedy_eq_error (h : p.greedy = .error e) :
    ∃ conditions, conditions ≠ [] ∧ conditions.Sublist (p.joins.toList.map Join.condition) ∧
      e = .disconnected conditions := by
  obtain ⟨left, ne, sublist, rfl⟩ := exists_of_greedyFrom_eq_error h
  refine ⟨_, ?_, filterMap_condition?_range p ▸ sublist.filterMap p.condition?, rfl⟩
  obtain ⟨i, mem⟩ := List.exists_mem_of_ne_nil left ne
  obtain ⟨j, found⟩ := exists_join (List.mem_range.1 (sublist.subset mem))
  apply List.ne_nil_of_mem
  apply List.mem_filterMap.2
  exact ⟨i, mem, by rw [condition?, found, Option.map_some]⟩

/-- The exhaustive search fails on too many joins, or without a plan of all of them. -/
theorem eq_of_exhaustive_eq_error (h : p.exhaustive = .error e) :
    e = .infeasible p.size ∨
      IndexSet.capacity < p.size ∧ e = .tooManyJoins p.size IndexSet.capacity := by
  rw [exhaustive] at h
  split at h
  · exact absurd h (by simp)
  · rw [bind_eq_error_iff, planTable] at h
    rcases h with tooMany | ⟨table, -, missing⟩
    · split at tooMany
      · exact absurd tooMany (by simp)
      · next large =>
        exact .inr ⟨not_le.1 large, (Except.error.inj tooMany).symm⟩
    · split at missing
      · exact absurd missing (by simp)
      · exact .inl (Except.error.inj missing).symm

end LeftDeep.Problem
