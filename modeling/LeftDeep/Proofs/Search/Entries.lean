import LeftDeep.Proofs.Search.Table

/-!
# The entries of the table

An entry extends the entry of a smaller set, so what a step preserves holds of all entries. An
entry places the members of its set, can be replayed, and has entries as its prefixes. Among the
ways to extend smaller entries it is the cheapest.

## Main definitions

* `Problem.PriorPlan`: the plan that the last join of a set is appended to.
* `Problem.Candidate`: a way to append the last join of a set.
* `Problem.Dropped`: a way that the search drops for its cost.
* `Problem.MeetsNumbers`: the costs that the search meets are numbers.

## Main statements

* `Problem.IsPlanTable.induction`: induction on the entries.
* `Problem.IsPlanTable.perm`, `Problem.IsPlanTable.replay`: what an entry places.
* `Problem.IsPlanTable.of_prefix`: the prefixes of an entry are entries.
* `Problem.IsPlanTable.least`: an entry is the cheapest candidate.
-/

namespace LeftDeep.Problem

open Double

variable {p : Problem} {table : PlanTable} {set : IndexSet} {plan prior : PartialPlan} {last : ℕ}
  {s : Step}

/-- The plan that the last join of a set is appended to: the empty one if there are no other joins,
and else the entry of the others. -/
def PriorPlan (table : PlanTable) (set : IndexSet) (last : ℕ) (prior : PartialPlan) : Prop :=
  ((set.erase last).isEmpty = true ∧ prior = ∅) ∨ table.find? (set.erase last) = some prior

/-- A way to append the last join of a set, at a cost below the infinity. -/
structure Candidate (p : Problem) (table : PlanTable) (set : IndexSet) (last : ℕ)
    (prior : PartialPlan) (s : Step) : Prop where
  contains : set.contains last = true
  priorPlan : PriorPlan table set last prior
  step : p.nextStep? prior last = some s
  below : s.cost < infinity

/-- A way to append the last join of a set that the search meets but drops, since its cost is the
infinity. -/
structure Dropped (p : Problem) (table : PlanTable) (set : IndexSet) (last : ℕ)
    (prior : PartialPlan) (s : Step) : Prop where
  joinSet : p.IsJoinSet set
  contains : set.contains last = true
  priorPlan : PriorPlan table set last prior
  step : p.nextStep? prior last = some s
  infinite : infinity ≤ s.cost

/-- The costs that the search meets are numbers. -/
def MeetsNumbers (p : Problem) (table : PlanTable) : Prop :=
  ∀ set last prior s, p.IsJoinSet set → set.contains last = true →
    PriorPlan table set last prior → p.nextStep? prior last = some s → s.cost.isNaN = false

theorem candidate?_eq_some_iff {last : ℕ} :
    p.candidate? table set last = some plan ↔
      ∃ prior s, priorPlan? table set last = some prior ∧ p.nextStep? prior last = some s ∧
        plan = prior.extend s := by
  simp only [candidate?, bind, Option.bind_eq_some_iff, Option.some.injEq, @eq_comm _ plan,
    exists_and_left]

theorem priorPlan?_of_nonempty {last : ℕ} (h : (set.erase last).isEmpty = false) :
    priorPlan? table set last = table.find? (set.erase last) := by
  simp [priorPlan?, h]

theorem priorPlan?_of_isEmpty {last : ℕ} (h : (set.erase last).isEmpty = true) :
    priorPlan? table set last = some ∅ := by
  simp [priorPlan?, h]

namespace IsPlanTable

variable (isPlanTable : p.IsPlanTable table)

include isPlanTable

theorem isJoinSet (h : table.find? set = some plan) : p.IsJoinSet set := by
  by_contra not
  rw [isPlanTable.find?_eq_none not] at h
  exact absurd h (by simp)

/-- An entry is a candidate for its set. -/
theorem exists_candidate (h : table.find? set = some plan) :
    ∃ last ∈ set.toList, p.candidate? table set last = some plan := by
  rw [isPlanTable.find?_eq (isPlanTable.isJoinSet h), bestPlan?] at h
  exact List.mem_filterMap.1 (mem_of_foldl_improve h)

/-- What holds of the empty plan and of every candidate that extends a plan of which it holds,
holds of every entry. -/
theorem induction {motive : IndexSet → PartialPlan → Prop}
    (single : ∀ set last s, p.IsJoinSet set → set.contains last = true →
      (set.erase last).isEmpty = true → p.nextStep? ∅ last = some s →
      motive set (PartialPlan.extend ∅ s))
    (extend : ∀ set last prior s, p.IsJoinSet set → set.contains last = true →
      table.find? (set.erase last) = some prior → motive (set.erase last) prior →
      p.nextStep? prior last = some s → motive set (prior.extend s))
    (h : table.find? set = some plan) : motive set plan := by
  obtain ⟨n, hn⟩ : ∃ n, n = set.size := ⟨_, rfl⟩
  induction n using Nat.strong_induction_on generalizing set plan with
  | _ n ih =>
    have joinSet := isPlanTable.isJoinSet h
    obtain ⟨last, mem, candidate⟩ := isPlanTable.exists_candidate h
    have contains := IndexSet.mem_toList.1 mem
    obtain ⟨prior, s, found, step, rfl⟩ := candidate?_eq_some_iff.1 candidate
    cases empty : (set.erase last).isEmpty with
    | true =>
      rw [priorPlan?_of_isEmpty empty] at found
      obtain rfl := Option.some.inj found
      exact single set last s joinSet contains empty step
    | false =>
      rw [priorPlan?_of_nonempty empty] at found
      have smaller := hn ▸ IndexSet.size_erase_lt contains
      exact extend set last prior s joinSet contains found (ih _ smaller found rfl) step

/-- An entry places the members of its set. -/
theorem perm (h : table.find? set = some plan) : plan.joins.Perm set.toList := by
  refine isPlanTable.induction (motive := fun set plan => plan.joins.Perm set.toList) ?_ ?_ h
  · intro set last s _ contains empty step
    have perm := IndexSet.toList_erase_concat_perm contains
    rw [(IndexSet.toList_eq_nil_iff _).2 empty] at perm
    rw [PartialPlan.joins_extend, join_of_nextStep? step]
    exact perm
  · intro set last prior s _ contains _ placed step
    rw [PartialPlan.joins_extend, join_of_nextStep? step]
    exact (placed.append_right [last]).trans (IndexSet.toList_erase_concat_perm contains)

/-- An entry is rebuilt from the order of its joins. -/
theorem replay (h : table.find? set = some plan) : p.replay? ∅ plan.joins = some plan := by
  refine isPlanTable.induction (motive := fun _ plan => p.replay? ∅ plan.joins = some plan) ?_ ?_ h
  · intro set last s _ _ _ step
    rw [PartialPlan.joins_extend, join_of_nextStep? step, replay?_concat_eq_some_iff]
    exact ⟨∅, s, rfl, step, rfl⟩
  · intro set last prior s _ _ _ replayed step
    rw [PartialPlan.joins_extend, join_of_nextStep? step, replay?_concat_eq_some_iff]
    exact ⟨prior, s, replayed, step, rfl⟩

theorem priorPlan?_eq_some_iff :
    priorPlan? table set last = some prior ↔ PriorPlan table set last prior := by
  rw [PriorPlan]
  cases empty : (set.erase last).isEmpty with
  | true =>
    have notJoinSet : ¬p.IsJoinSet (set.erase last) := by
      intro joinSet
      rw [joinSet.nonempty] at empty
      exact absurd empty (by simp)
    rw [priorPlan?_of_isEmpty empty, isPlanTable.find?_eq_none notJoinSet]
    simp [eq_comm]
  | false =>
    rw [priorPlan?_of_nonempty empty]
    simp

theorem candidate?_eq_some_iff :
    p.candidate? table set last = some plan ↔
      ∃ prior s, PriorPlan table set last prior ∧ p.nextStep? prior last = some s ∧
        plan = prior.extend s := by
  simp only [Problem.candidate?_eq_some_iff, isPlanTable.priorPlan?_eq_some_iff]

/-- If the last join of a set of joins can be appended, the set has an entry or the step is
dropped. -/
theorem isSome_or_dropped (joinSet : p.IsJoinSet set) (contains : set.contains last = true)
    (priorPlan : PriorPlan table set last prior) (step : p.nextStep? prior last = some s) :
    (table.find? set).isSome = true ∨ p.Dropped table set last prior s := by
  cases found : table.find? set with
  | some plan => exact .inl rfl
  | none =>
    right
    rw [isPlanTable.find?_eq joinSet, bestPlan?] at found
    have candidate : p.candidate? table set last = some (prior.extend s) :=
      isPlanTable.candidate?_eq_some_iff.2 ⟨prior, s, priorPlan, step, rfl⟩
    have mem := List.mem_filterMap.2 ⟨last, IndexSet.mem_toList.2 contains, candidate⟩
    have infinite := infinity_le_of_foldl_improve found _ mem
    rw [PartialPlan.cost_extend] at infinite
    exact ⟨joinSet, contains, priorPlan, step, infinite⟩

/-- A set of joins with a candidate has an entry. -/
theorem isSome_of_candidate (joinSet : p.IsJoinSet set) (h : p.Candidate table set last prior s) :
    (table.find? set).isSome = true := by
  rcases isPlanTable.isSome_or_dropped joinSet h.contains h.priorPlan h.step with some | dropped
  · exact some
  · exact absurd dropped.infinite (not_le_of_lt h.below)

/-- A prefix of an entry is the entry of the joins it places. -/
theorem of_prefix (h : table.find? set = some plan) {k : ℕ} (pos : 0 < k)
    (lt : k < plan.joins.length) :
    ∃ part, table.find? (IndexSet.ofList (plan.joins.take k)) = some part ∧
      part.steps = plan.steps.take k := by
  refine isPlanTable.induction (motive := fun _ plan => k < plan.joins.length →
    ∃ part, table.find? (IndexSet.ofList (plan.joins.take k)) = some part ∧
      part.steps = plan.steps.take k) ?_ ?_ h lt
  · intro set last s _ _ _ _ lt
    have one : (PartialPlan.extend ∅ s).joins.length = 1 := rfl
    omega
  · intro set last prior s _ _ found ih _ lt
    have lengths : prior.joins.length = prior.steps.length := List.length_map _
    rw [PartialPlan.joins_extend, List.length_append, List.length_singleton] at lt
    have takeJoins : (prior.extend s).joins.take k = prior.joins.take k := by
      rw [PartialPlan.joins_extend, List.take_append_of_le_length (by omega)]
    have takeSteps : (prior.extend s).steps.take k = prior.steps.take k := by
      rw [PartialPlan.steps_extend, List.take_append_of_le_length (by omega)]
    rw [takeJoins, takeSteps]
    by_cases whole : k = prior.joins.length
    · refine ⟨prior, ?_, ?_⟩
      · rw [whole, List.take_length, IndexSet.ofList_eq_of_perm (isPlanTable.perm found), found]
      · rw [whole, lengths, List.take_length]
    · apply ih
      omega

/-- If the costs of its candidates are numbers, an entry is the first of the cheapest. -/
theorem firstLeast (h : table.find? set = some plan)
    (numbers : ∀ last prior s, set.contains last = true → PriorPlan table set last prior →
      p.nextStep? prior last = some s → s.cost.isNaN = false) :
    FirstLeast (set.toList.filterMap (p.candidate? table set)) plan := by
  rw [isPlanTable.find?_eq (isPlanTable.isJoinSet h), bestPlan?] at h
  refine firstLeast_of_foldl_improve ?_ h
  intro plan offered
  obtain ⟨last, mem, candidate⟩ := List.mem_filterMap.1 offered
  obtain ⟨prior, s, priorPlan, step, eq⟩ := isPlanTable.candidate?_eq_some_iff.1 candidate
  rw [eq]
  exact numbers last prior s (IndexSet.mem_toList.1 mem) priorPlan step

/-- If the search meets numbers only, an entry is the cheapest candidate, and of equally cheap ones
that with the least last join. -/
theorem least (numbers : p.MeetsNumbers table) (h : table.find? set = some plan) :
    ∃ last prior s, p.Candidate table set last prior s ∧ plan = prior.extend s ∧
      ∀ last' prior' s', p.Candidate table set last' prior' s' →
        s.cost ≤ s'.cost ∧ (s'.cost ≤ s.cost → last ≤ last') := by
  have first := isPlanTable.firstLeast h fun last prior s =>
    numbers set last prior s (isPlanTable.isJoinSet h)
  obtain ⟨last, mem, candidate, order⟩ := first.exists_index set.pairwise_toList
  obtain ⟨prior, s, priorPlan, step, rfl⟩ := isPlanTable.candidate?_eq_some_iff.1 candidate
  refine ⟨last, prior, s, ⟨IndexSet.mem_toList.1 mem, priorPlan, step, first.below⟩, rfl, ?_⟩
  intro last' prior' s' candidate'
  exact order last' (IndexSet.mem_toList.2 candidate'.contains) (prior'.extend s')
    (isPlanTable.candidate?_eq_some_iff.2
      ⟨prior', s', candidate'.priorPlan, candidate'.step, rfl⟩)

end IsPlanTable

end LeftDeep.Problem
