import LeftDeep.Proofs.Double.Order
import LeftDeep.Proofs.IndexSet.Enumeration
import LeftDeep.Proofs.Search.Replay
import LeftDeep.Search.Exhaustive

/-!
# The table of the exhaustive search

The table is filled in place, one set of joins after another. A set is entered once, after all
smaller sets, and its entry is computed from smaller sets only. So whatever is read is final, and
the finished table satisfies the equations by which it was filled.

## Main definitions

* `Problem.IsJoinSet`: the sets that the table may hold.
* `Problem.IsPlanTable`: a table that satisfies the equations.
* `FirstLeast`: the first of the cheapest plans of a list.

## Main statements

* `Problem.exists_planTable`: the search fills such a table.
* `foldl_improve_eq_some`, `foldl_improve_eq_none_iff`: which plan the running minimum keeps.
-/

namespace LeftDeep

open Double

/-! ## The running minimum -/

/-- The first of the cheapest plans of a list. Its cost is below the infinity. -/
structure FirstLeast (plans : List PartialPlan) (best : PartialPlan) : Prop where
  below : best.cost < infinity
  split : ∃ before after, plans = before ++ best :: after ∧
    (∀ plan ∈ before, best.cost < plan.cost) ∧ ∀ plan ∈ after, best.cost ≤ plan.cost

namespace FirstLeast

variable {plans : List PartialPlan} {best last : PartialPlan}

theorem le (h : FirstLeast plans best) : ∀ plan ∈ plans, best.cost ≤ plan.cost := by
  obtain ⟨before, after, rfl, less, notMore⟩ := h.split
  intro plan mem
  rcases List.mem_append.1 mem with mem | mem
  · exact le_of_lt (less plan mem)
  · rcases List.mem_cons.1 mem with rfl | mem
    · exact le_refl (lt_iff.1 h.below).1
    · exact notMore plan mem

theorem keep (h : FirstLeast plans best) (le : best.cost ≤ last.cost) :
    FirstLeast (plans ++ [last]) best := by
  obtain ⟨below, before, after, rfl, less, notMore⟩ := h
  refine ⟨below, before, after ++ [last], by simp, less, ?_⟩
  intro plan mem
  rcases List.mem_append.1 mem with mem | mem
  · exact notMore plan mem
  · obtain rfl := List.mem_singleton.1 mem
    exact le

theorem replace (less : ∀ plan ∈ plans, last.cost < plan.cost) (below : last.cost < infinity) :
    FirstLeast (plans ++ [last]) last :=
  ⟨below, plans, [], rfl, less, by simp⟩

/-- Of the plans that ascending indexes offer, the first of the cheapest belongs to the least
index. -/
theorem exists_index {indexes : List ℕ} {f : ℕ → Option PartialPlan}
    (h : FirstLeast (indexes.filterMap f) best) (ascending : indexes.Pairwise (· < ·)) :
    ∃ i ∈ indexes, f i = some best ∧ ∀ i' ∈ indexes, ∀ plan, f i' = some plan →
      best.cost ≤ plan.cost ∧ (plan.cost ≤ best.cost → i ≤ i') := by
  have le := h.le
  obtain ⟨before, after, eq, less, -⟩ := h.split
  obtain ⟨front, back, rfl, rfl, backEq⟩ := List.filterMap_eq_append_iff.1 eq
  obtain ⟨skipped, i, rest, rfl, none, found, rfl⟩ := List.filterMap_eq_cons_iff.1 backEq
  refine ⟨i, by simp, found, ?_⟩
  intro i' mem' plan found'
  have offered := List.mem_filterMap.2 ⟨i', mem', found'⟩
  constructor
  · exact le plan offered
  · -- An index before `i` offers a dearer plan or none, one after it is larger.
    intro ge
    rcases List.mem_append.1 mem' with mem' | mem'
    · exact absurd ge (not_le_of_lt (less plan (List.mem_filterMap.2 ⟨i', mem', found'⟩)))
    · rcases List.mem_append.1 mem' with mem' | mem'
      · rw [none i' mem'] at found'
        exact absurd found' (by simp)
      · rcases List.mem_cons.1 mem' with rfl | mem'
        · exact le_rfl
        · have tail := (List.pairwise_append.1 (List.pairwise_append.1 ascending).2.1).2.1
          exact ((List.pairwise_cons.1 tail).1 i' mem').le

end FirstLeast

namespace Problem

section Improve

variable {plans : List PartialPlan} {best : PartialPlan}

theorem ceiling_none : ceiling none = infinity := by
  rw [infinity]
  rfl

theorem foldl_improve_concat (last : PartialPlan) :
    (plans ++ [last]).foldl improve none = improve (plans.foldl improve none) last := by
  simp

theorem mem_of_foldl_improve (h : plans.foldl improve none = some best) : best ∈ plans := by
  induction plans using List.reverseRecOn generalizing best with
  | nil => exact absurd h (by simp)
  | append_singleton plans last ih =>
    rw [foldl_improve_concat, improve] at h
    split at h
    · exact List.mem_append_left _ (ih h)
    · obtain rfl := Option.some.inj h
      exact List.mem_append_right _ (List.mem_singleton.2 rfl)

theorem infinity_le_of_foldl_improve (h : plans.foldl improve none = none) :
    ∀ plan ∈ plans, infinity ≤ plan.cost := by
  induction plans using List.reverseRecOn with
  | nil => simp
  | append_singleton plans last ih =>
    rw [foldl_improve_concat, improve] at h
    split at h
    · next le =>
      rw [h, ceiling_none] at le
      intro plan mem
      rcases List.mem_append.1 mem with mem | mem
      · exact ih h plan mem
      · obtain rfl := List.mem_singleton.1 mem
        exact le
    · exact absurd h (by simp)

/-- If all costs are numbers, the running minimum is the first of the cheapest plans. -/
theorem firstLeast_of_foldl_improve (numbers : ∀ plan ∈ plans, plan.cost.isNaN = false)
    (h : plans.foldl improve none = some best) : FirstLeast plans best := by
  induction plans using List.reverseRecOn generalizing best with
  | nil => exact absurd h (by simp)
  | append_singleton plans last ih =>
    have numbers' : ∀ plan ∈ plans, plan.cost.isNaN = false := by
      intro plan mem
      exact numbers plan (List.mem_append_left _ mem)
    have number : last.cost.isNaN = false := numbers last (by simp)
    rw [foldl_improve_concat, improve] at h
    cases prior : plans.foldl improve none with
    | none =>
      have infinite := infinity_le_of_foldl_improve prior
      rw [prior, ceiling_none] at h
      split at h
      · exact absurd h (by simp)
      · next below =>
        obtain rfl := Option.some.inj h
        have below : last.cost < infinity := (not_le_iff isNaN_infinity number).1 below
        refine FirstLeast.replace ?_ below
        intro plan mem
        exact lt_of_lt_of_le below (infinite plan mem)
    | some plan =>
      have least := ih numbers' prior
      rw [prior] at h
      split at h
      · next le =>
        obtain rfl := Option.some.inj h
        exact least.keep le
      · next less =>
        obtain rfl := Option.some.inj h
        have less : last.cost < plan.cost := (not_le_iff (lt_iff.1 least.below).1 number).1 less
        refine FirstLeast.replace ?_ (lt_of_lt_of_le less (le_of_lt least.below))
        intro other mem
        exact lt_of_lt_of_le less (least.le other mem)

end Improve

/-! ## Filling the table -/

variable {p : Problem} {table : PlanTable} {set other : IndexSet} {plan : PartialPlan}

/-- The sets that can have a plan: those of at least one join, and of joins only. -/
structure IsJoinSet (p : Problem) (set : IndexSet) : Prop where
  nonempty : set.isEmpty = false
  lt_size : ∀ i, set.contains i = true → i < p.size

/-- The sets of joins in the order in which the search enters them. -/
def joinSets (p : Problem) : List IndexSet :=
  (List.range' 1 p.size).flatMap fun size => (Subsets.within p.size size).toList

theorem size_pos_iff (set : IndexSet) : 0 < set.size ↔ set.isEmpty = false := by
  rw [IndexSet.size_eq_length, List.length_pos_iff_exists_mem, IndexSet.isEmpty_eq_false_iff]
  simp only [IndexSet.mem_toList]

theorem size_le (n : ℕ) (h : ∀ i, set.contains i = true → i < n) : set.size ≤ n := by
  have sub : set.toList ⊆ List.range n := by
    intro i mem
    exact List.mem_range.2 (h i (IndexSet.mem_toList.1 mem))
  have le := (set.nodup_toList.subperm sub).length_le
  rwa [List.length_range, ← IndexSet.size_eq_length] at le

theorem mem_joinSets (h : p.size ≤ IndexSet.capacity) : set ∈ p.joinSets ↔ p.IsJoinSet set := by
  simp only [joinSets, List.mem_flatMap, Subsets.mem_toList_within h, List.mem_range'_1]
  constructor
  · rintro ⟨k, ⟨pos, -⟩, lt, rfl⟩
    exact ⟨(size_pos_iff set).1 pos, lt⟩
  · rintro ⟨nonempty, lt⟩
    have pos := (size_pos_iff set).2 nonempty
    have le := size_le p.size lt
    exact ⟨set.size, ⟨pos, by omega⟩, lt, rfl⟩

/-- No set is entered twice, and none after a larger one. -/
theorem pairwise_joinSets (h : p.size ≤ IndexSet.capacity) :
    p.joinSets.Pairwise fun first second => first ≠ second ∧ first.size ≤ second.size := by
  rw [joinSets, List.pairwise_flatMap]
  constructor
  · intro k _
    refine (Subsets.nodup_toList_within h).imp_of_mem ?_
    intro first second mem mem' ne
    rw [Subsets.mem_toList_within h] at mem mem'
    exact ⟨ne, (mem.2.trans mem'.2.symm).le⟩
  · refine (List.pairwise_lt_range').imp ?_
    intro k k' lt first mem second mem'
    rw [Subsets.mem_toList_within h] at mem mem'
    have less : first.size < second.size := by omega
    refine ⟨?_, less.le⟩
    rintro rfl
    exact lt_irrefl _ less

theorem foldl_enterSize (p : Problem) (table : PlanTable) :
    (List.range' 1 p.size).foldl p.enterSize table = p.joinSets.foldl p.enter table := by
  rw [joinSets, List.foldl_flatMap]
  congr 1
  funext table size
  exact Subsets.foldl_eq_foldl_toList _ _ _

/-- Entering a set changes nothing else. -/
theorem find?_enter_of_ne (h : set ≠ other) :
    (p.enter table set).find? other = table.find? other := by
  rw [enter]
  split
  · rfl
  · rw [PlanTable.find?_insert, if_neg h]

theorem find?_enter_self (h : table.find? set = none) :
    (p.enter table set).find? set = p.bestPlan? table set := by
  rw [enter]
  split
  · next none => rw [h, none]
  · next plan some => rw [PlanTable.find?_insert, if_pos rfl, some]

/-- The best plan for a set is computed from the entries of the set without one member. -/
theorem bestPlan?_congr {table' : PlanTable}
    (h : ∀ i, set.contains i = true → table.find? (set.erase i) = table'.find? (set.erase i)) :
    p.bestPlan? table set = p.bestPlan? table' set := by
  rw [bestPlan?, bestPlan?]
  congr 1
  apply List.filterMap_congr
  intro i mem
  rw [candidate?, candidate?, priorPlan?, priorPlan?, h i (IndexSet.mem_toList.1 mem)]

/-- Sets entered one after another, none twice and none after a larger one, have the best plans
that the finished table offers; other entries stay. -/
theorem find?_foldl_enter {sets : List IndexSet}
    (order : sets.Pairwise fun first second => first ≠ second ∧ first.size ≤ second.size)
    (fresh : ∀ set ∈ sets, table.find? set = none) (set : IndexSet) :
    (sets.foldl p.enter table).find? set =
      if set ∈ sets then p.bestPlan? (sets.foldl p.enter table) set else table.find? set := by
  induction sets generalizing table set with
  | nil => simp
  | cons first rest ih =>
    obtain ⟨later, order⟩ := List.pairwise_cons.1 order
    have freshFirst : table.find? first = none := fresh first List.mem_cons_self
    have freshRest : ∀ set ∈ rest, (p.enter table first).find? set = none := by
      intro set mem
      rw [find?_enter_of_ne (later set mem).1]
      exact fresh set (List.mem_cons_of_mem _ mem)
    have rest_eq := ih order freshRest
    rw [List.foldl_cons]
    by_cases mem : set ∈ rest
    · rw [rest_eq, if_pos mem, if_pos (List.mem_cons_of_mem _ mem)]
    · rw [rest_eq, if_neg mem]
      by_cases eq : first = set
      · subst eq
        -- What the first set is computed from is smaller, so it is not entered later.
        rw [find?_enter_self freshFirst, if_pos List.mem_cons_self]
        apply bestPlan?_congr
        intro i contains
        have lt := IndexSet.size_erase_lt contains
        have ne : first ≠ first.erase i := by
          intro eq
          rw [← eq] at lt
          exact lt_irrefl _ lt
        have notLater : first.erase i ∉ rest := by
          intro mem
          have le := (later _ mem).2
          omega
        rw [rest_eq, if_neg notLater, find?_enter_of_ne ne]
      · have notMem : set ∉ first :: rest := by
          simp [mem, Ne.symm eq]
        rw [find?_enter_of_ne eq, if_neg notMem]

/-- A table of best plans: a set of joins has the best plan that the entries of smaller sets offer,
and nothing else has an entry. -/
structure IsPlanTable (p : Problem) (table : PlanTable) : Prop where
  find?_eq : ∀ {set}, p.IsJoinSet set → table.find? set = p.bestPlan? table set
  find?_eq_none : ∀ {set}, ¬p.IsJoinSet set → table.find? set = none

/-- The exhaustive search fills a table of best plans. -/
theorem exists_planTable (h : p.size ≤ IndexSet.capacity) :
    ∃ table, p.planTable = .ok table ∧ p.IsPlanTable table := by
  have fresh : ∀ set ∈ p.joinSets, (∅ : PlanTable).find? set = none := by
    intro set _
    exact PlanTable.find?_empty set
  have entries := find?_foldl_enter (p := p) (pairwise_joinSets h) fresh
  refine ⟨p.joinSets.foldl p.enter ∅, ?_, ?_, ?_⟩
  · rw [planTable, if_pos h, foldl_enterSize]
  · intro set joinSet
    rw [entries, if_pos ((mem_joinSets h).2 joinSet)]
  · intro set notJoinSet
    have notMem : set ∉ p.joinSets := by
      intro mem
      exact notJoinSet ((mem_joinSets h).1 mem)
    rw [entries, if_neg notMem]
    exact PlanTable.find?_empty set

theorem isPlanTable_of_planTable (h : p.planTable = .ok table) : p.IsPlanTable table := by
  have le : p.size ≤ IndexSet.capacity := by
    by_contra lt
    rw [planTable, if_neg lt] at h
    exact absurd h (by simp)
  obtain ⟨table', eq, isPlanTable⟩ := exists_planTable le
  obtain rfl := Except.ok.inj (h.symm.trans eq)
  exact isPlanTable

end Problem
end LeftDeep
