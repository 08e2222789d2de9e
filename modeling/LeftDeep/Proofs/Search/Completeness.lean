import LeftDeep.Proofs.Search.Entries

/-!
# Completeness of the exhaustive search

The exhaustive search keeps one order of each set of joins and extends only that one. Nothing is
lost by it: whether a join can be appended depends on the joins placed and not on their order, so
a set has an entry as soon as some order of it is free of cross products.

## Main definitions

* `Problem.StepsBelowInfinity`: the costs along orders free of cross products are below the
  infinity.
* `Problem.DropsNothing`: the search drops no step for its cost.

## Main statements

* `Problem.exhaustive_or_exists_dropped`: the search finds a plan if there is an order, unless it
  drops a step of it.
* `Problem.exhaustive_complete`: which sets have an entry, and when the search finds a plan.
-/

namespace LeftDeep.Problem

open Double

variable {p : Problem} {table : PlanTable} {set : IndexSet} {order : List ℕ}

/-- No step along an order that is free of cross products costs as much as the infinity, or has a
cost that is no number. -/
def StepsBelowInfinity (p : Problem) : Prop :=
  ∀ order last plan s, (order ++ [last]).Nodup → p.replay? ∅ order = some plan →
    p.nextStep? plan last = some s → s.cost < infinity

/-- The exhaustive search drops no step, since no cost that it meets is the infinity. -/
def DropsNothing (p : Problem) : Prop :=
  ∀ table set last prior s, p.planTable = .ok table → ¬p.Dropped table set last prior s

theorem StepsAreFinite.stepsBelowInfinity (h : p.StepsAreFinite) : p.StepsBelowInfinity := by
  intro order last plan s nodup replayed step
  exact lt_infinity_of_isFinite (h order last plan s nodup replayed step)

/-- Some order of a set's members is free of cross products. -/
def HasCrossProductFreeOrder (p : Problem) (set : IndexSet) : Prop :=
  ∃ order, order.Perm set.toList ∧ p.CrossProductFree order

/-- The last join of an order free of cross products can be appended to any plan of the others. -/
theorem isSome_nextStep?_of_crossProductFree {plan : PartialPlan} {last : ℕ}
    (h : p.CrossProductFree (order ++ [last])) (perm : plan.joins.Perm order) :
    (p.nextStep? plan last).isSome = true := by
  obtain ⟨whole, eq⟩ := Option.isSome_iff_exists.1 h
  obtain ⟨prior, s, replayed, step, -⟩ := replay?_concat_eq_some_iff.1 eq
  have same : plan.SamePlaced prior := by
    apply PartialPlan.samePlaced_of_perm
    rw [joins_of_replay?_empty replayed]
    exact perm
  rw [isSome_nextStep?_congr same, step]
  rfl

/-- The order of a set's members but the last. -/
theorem perm_erase_of_concat {last : ℕ} (perm : (order ++ [last]).Perm set.toList) :
    set.contains last = true ∧ order.Perm (set.erase last).toList := by
  have contains : set.contains last = true := by
    rw [← IndexSet.mem_toList, ← perm.mem_iff]
    simp
  have whole := perm.trans (IndexSet.toList_erase_concat_perm contains).symm
  exact ⟨contains, (List.perm_append_right_iff [last]).1 whole⟩

namespace IsPlanTable

variable (isPlanTable : p.IsPlanTable table)

include isPlanTable

/-- An entry is an order free of cross products. -/
theorem crossProductFree {plan : PartialPlan} (h : table.find? set = some plan) :
    p.CrossProductFree plan.joins := by
  rw [CrossProductFree, isPlanTable.replay h]
  rfl

/-- The step that appends a join to an entry is one along an order free of cross products. -/
theorem below_of_entry (below : p.StepsBelowInfinity) {prior : PartialPlan} {last : ℕ} {s : Step}
    (contains : set.contains last = true) (found : table.find? (set.erase last) = some prior)
    (step : p.nextStep? prior last = some s) : s.cost < infinity := by
  have perm := (isPlanTable.perm found).append_right [last]
  have nodup := (perm.trans (IndexSet.toList_erase_concat_perm contains)).symm.nodup
    set.nodup_toList
  exact below prior.joins last prior s nodup (isPlanTable.replay found) step

/-- A set with an order free of cross products has an entry, unless the search drops a step on the
way: one that appends the next join of the order to the plan for the joins before it. -/
theorem isSome_or_exists_dropped (nonempty : set.isEmpty = false) (perm : order.Perm set.toList)
    (free : p.CrossProductFree order) :
    (table.find? set).isSome = true ∨ ∃ front last prior s, front ++ [last] <+: order ∧
      p.Dropped table (IndexSet.ofList (front ++ [last])) last prior s := by
  induction order using List.reverseRecOn generalizing set with
  | nil =>
    have empty := (IndexSet.toList_eq_nil_iff set).1 perm.nil_eq.symm
    rw [nonempty] at empty
    exact absurd empty (by simp)
  | append_singleton order last ih =>
    obtain ⟨contains, rest⟩ := perm_erase_of_concat perm
    have joinSet : p.IsJoinSet set := by
      obtain ⟨plan, replayed⟩ := Option.isSome_iff_exists.1 free
      refine ⟨nonempty, ?_⟩
      intro i mem
      exact lt_size_of_replay? replayed i (perm.mem_iff.2 (IndexSet.mem_toList.2 mem))
    -- Whatever plan the last join is appended to, the step is kept or dropped.
    have append : ∀ prior, prior.joins.Perm order → PriorPlan table set last prior →
        (table.find? set).isSome = true ∨ ∃ front last' prior s,
          front ++ [last'] <+: order ++ [last] ∧
          p.Dropped table (IndexSet.ofList (front ++ [last'])) last' prior s := by
      intro prior placed priorPlan
      have some := isSome_nextStep?_of_crossProductFree free placed
      obtain ⟨s, step⟩ := Option.isSome_iff_exists.1 some
      refine (isPlanTable.isSome_or_dropped joinSet contains priorPlan step).imp_right ?_
      intro dropped
      rw [← IndexSet.ofList_eq_of_perm perm] at dropped
      exact ⟨order, last, prior, s, List.prefix_rfl, dropped⟩
    cases empty : (set.erase last).isEmpty with
    | true =>
      have nil : order = [] := by
        rw [(IndexSet.toList_eq_nil_iff _).2 empty] at rest
        exact rest.eq_nil
      subst nil
      exact append ∅ (List.Perm.refl []) (.inl ⟨empty, rfl⟩)
    | false =>
      rcases ih empty rest free.of_append with some | ⟨front, last', prior, s, part, dropped⟩
      · obtain ⟨prior, found⟩ := Option.isSome_iff_exists.1 some
        exact append prior ((isPlanTable.perm found).trans rest.symm) (.inr found)
      · exact .inr ⟨front, last', prior, s, part.trans (List.prefix_append order [last]), dropped⟩

/-- If the costs along orders free of cross products are below the infinity, no step is dropped. -/
theorem not_dropped (below : p.StepsBelowInfinity) {prior : PartialPlan} {last : ℕ} {s : Step} :
    ¬p.Dropped table set last prior s := by
  intro dropped
  refine absurd dropped.infinite (not_le_of_lt ?_)
  rcases dropped.priorPlan with ⟨-, rfl⟩ | found
  · exact below [] last ∅ s (List.nodup_singleton last) rfl dropped.step
  · exact isPlanTable.below_of_entry below dropped.contains found dropped.step

/-- A set with an order free of cross products has an entry, if the costs along such orders are
below the infinity. -/
theorem isSome_of_crossProductFree (below : p.StepsBelowInfinity) (nonempty : set.isEmpty = false)
    (perm : order.Perm set.toList) (free : p.CrossProductFree order) :
    (table.find? set).isSome = true := by
  rcases isPlanTable.isSome_or_exists_dropped nonempty perm free with
    some | ⟨front, last, prior, s, -, dropped⟩
  · exact some
  · exact absurd dropped (isPlanTable.not_dropped below)

/-- A set has an entry if and only if it is not empty and has an order free of cross products. -/
theorem isSome_iff (below : p.StepsBelowInfinity) (set : IndexSet) :
    (table.find? set).isSome = true ↔ set.isEmpty = false ∧ p.HasCrossProductFreeOrder set := by
  constructor
  · intro some
    obtain ⟨plan, found⟩ := Option.isSome_iff_exists.1 some
    exact ⟨(isPlanTable.isJoinSet found).nonempty, plan.joins, isPlanTable.perm found,
      isPlanTable.crossProductFree found⟩
  · rintro ⟨nonempty, order, perm, free⟩
    exact isPlanTable.isSome_of_crossProductFree below nonempty perm free

end IsPlanTable

/-! ## The search -/

theorem StepsBelowInfinity.dropsNothing (h : p.StepsBelowInfinity) : p.DropsNothing := by
  intro table set last prior s eq
  exact (isPlanTable_of_planTable eq).not_dropped h

/-- The set of all joins. -/
def allJoins (p : Problem) : IndexSet := ⟨IndexSet.maskBelow p.size⟩

theorem toList_allJoins (h : p.size ≤ IndexSet.capacity) :
    p.allJoins.toList.Perm (List.range p.size) := by
  apply (List.perm_ext_iff_of_nodup (IndexSet.nodup_toList _) List.nodup_range).2
  intro i
  rw [IndexSet.mem_toList, allJoins, IndexSet.contains_maskBelow h, List.mem_range]
  simp

theorem isEmpty_allJoins (h : p.size ≤ IndexSet.capacity) (pos : 0 < p.size) :
    p.allJoins.isEmpty = false := by
  rw [IndexSet.isEmpty_eq_false_iff]
  refine ⟨0, ?_⟩
  rw [allJoins, IndexSet.contains_maskBelow h]
  exact decide_eq_true pos

theorem ne_nil_of_perm (pos : 0 < p.size) (perm : order.Perm (List.range p.size)) : order ≠ [] := by
  apply List.ne_nil_of_length_pos
  rw [perm.length_eq, List.length_range]
  exact pos

theorem exhaustive_of_size_eq_zero (zero : p.size = 0) : p.exhaustive = .ok ∅ := by
  rw [exhaustive, if_pos zero]

/-- The search returns the entry of all joins. -/
theorem exhaustive_eq_ok (pos : 0 < p.size) (h : p.planTable = .ok table) {plan : PartialPlan}
    (found : table.find? p.allJoins = some plan) : p.exhaustive = .ok plan := by
  rw [allJoins] at found
  rw [exhaustive, if_neg pos.ne', h]
  simp only [bind, Except.bind, found]

/-- The search fails if there is no entry of all joins. -/
theorem exhaustive_eq_error (pos : 0 < p.size) (h : p.planTable = .ok table)
    (found : table.find? p.allJoins = none) : p.exhaustive = .error (.infeasible p.size) := by
  rw [allJoins] at found
  rw [exhaustive, if_neg pos.ne', h]
  simp only [bind, Except.bind, found]

/-- An order of all joins is one of the indexes below the number of joins. -/
theorem hasCrossProductFreeOrder_allJoins (h : p.size ≤ IndexSet.capacity) :
    p.HasCrossProductFreeOrder p.allJoins ↔
      ∃ order, order.Perm (List.range p.size) ∧ p.CrossProductFree order := by
  have perm := toList_allJoins h
  constructor
  · rintro ⟨order, ordered, free⟩
    exact ⟨order, ordered.trans perm, free⟩
  · rintro ⟨order, ordered, free⟩
    exact ⟨order, ordered.trans perm.symm, free⟩

/-- An order of all joins that is free of cross products is enough for the search to find a plan,
unless the search drops a step that appends the next join of the order to the entry of the joins
before it. -/
theorem exhaustive_or_exists_dropped (h : p.size ≤ IndexSet.capacity)
    (perm : order.Perm (List.range p.size)) (free : p.CrossProductFree order) :
    (∃ plan, p.exhaustive = .ok plan) ∨
    p.exhaustive = .error (.infeasible p.size) ∧ ∃ table front last prior s,
      p.planTable = .ok table ∧ front ++ [last] <+: order ∧
        p.Dropped table (IndexSet.ofList (front ++ [last])) last prior s := by
  rcases Nat.eq_zero_or_pos p.size with zero | pos
  · exact .inl ⟨∅, exhaustive_of_size_eq_zero zero⟩
  · obtain ⟨table, eq, isPlanTable⟩ := exists_planTable h
    cases found : table.find? p.allJoins with
    | some plan => exact .inl ⟨plan, exhaustive_eq_ok pos eq found⟩
    | none =>
      have all : order.Perm p.allJoins.toList := perm.trans (toList_allJoins h).symm
      rcases isPlanTable.isSome_or_exists_dropped (isEmpty_allJoins h pos) all free with
        some | ⟨front, last, prior, s, part, dropped⟩
      · rw [found] at some
        exact absurd some (by simp)
      · exact .inr ⟨exhaustive_eq_error pos eq found, table, front, last, prior, s, eq, part,
          dropped⟩

/-- If the search drops no step, such an order is enough. -/
theorem exists_exhaustive_of_crossProductFree (h : p.size ≤ IndexSet.capacity)
    (keeps : p.DropsNothing) (perm : order.Perm (List.range p.size))
    (free : p.CrossProductFree order) : ∃ plan, p.exhaustive = .ok plan := by
  rcases exhaustive_or_exists_dropped h perm free with
    ok | ⟨-, table, _, last, prior, s, eq, -, dropped⟩
  · exact ok
  · exact absurd dropped (keeps table _ last prior s eq)

/-- The exhaustive search has a plan for every set of joins that has an order free of cross
products, and for no other set. -/
theorem exhaustive_complete (h : p.size ≤ IndexSet.capacity) (below : p.StepsBelowInfinity) :
    (∃ table, p.planTable = .ok table ∧ ∀ set, (table.find? set).isSome = true ↔
      set.isEmpty = false ∧ p.HasCrossProductFreeOrder set) ∧
    (0 < p.size → ((∃ plan, p.exhaustive = .ok plan) ↔
        ∃ order, order.Perm (List.range p.size) ∧ p.CrossProductFree order) ∧
      ((¬∃ order, order.Perm (List.range p.size) ∧ p.CrossProductFree order) →
        p.exhaustive = .error (.infeasible p.size))) ∧
    (p.size = 0 → p.exhaustive = .ok ∅) := by
  obtain ⟨table, eq, isPlanTable⟩ := exists_planTable h
  refine ⟨⟨table, eq, isPlanTable.isSome_iff below⟩, ?_, ?_⟩
  · intro pos
    have entry := isPlanTable.isSome_iff below p.allJoins
    rw [hasCrossProductFreeOrder_allJoins h] at entry
    cases found : table.find? p.allJoins with
    | some plan =>
      have ok := exhaustive_eq_ok pos eq found
      rw [found] at entry
      have free := (entry.1 rfl).2
      constructor
      · exact iff_of_true ⟨plan, ok⟩ free
      · intro notFree
        exact absurd free notFree
    | none =>
      have error := exhaustive_eq_error pos eq found
      rw [found] at entry
      have notFree : ¬∃ order, order.Perm (List.range p.size) ∧ p.CrossProductFree order := by
        intro free
        exact Bool.false_ne_true (entry.2 ⟨isEmpty_allJoins h pos, free⟩)
      have notOk : ¬∃ plan, p.exhaustive = .ok plan := by
        rintro ⟨plan, ok⟩
        rw [error] at ok
        exact absurd ok (by simp)
      exact ⟨iff_of_false notOk notFree, fun _ => error⟩
  · intro zero
    rw [exhaustive, if_pos zero]

/-- The chain has an order free of cross products, so the exhaustive search finds a plan for it. -/
theorem chain_exhaustive :
    chain.size ≤ IndexSet.capacity ∧ chain.StepsBelowInfinity ∧
      ∃ plan, chain.exhaustive = .ok plan := by
  have small : chain.size ≤ IndexSet.capacity := by decide
  have below := chain_stepsAreFinite.stepsBelowInfinity
  have complete := exhaustive_complete small below
  have free : chain.CrossProductFree [0, 1, 2] := by
    rw [CrossProductFree]
    decide +kernel
  exact ⟨small, below, (complete.2.1 (by decide)).1.2 ⟨[0, 1, 2], List.Perm.refl _, free⟩⟩

end LeftDeep.Problem
