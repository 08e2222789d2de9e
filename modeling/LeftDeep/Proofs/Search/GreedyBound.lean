import LeftDeep.Proofs.Plan.Interning
import LeftDeep.Proofs.Search.Monotone
import LeftDeep.Proofs.Search.Run

/-!
# The exhaustive search against the greedy one

The exhaustive search keeps the cheapest plan of each set of joins and forgets the others, also
those that yield fewer rows. Rows decide what later joins cost, so the greedy search can come out
cheaper. It can only if a prefix of its plan was outgrown: if the plan kept for the same joins is
no dearer but yields more rows.

## Main definitions

* `Problem.OutgrownAt`: a prefix of a plan is outgrown by an entry.
* `Problem.IsMatched`: an entry costs no more than a plan of the same joins.

## Main statements

* `Problem.IsPlanTable.exists_order_of_outgrownAt`: joins are outgrown only if another order of them
  yields more rows.
* `Problem.isMatched_or_outgrownAt`: one more join, appended to a plan that is matched.
* `Problem.isMatched_or_exists_outgrownAt`: without outgrown prefixes, every order is matched.
* `Problem.exhaustive_le_greedy`: the same for the two searches.
-/

namespace LeftDeep.Problem

open Double

variable {p : Problem} {table : PlanTable} {set : IndexSet} {plan prior : PartialPlan} {s : Step}
  {order : List ℕ} {last : ℕ}

/-- The first `k` joins of a plan are outgrown: the table keeps a plan of these joins that is no
dearer but yields more rows. -/
def OutgrownAt (p : Problem) (table : PlanTable) (plan : PartialPlan) (k : ℕ) : Prop :=
  ∃ part entry, p.replay? ∅ (plan.joins.take k) = some part ∧
    table.find? (IndexSet.ofList (plan.joins.take k)) = some entry ∧
    entry.cost ≤ part.cost ∧ part.rows < entry.rows

/-- The entry of the joins of a plan costs no more than the plan. That of a single join yields no
more rows either. -/
def IsMatched (table : PlanTable) (plan : PartialPlan) : Prop :=
  ∃ entry, table.find? (IndexSet.ofList plan.joins) = some entry ∧ entry.cost ≤ plan.cost ∧
    (plan.joins.length = 1 → entry.rows ≤ plan.rows)

theorem OutgrownAt.extend {k : ℕ} (h : p.OutgrownAt table prior k) (le : k ≤ prior.joins.length) :
    p.OutgrownAt table (prior.extend s) k := by
  have same : (prior.extend s).joins.take k = prior.joins.take k := by
    rw [PartialPlan.joins_extend, List.take_append_of_le_length le]
  rw [OutgrownAt, same]
  exact h

/-- A plan is outgrown before its last join if the entry of the others is no dearer than their plan
but larger. -/
theorem outgrownAt_of_lt {entry : PartialPlan} (replayed : p.replay? ∅ prior.joins = some prior)
    (found : table.find? (IndexSet.ofList prior.joins) = some entry)
    (cost : entry.cost ≤ prior.cost) (rows : prior.rows < entry.rows) :
    p.OutgrownAt table (prior.extend s) prior.joins.length := by
  have take : (prior.extend s).joins.take prior.joins.length = prior.joins := by
    rw [PartialPlan.joins_extend, List.take_left]
  rw [OutgrownAt, take]
  exact ⟨prior, entry, replayed, found, cost, rows⟩

/-- If all joins of a query fit into a set, so do the joins of an order. -/
theorem lt_capacity_of_lt_size (h : p.size ≤ IndexSet.capacity) (lt : ∀ i ∈ order, i < p.size) :
    ∀ i ∈ order, i < IndexSet.capacity := by
  intro i mem
  exact (lt i mem).trans_le h

theorem isJoinSet_ofList (h : p.size ≤ IndexSet.capacity) (ne : order ≠ [])
    (lt : ∀ i ∈ order, i < p.size) : p.IsJoinSet (IndexSet.ofList order) := by
  have small := lt_capacity_of_lt_size h lt
  constructor
  · obtain ⟨i, mem⟩ := List.exists_mem_of_ne_nil order ne
    rw [IndexSet.isEmpty_eq_false_iff]
    refine ⟨i, ?_⟩
    rw [IndexSet.contains_ofList small]
    exact decide_eq_true mem
  · intro i mem
    rw [IndexSet.contains_ofList small] at mem
    exact lt i (of_decide_eq_true mem)

namespace IsPlanTable

variable (isPlanTable : p.IsPlanTable table)

include isPlanTable

/-- A set with a candidate has an entry that costs no more. -/
theorem exists_le_of_candidate (scans : p.ScansAreProper) (joinSet : p.IsJoinSet set)
    (h : p.Candidate table set last prior s) :
    ∃ entry, table.find? set = some entry ∧ entry.cost ≤ s.cost := by
  obtain ⟨entry, found⟩ := Option.isSome_iff_exists.1 (isPlanTable.isSome_of_candidate joinSet h)
  obtain ⟨last', prior', s', -, rfl, least⟩ :=
    isPlanTable.least (isPlanTable.meetsNumbers scans) found
  exact ⟨prior'.extend s', found, (least last prior s h).1⟩

/-- An entry that is no dearer and no larger than another plan of its joins can be extended in the
same way, so the larger set has an entry that costs no more than the extended plan. -/
theorem exists_le_of_step (scans : p.ScansAreProper) (joinSet : p.IsJoinSet set)
    (contains : set.contains last = true) {entry : PartialPlan}
    (found : table.find? (set.erase last) = some entry) (same : entry.SamePlaced prior)
    (cost : entry.cost ≤ prior.cost) (rows : entry.rows ≤ prior.rows)
    (finite : prior.cost.isFinite = true) (step : p.nextStep? prior last = some s)
    (stepFinite : s.cost.isFinite = true) :
    ∃ entry, table.find? set = some entry ∧ entry.cost ≤ s.cost := by
  have proper := isPlanTable.isProper scans found
  have properPrior : Cost.IsProper prior.cost := ⟨le_trans proper.nonneg cost, finite⟩
  obtain ⟨s', step', le⟩ :=
    exists_nextStep?_le scans same proper.nonneg cost rows properPrior step
  have below : s'.cost < infinity := lt_of_le_of_lt le (lt_infinity_of_isFinite stepFinite)
  obtain ⟨entry', found', le'⟩ :=
    isPlanTable.exists_le_of_candidate scans joinSet ⟨contains, .inr found, step', below⟩
  exact ⟨entry', found', le_trans le' le⟩

/-- The entry of the joins of an order places these joins. -/
theorem mem_joins_iff {entry : PartialPlan}
    (found : table.find? (IndexSet.ofList order) = some entry)
    (small : ∀ i ∈ order, i < IndexSet.capacity) (i : ℕ) : i ∈ entry.joins ↔ i ∈ order := by
  rw [(isPlanTable.perm found).mem_iff, IndexSet.mem_toList, IndexSet.contains_ofList small,
    decide_eq_true_iff]

/-- If some joins are outgrown, another order of them yields more rows. -/
theorem exists_order_of_outgrownAt (h : p.size ≤ IndexSet.capacity) {k : ℕ}
    (outgrown : p.OutgrownAt table plan k) :
    ∃ order part other, order.Nodup ∧ (∀ i, i ∈ order ↔ i ∈ plan.joins.take k) ∧
      p.replay? ∅ (plan.joins.take k) = some part ∧ p.replay? ∅ order = some other ∧
      part.rows < other.rows := by
  obtain ⟨part, entry, replayed, found, -, less⟩ := outgrown
  have small := lt_capacity_of_lt_size h (lt_size_of_replay? replayed)
  have nodup : entry.joins.Nodup := (isPlanTable.perm found).nodup_iff.2 (IndexSet.nodup_toList _)
  exact ⟨entry.joins, part, entry, nodup, isPlanTable.mem_joins_iff found small, replayed,
    isPlanTable.replay found, less⟩

/-- The entry of one join is the plan of this join. -/
theorem find?_singleton (h : p.size ≤ IndexSet.capacity) (step : p.nextStep? ∅ last = some s)
    (below : s.cost < infinity) :
    table.find? (IndexSet.ofList [last]) = some (PartialPlan.extend ∅ s) := by
  have lt : ∀ i ∈ [last], i < p.size := by
    intro i mem
    obtain rfl := List.mem_singleton.1 mem
    exact lt_size_of_nextStep? step
  have small := lt_capacity_of_lt_size h lt
  have contains : (IndexSet.ofList [last]).contains last = true := by
    rw [IndexSet.contains_ofList small]
    simp
  have empty : ((IndexSet.ofList [last]).erase last).isEmpty = true := by
    rw [← List.nil_append [last], IndexSet.erase_ofList_concat small (List.nodup_singleton last)]
    rfl
  have candidate : p.Candidate table (IndexSet.ofList [last]) last ∅ s :=
    ⟨contains, .inl ⟨empty, rfl⟩, step, below⟩
  have joinSet := isJoinSet_ofList h (List.cons_ne_nil last []) lt
  obtain ⟨entry, found⟩ :=
    Option.isSome_iff_exists.1 (isPlanTable.isSome_of_candidate joinSet candidate)
  -- The entry places the one join, so its replay is this step.
  have perm := (isPlanTable.perm found).trans (IndexSet.toList_erase_concat_perm contains).symm
  rw [(IndexSet.toList_eq_nil_iff _).2 empty, List.nil_append, List.perm_singleton] at perm
  have replayed := isPlanTable.replay found
  rw [perm, ← List.nil_append [last]] at replayed
  obtain ⟨prior, s', eq, step', rfl⟩ := replay?_concat_eq_some_iff.1 replayed
  obtain rfl := Option.some.inj eq
  obtain rfl := Option.some.inj (step.symm.trans step')
  exact found

end IsPlanTable

/-- The cost of a plan is that of its last step. -/
theorem isFinite_cost (ne : order ≠ []) (replayed : p.replay? ∅ order = some plan)
    (finite : ∀ s ∈ plan.steps, s.cost.isFinite = true) : plan.cost.isFinite = true := by
  obtain ⟨front, last, rfl⟩ := List.eq_nil_or_concat order |>.resolve_left ne
  rw [List.concat_eq_append] at replayed
  obtain ⟨prior, s, -, -, rfl⟩ := replay?_concat_eq_some_iff.1 replayed
  exact finite s (by simp)

/-- A step from a plan that is matched gives a plan that is matched, unless the entry of the former
yields more rows. -/
theorem isMatched_or_outgrownAt (isPlanTable : p.IsPlanTable table)
    (h : p.size ≤ IndexSet.capacity) (scans : p.ScansAreProper) (matched : IsMatched table prior)
    (replayed : p.replay? ∅ prior.joins = some prior) (ne : prior.joins ≠ [])
    (nodup : (prior.joins ++ [last]).Nodup) (finite : prior.cost.isFinite = true)
    (step : p.nextStep? prior last = some s) (stepFinite : s.cost.isFinite = true) :
    IsMatched table (prior.extend s) ∨
      1 < prior.joins.length ∧ p.OutgrownAt table (prior.extend s) prior.joins.length := by
  obtain ⟨entry, found, cost, rows⟩ := matched
  have long : 0 < prior.joins.length := List.length_pos_iff.2 ne
  by_cases fewer : entry.rows ≤ prior.rows
  · -- What the entry costs when it is extended in the same way bounds the next entry.
    left
    have whole : p.replay? ∅ (prior.joins ++ [last]) = some (prior.extend s) :=
      replay?_concat_eq_some_iff.2 ⟨prior, s, replayed, step, rfl⟩
    have lt := lt_size_of_replay? whole
    have small := lt_capacity_of_lt_size h lt
    have contains : (IndexSet.ofList (prior.joins ++ [last])).contains last = true := by
      rw [IndexSet.contains_ofList small]
      simp
    have joinSet := isJoinSet_ofList h (List.concat_ne_nil last prior.joins) lt
    have same : entry.SamePlaced prior := isPlanTable.mem_joins_iff found fun i mem =>
      small i (List.mem_append_left _ mem)
    rw [← IndexSet.erase_ofList_concat small nodup] at found
    obtain ⟨entry', found', le⟩ := isPlanTable.exists_le_of_step scans joinSet contains found same
      cost fewer finite step stepFinite
    rw [IsMatched, PartialPlan.joins_extend, join_of_nextStep? step]
    refine ⟨entry', found', le, ?_⟩
    intro one
    rw [List.length_append, List.length_singleton] at one
    omega
  · right
    have notOne : prior.joins.length ≠ 1 := by
      intro one
      exact fewer (rows one)
    exact ⟨by omega, outgrownAt_of_lt replayed found cost (UInt64.not_le.1 fewer)⟩

/-- An entry costs no more than any order of the same joins, unless a prefix of the order is
outgrown. -/
theorem isMatched_or_exists_outgrownAt (isPlanTable : p.IsPlanTable table)
    (h : p.size ≤ IndexSet.capacity) (scans : p.ScansAreProper) (nodup : order.Nodup)
    (ne : order ≠ []) (replayed : p.replay? ∅ order = some plan)
    (finite : ∀ s ∈ plan.steps, s.cost.isFinite = true) :
    IsMatched table plan ∨ ∃ k, 1 < k ∧ k < order.length ∧ p.OutgrownAt table plan k := by
  induction order using List.reverseRecOn generalizing plan with
  | nil => exact absurd rfl ne
  | append_singleton order last ih =>
    obtain ⟨prior, s, priorReplayed, step, rfl⟩ := replay?_concat_eq_some_iff.1 replayed
    obtain rfl := joins_of_replay?_empty priorReplayed
    have stepFinite : s.cost.isFinite = true := finite s (by simp)
    by_cases first : prior.joins = []
    · left
      rw [first] at priorReplayed
      obtain rfl := Option.some.inj priorReplayed
      have found := isPlanTable.find?_singleton h step (lt_infinity_of_isFinite stepFinite)
      have number := isNaN_of_isFinite stepFinite
      rw [← join_of_nextStep? step] at found
      exact ⟨PartialPlan.extend ∅ s, found, le_refl number, fun _ => UInt64.le_refl _⟩
    · have finite' : ∀ s ∈ prior.steps, s.cost.isFinite = true := by
        intro s mem
        exact finite s (List.mem_append_left _ mem)
      have length : (prior.joins ++ [last]).length = prior.joins.length + 1 := by simp
      rcases ih (List.nodup_append.1 nodup).1 first priorReplayed finite' with
        matched | ⟨k, pos, less, outgrown⟩
      · have priorFinite := isFinite_cost first priorReplayed finite'
        rcases isMatched_or_outgrownAt isPlanTable h scans matched priorReplayed first nodup
          priorFinite step stepFinite with matched' | ⟨pos, outgrown⟩
        · exact .inl matched'
        · exact .inr ⟨prior.joins.length, pos, by omega, outgrown⟩
      · exact .inr ⟨k, pos, by omega, outgrown.extend less.le⟩

/-- With scan costs that are finite and not negative, the exhaustive search finds a plan that costs
no more than the greedy one, unless a prefix of the greedy plan is outgrown. -/
theorem exhaustive_le_greedy (h : p.size ≤ IndexSet.capacity) (scans : p.ScansAreProper)
    (greedy : p.greedy = .ok plan) (finite : ∀ s ∈ plan.steps, s.cost.isFinite = true) :
    (∃ best, p.exhaustive = .ok best ∧ best.cost ≤ plan.cost) ∨
    ∃ table k, p.planTable = .ok table ∧ 1 < k ∧ k < p.size ∧ p.OutgrownAt table plan k := by
  have placesAll := placesAll_of_greedy greedy
  have length : plan.joins.length = p.size := by
    rw [placesAll.perm.length_eq, List.length_range]
  by_cases zero : p.size = 0
  · have nil : plan.joins = [] := List.length_eq_zero_iff.1 (length.trans zero)
    have replayed := placesAll.replay
    rw [nil] at replayed
    obtain rfl := Option.some.inj replayed
    refine .inl ⟨∅, ?_, le_refl isNaN_zero⟩
    rw [exhaustive, if_pos zero]
  · have pos := Nat.pos_of_ne_zero zero
    obtain ⟨table, eq, isPlanTable⟩ := exists_planTable h
    have ne : plan.joins ≠ [] := List.ne_nil_of_length_pos (length ▸ pos)
    have all : IndexSet.ofList plan.joins = p.allJoins :=
      IndexSet.ofList_eq_of_perm (placesAll.perm.trans (toList_allJoins h).symm)
    have nodup : plan.joins.Nodup := placesAll.perm.symm.nodup List.nodup_range
    rcases isMatched_or_exists_outgrownAt isPlanTable h scans nodup ne placesAll.replay finite with
      ⟨entry, found, le, -⟩ | ⟨k, lower, upper, outgrown⟩
    · rw [all] at found
      exact .inl ⟨entry, exhaustive_eq_ok pos eq found, le⟩
    · exact .inr ⟨table, k, eq, lower, length ▸ upper, outgrown⟩

/-- A path of three joins, none of them on a key. -/
def path : Problem where
  joins := #[
    { condition := { left := ⟨"a", "x"⟩, op := .equal, right := .column ⟨"b", "x"⟩ }
      left := 0, right := some 1, leftKeyed := false, rightKeyed := false },
    { condition := { left := ⟨"b", "y"⟩, op := .equal, right := .column ⟨"c", "y"⟩ }
      left := 1, right := some 2, leftKeyed := false, rightKeyed := false },
    { condition := { left := ⟨"c", "z"⟩, op := .equal, right := .column ⟨"d", "z"⟩ }
      left := 2, right := some 3, leftKeyed := false, rightKeyed := false }]
  relations := #[⟨"a", { cost := 1, rows := 1 }⟩, ⟨"b", { cost := 3, rows := 3 }⟩,
    ⟨"c", { cost := 2, rows := 2 }⟩, ⟨"d", { cost := 2, rows := 2 }⟩]

/-- The plan that the greedy search finds for the path. It starts at the small relation. -/
def pathPlan : PartialPlan where
  steps := [{ join := 0, outer := .left, cost := 7, rows := 3 },
    { join := 1, outer := .left, cost := 19, rows := 3 },
    { join := 2, outer := .left, cost := 31, rows := 3 }]
  cost := 31
  rows := 3

theorem greedy_path : path.greedy = .ok pathPlan := by
  have first : path.cheapest? ∅ [0, 1, 2] =
      some { join := 0, outer := .left, cost := 7, rows := 3 } := by
    decide +kernel
  have second : path.cheapest? (PartialPlan.extend ∅
      { join := 0, outer := .left, cost := 7, rows := 3 }) [1, 2] =
      some { join := 1, outer := .left, cost := 19, rows := 3 } := by
    decide +kernel
  have third : path.cheapest? ((PartialPlan.extend ∅
      { join := 0, outer := .left, cost := 7, rows := 3 }).extend
      { join := 1, outer := .left, cost := 19, rows := 3 }) [2] =
      some { join := 2, outer := .left, cost := 31, rows := 3 } := by
    decide +kernel
  calc path.greedy
      = path.greedyFrom ∅ [0, 1, 2] := rfl
    _ = path.greedyFrom _ [1, 2] := greedyFrom_of_cheapest? first
    _ = path.greedyFrom _ [2] := greedyFrom_of_cheapest? second
    _ = path.greedyFrom _ [] := greedyFrom_of_cheapest? third
    _ = .ok pathPlan := greedyFrom_nil path pathPlan

/-- Without keys no prefix of the greedy plan of the path is outgrown, so the exhaustive search does
no worse. The greedy plan is not the cheapest one here. -/
theorem path_exhaustive_le_greedy :
    (path.size ≤ IndexSet.capacity ∧ path.ScansAreProper ∧ path.greedy = .ok pathPlan ∧
      ∀ s ∈ pathPlan.steps, s.cost.isFinite = true) ∧
    (∃ plan ∈ path.replay? ∅ [2, 1, 0], plan.cost < pathPlan.cost) ∧
    ∃ best, path.exhaustive = .ok best ∧ best.cost ≤ pathPlan.cost := by
  have small : path.size ≤ IndexSet.capacity := by decide
  have scans : path.ScansAreProper := by decide +kernel
  have finite : ∀ s ∈ pathPlan.steps, s.cost.isFinite = true := by decide +kernel
  have cheaper : ∃ plan ∈ path.replay? ∅ [2, 1, 0], plan.cost < pathPlan.cost := by
    decide +kernel
  have rows : ∀ order ∈ [0, 1].permutations', ∀ part ∈ path.replay? ∅ [0, 1],
      ∀ other ∈ path.replay? ∅ order, other.rows ≤ part.rows := by
    decide +kernel
  refine ⟨⟨small, scans, greedy_path, finite⟩, cheaper, ?_⟩
  rcases exhaustive_le_greedy small scans greedy_path finite with
    best | ⟨table, k, eq, lower, upper, outgrown⟩
  · exact best
  · obtain ⟨table', eq', isPlanTable⟩ := exists_planTable small
    obtain rfl := Except.ok.inj (eq.symm.trans eq')
    have three : path.size = 3 := rfl
    obtain rfl : k = 2 := by omega
    obtain ⟨order, part, other, nodup, same, replayed, replayed', less⟩ :=
      isPlanTable.exists_order_of_outgrownAt small outgrown
    have perm : order.Perm [0, 1] := (List.perm_ext_iff_of_nodup nodup (by decide)).2 same
    have le := rows order (List.mem_permutations'.2 perm) part replayed other replayed'
    exact absurd less (UInt64.not_lt.2 le)

/-! ## The searches on the chain -/

/-- The greedy plan of the chain is cheaper than those of all other orders. -/
theorem chainPlan_cost_lt : ∀ order ∈ (List.range 3).permutations', order ≠ chainPlan.joins →
    ∀ plan ∈ chain.replay? ∅ order, chainPlan.cost < plan.cost := by
  decide +kernel

theorem exists_exhaustive_chain : ∃ plan, chain.exhaustive = .ok plan := by
  have free : chain.CrossProductFree [0, 1, 2] := by
    rw [CrossProductFree]
    decide +kernel
  exact exists_exhaustive_of_crossProductFree (by decide)
    chain_stepsAreFinite.stepsBelowInfinity.dropsNothing (List.Perm.refl [0, 1, 2]) free

/-- The table does not keep the first two joins of the greedy plan: the other order costs less. -/
theorem ne_of_find?_chain {table : PlanTable} (isPlanTable : chain.IsPlanTable table)
    {entry : PartialPlan} (found : table.find? (IndexSet.ofList [1, 0]) = some entry) :
    entry.joins ≠ [1, 0] := by
  intro joins
  have replayed := isPlanTable.replay found
  rw [joins] at replayed
  have isSome : (chain.replay? ∅ [0, 1]).isSome = true := by decide +kernel
  have finite : ∀ plan ∈ chain.replay? ∅ [0, 1], ∀ s ∈ plan.steps, s.cost.isFinite = true := by
    decide +kernel
  have less : ∀ plan ∈ chain.replay? ∅ [0, 1], ∀ plan' ∈ chain.replay? ∅ [1, 0],
      plan.cost < plan'.cost := by
    decide +kernel
  obtain ⟨plan, replayed'⟩ := Option.isSome_iff_exists.1 isSome
  have same : IndexSet.ofList [0, 1] = IndexSet.ofList [1, 0] := by decide
  rcases isMatched_or_exists_outgrownAt isPlanTable (by decide) chain_scansAreProper (by decide)
    (by decide) replayed' (finite plan replayed') with
    ⟨entry', found', le, -⟩ | ⟨k, lower, upper, -⟩
  · rw [joins_of_replay?_empty replayed', same, found] at found'
    obtain rfl := Option.some.inj found'
    exact not_le_of_lt (less plan replayed' entry replayed) le
  · have two : [0, 1].length = 2 := rfl
    omega

/-- What the exhaustive search finds for the chain costs more than the greedy plan. -/
theorem chainPlan_cost_lt_exhaustive {plan : PartialPlan} (h : chain.exhaustive = .ok plan) :
    chainPlan.cost < plan.cost := by
  have placesAll := placesAll_of_exhaustive h
  obtain ⟨table, -, isPlanTable, -, found⟩ := exists_entry_of_exhaustive (by decide) h
  have ne : plan.joins ≠ chainPlan.joins := by
    intro joins
    have three : plan.joins.length = 3 := by
      rw [joins]
      rfl
    have take : plan.joins.take 2 = [1, 0] := by
      rw [joins]
      rfl
    obtain ⟨part, partFound, steps⟩ := isPlanTable.of_prefix found (k := 2) (by omega) (by omega)
    rw [take] at partFound
    apply ne_of_find?_chain isPlanTable partFound
    rw [PartialPlan.joins, steps, List.map_take]
    exact take
  exact chainPlan_cost_lt plan.joins (List.mem_permutations'.2 placesAll.perm) ne plan
    placesAll.replay

/-- The exhaustive search may do worse than the greedy one. -/
theorem not_exhaustive_le_greedy :
    ¬∀ (inputs : Inputs) (p : Problem) (greedyPlan best : PartialPlan),
      inputs.problem = .ok p → p.size ≤ IndexSet.capacity → p.ScansAreProper → p.StepsAreFinite →
        p.greedy = .ok greedyPlan → p.exhaustive = .ok best → best.cost ≤ greedyPlan.cost := by
  intro claim
  obtain ⟨best, found⟩ := exists_exhaustive_chain
  have le := claim Inputs.chain chain chainPlan best Inputs.problem_chain (by decide)
    chain_scansAreProper chain_stepsAreFinite greedy_chain found
  exact not_le_of_lt (chainPlan_cost_lt_exhaustive found) le

end LeftDeep.Problem
