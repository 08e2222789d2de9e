import LeftDeep.Proofs.Plan.Interning
import LeftDeep.Proofs.Search.Connectivity
import LeftDeep.Proofs.Search.Run

/-!
# When the greedy search gets stuck

The greedy search never goes back on a choice. Its choices do not matter as long as the graph of
the joins is a tree: whatever part of a tree has grown can grow further. The one exception is a
join of a relation with itself. It can only come first, so the search gets stuck if it starts with
another join.

## Main definitions

* `Problem.StartsWith`: the first choice of the greedy search.

## Main statements

* `Problem.exists_ok_of_greedyFrom`: on a tree, a run of the greedy search does not get stuck.
* `Problem.exists_greedy_iff`: when the greedy search finds a plan on a tree with loops.
* `Problem.greedy_complete`: the same for problems that have an order free of cross products.
-/

namespace LeftDeep.Problem

variable {p : Problem} {plan result : PartialPlan} {remaining order : List ℕ} {index : ℕ}

/-! ## The cheapest step -/

theorem foldl_cheaper_isSome (steps : List Step) {best : Option Step} (h : best.isSome = true) :
    (steps.foldl cheaper best).isSome = true := by
  induction steps generalizing best with
  | nil => exact h
  | cons s rest ih =>
    apply ih
    rcases cheaper_eq_or best s with eq | eq
    · rw [eq]
      rfl
    · rw [eq]
      exact h

/-- There is a cheapest step if one of the joins can be appended. -/
theorem exists_cheapest? (mem : index ∈ remaining)
    (some : (p.nextStep? plan index).isSome = true) :
    ∃ s, p.cheapest? plan remaining = Option.some s := by
  obtain ⟨s, step⟩ := Option.isSome_iff_exists.1 some
  have offered : s ∈ remaining.filterMap (p.nextStep? plan) :=
    List.mem_filterMap.2 ⟨index, mem, step⟩
  apply Option.isSome_iff_exists.1
  rw [cheapest?]
  cases offers : remaining.filterMap (p.nextStep? plan) with
  | nil =>
    rw [offers] at offered
    exact absurd offered (by simp)
  | cons first rest => exact foldl_cheaper_isSome rest rfl

/-- On the empty plan there is a cheapest step as long as there are joins. -/
theorem exists_cheapest?_empty (pos : 0 < p.size) :
    ∃ s, p.cheapest? ∅ (List.range p.size) = some s := by
  refine exists_cheapest? (List.mem_range.2 pos) ?_
  obtain ⟨j, found⟩ := exists_join pos
  rw [isSome_nextStep?_iff]
  exact ⟨j, found, rfl⟩

/-! ## The search -/

/-- A run of the greedy search that gets stuck at once. -/
theorem greedyFrom_of_none (ne : remaining ≠ []) (none : p.cheapest? plan remaining = none) :
    p.greedyFrom plan remaining = .error (.disconnected (remaining.filterMap p.condition?)) := by
  have nonempty : ¬remaining.isEmpty = true := by
    rw [List.isEmpty_iff]
    exact ne
  rw [greedyFrom, if_neg nonempty]
  split
  · rfl
  · next s found =>
    rw [none] at found
    exact absurd found (by simp)

/-- The greedy search finds a plan or reports the joins that remain. -/
theorem greedyFrom_eq_or (p : Problem) (plan : PartialPlan) (remaining : List ℕ) :
    (∃ result, p.greedyFrom plan remaining = .ok result) ∨
      ∃ conditions, p.greedyFrom plan remaining = .error (.disconnected conditions) := by
  fun_induction greedyFrom p plan remaining with
  | case1 plan remaining empty => exact .inl ⟨plan, rfl⟩
  | case2 plan remaining _ _ => exact .inr ⟨_, rfl⟩
  | case3 plan remaining _ s cheapest ih => exact ih

/-- On a tree, a run of the greedy search does not get stuck: some of the remaining joins attaches
to the joins placed, whichever they are. -/
theorem exists_ok_of_greedyFrom (whole : IsLoopedTree (p.ends (plan.joins ++ remaining)))
    (replayed : p.replay? ∅ plan.joins = some plan) (ne : plan.joins ≠ [])
    (lt : ∀ i ∈ remaining, i < p.size) (loopless : ∀ i ∈ remaining, ¬p.IsLoop i) :
    ∃ result, p.greedyFrom plan remaining = .ok result := by
  fun_induction greedyFrom p plan remaining with
  | case1 plan remaining empty => exact ⟨plan, rfl⟩
  | case2 plan remaining nonempty none =>
    exfalso
    have placed := lt_size_of_replay? replayed
    have notNil : remaining ≠ [] := by simpa using nonempty
    rw [ends_append] at whole
    obtain ⟨e, mem, attaches⟩ := (grown_of_replay? replayed).exists_attaches
      (mt (ends_eq_nil_iff placed).1 ne) whole (not_isLoop_of_mem_ends loopless)
      (mt (ends_eq_nil_iff lt).1 notNil)
    obtain ⟨i, left, j, found, rfl⟩ := mem_ends.1 mem
    have some := (isSome_nextStep?_iff_attaches placed).2 ⟨j, found, attaches⟩
    obtain ⟨s, cheapest⟩ := exists_cheapest? left some
    rw [cheapest] at none
    exact absurd none (by simp)
  | case3 plan remaining _ s cheapest ih =>
    have mem := join_mem_of_cheapest? cheapest
    have step := nextStep?_of_cheapest? cheapest
    apply ih
    · have perm : (plan.joins ++ remaining).Perm
          ((plan.extend s).joins ++ remaining.erase s.join) := by
        rw [PartialPlan.joins_extend, List.append_assoc]
        exact (List.perm_cons_erase mem).append_left plan.joins
      exact whole.perm (perm.filterMap _)
    · rw [PartialPlan.joins_extend, replay?_concat_eq_some_iff]
      exact ⟨plan, s, replayed, step, rfl⟩
    · simp
    · intro i left
      exact lt i (List.mem_of_mem_erase left)
    · intro i left
      exact loopless i (List.mem_of_mem_erase left)

/-- The first choice of the greedy search. -/
def StartsWith (p : Problem) (index : ℕ) : Prop :=
  ∃ s, p.cheapest? ∅ (List.range p.size) = some s ∧ s.join = index

/-- The greedy search starts with a join of a relation with itself, if it finds a plan at all. -/
theorem startsWith_of_greedy (ok : p.greedy = .ok result) (loop : p.IsLoop index) :
    p.StartsWith index := by
  have lt := loop.lt_size
  obtain ⟨s, cheapest⟩ := exists_cheapest?_empty (Nat.zero_lt_of_lt lt)
  refine ⟨s, cheapest, ?_⟩
  by_contra other
  rw [greedy, greedyFrom_of_cheapest? cheapest] at ok
  obtain ⟨order, perm, replayed⟩ := exists_of_greedyFrom ok
  rw [← replay?_cons (nextStep?_of_cheapest? cheapest)] at replayed
  have later : index ∈ order := by
    rw [perm.mem_iff, List.mem_erase_of_ne (Ne.symm other), List.mem_range]
    exact lt
  obtain ⟨first, found'⟩ := exists_join (lt_size_of_replay? replayed s.join List.mem_cons_self)
  have loopless := (grown_of_replay? replayed).not_isLoop
  rw [ends_cons found'] at loopless
  obtain ⟨j, found, isLoop⟩ := loop
  exact loopless j.ends (mem_ends.2 ⟨index, later, j, found, rfl⟩) isLoop

/-- On a tree with loops, the greedy search finds a plan if it starts with the loops. -/
theorem exists_greedy_iff (tree : IsLoopedTree (p.ends (List.range p.size))) :
    (∃ plan, p.greedy = .ok plan) ↔ ∀ i, p.IsLoop i → p.StartsWith i := by
  constructor
  · rintro ⟨plan, ok⟩ i loop
    exact startsWith_of_greedy ok loop
  · intro starts
    rcases Nat.eq_zero_or_pos p.size with zero | pos
    · exact ⟨∅, greedy_of_size_eq_zero zero⟩
    · obtain ⟨s, cheapest⟩ := exists_cheapest?_empty pos
      have mem := join_mem_of_cheapest? cheapest
      have step := nextStep?_of_cheapest? cheapest
      rw [greedy, greedyFrom_of_cheapest? cheapest]
      have one : (PartialPlan.extend ∅ s).joins = [s.join] := rfl
      apply exists_ok_of_greedyFrom
      · rw [one]
        exact tree.perm ((List.perm_cons_erase mem).filterMap _)
      · rw [one, ← List.nil_append [s.join], replay?_concat_eq_some_iff]
        exact ⟨∅, s, rfl, step, rfl⟩
      · rw [one]
        simp
      · intro i left
        exact List.mem_range.1 (List.mem_of_mem_erase left)
      · intro i left loop
        obtain ⟨s', cheapest', eq⟩ := starts i loop
        rw [cheapest] at cheapest'
        obtain rfl := Option.some.inj cheapest'
        have ne := (List.nodup_range.mem_erase_iff.1 left).1
        exact ne eq.symm

/-- An order of all joins that is free of cross products makes the graph of the joins a tree with
loops. -/
theorem isLoopedTree_of_crossProductFree (pos : 0 < p.size)
    (perm : order.Perm (List.range p.size)) (free : p.CrossProductFree order) :
    IsLoopedTree (p.ends (List.range p.size)) := by
  obtain ⟨plan, replayed⟩ := Option.isSome_iff_exists.1 free
  have lt := lt_size_of_replay? replayed
  have ne := mt (ends_eq_nil_iff lt).1 (ne_nil_of_perm pos perm)
  exact ((grown_of_replay? replayed).isLoopedTree ne).perm (perm.filterMap _)

/-- If the joins have an order free of cross products, the greedy search finds a plan unless it
starts with another join than one of a relation with itself. In that case it gets stuck. -/
theorem greedy_complete (perm : order.Perm (List.range p.size)) (free : p.CrossProductFree order) :
    ((∃ plan, p.greedy = .ok plan) ↔ ∀ i, p.IsLoop i → p.StartsWith i) ∧
    ((∃ remaining, p.greedy = .error (.disconnected remaining)) ↔
      ∃ i, p.IsLoop i ∧ ¬p.StartsWith i) := by
  have ok : (∃ plan, p.greedy = .ok plan) ↔ ∀ i, p.IsLoop i → p.StartsWith i := by
    rcases Nat.eq_zero_or_pos p.size with zero | pos
    · apply iff_of_true ⟨∅, greedy_of_size_eq_zero zero⟩
      intro i loop
      have lt := loop.lt_size
      omega
    · exact exists_greedy_iff (isLoopedTree_of_crossProductFree pos perm free)
  refine ⟨ok, ?_⟩
  have stuck : (∃ remaining, p.greedy = .error (.disconnected remaining)) ↔
      ¬∃ plan, p.greedy = .ok plan := by
    constructor
    · rintro ⟨remaining, error⟩ ⟨plan, eq⟩
      rw [error] at eq
      exact absurd eq (by simp)
    · intro notOk
      exact (greedyFrom_eq_or p ∅ (List.range p.size)).resolve_left notOk
  rw [stuck, ok]
  simp only [not_forall, exists_prop]

/-! ## A relation joined with itself -/

/-- A large relation joined with itself and with a small one. -/
def selfJoin : Problem where
  joins := #[
    { condition := { left := ⟨"a", "x"⟩, op := .equal, right := .column ⟨"a", "y"⟩ }
      left := 0, right := some 0, leftKeyed := false, rightKeyed := false },
    { condition := { left := ⟨"a", "x"⟩, op := .equal, right := .column ⟨"b", "x"⟩ }
      left := 0, right := some 1, leftKeyed := false, rightKeyed := false }]
  relations := #[⟨"a", { cost := 10, rows := 10 }⟩, ⟨"b", { cost := 1, rows := 1 }⟩]

theorem crossProductFree_selfJoin : selfJoin.CrossProductFree [0, 1] := by
  rw [CrossProductFree]
  decide +kernel

/-- The greedy search starts with the small relation, and is left with the join of the large one
with itself. -/
theorem greedy_selfJoin : selfJoin.greedy = .error (.disconnected
    [{ left := ⟨"a", "x"⟩, op := .equal, right := .column ⟨"a", "y"⟩ }]) := by
  have first : selfJoin.cheapest? ∅ [0, 1] =
      some { join := 1, outer := .right, cost := 21, rows := 10 } := by
    decide +kernel
  have second : selfJoin.cheapest? (PartialPlan.extend ∅
      { join := 1, outer := .right, cost := 21, rows := 10 }) [0] = none := by
    decide +kernel
  calc selfJoin.greedy
      = selfJoin.greedyFrom ∅ [0, 1] := rfl
    _ = selfJoin.greedyFrom _ [0] := greedyFrom_of_cheapest? first
    _ = _ := greedyFrom_of_none (List.cons_ne_nil 0 []) second

/-- There is an order for these joins, and the greedy search misses it. -/
theorem selfJoin_greedy_complete :
    ([0, 1].Perm (List.range selfJoin.size) ∧ selfJoin.CrossProductFree [0, 1]) ∧
    ∃ i, selfJoin.IsLoop i ∧ ¬selfJoin.StartsWith i := by
  have perm : [0, 1].Perm (List.range selfJoin.size) := List.Perm.refl [0, 1]
  have complete := greedy_complete perm crossProductFree_selfJoin
  exact ⟨⟨perm, crossProductFree_selfJoin⟩, complete.2.1 ⟨_, greedy_selfJoin⟩⟩

end LeftDeep.Problem

namespace LeftDeep

/-- A query that poses this problem. -/
def Inputs.selfJoin : Inputs where
  query :=
    { scans := (Bindings.empty.bind "a" 1).bind "b" 2
      joins := [
        { left := ⟨"a", "x"⟩, op := .equal, right := .column ⟨"a", "y"⟩ },
        { left := ⟨"a", "x"⟩, op := .equal, right := .column ⟨"b", "x"⟩ }] }
  catalog := { tables := [
    { id := 1, name := "a", columns := [⟨"x", false⟩, ⟨"y", false⟩] },
    { id := 2, name := "b", columns := [⟨"x", false⟩] }] }
  statistics := (Bindings.empty.bind "a" { tuples := 10, pages := 10 }).bind
    "b" { tuples := 1, pages := 1 }
  selectivities := (Bindings.empty.bind "a" unfiltered).bind "b" unfiltered

set_option maxRecDepth 20000 in
theorem Inputs.problem_selfJoin : Inputs.selfJoin.problem = .ok Problem.selfJoin := rfl

/-- The greedy search may miss the orders that are free of cross products. -/
theorem Problem.not_greedy_complete :
    ¬∀ (inputs : Inputs) (p : Problem), inputs.problem = .ok p →
      (∃ order, order.Perm (List.range p.size) ∧ p.CrossProductFree order) →
        ∃ plan, p.greedy = .ok plan := by
  intro claim
  obtain ⟨plan, ok⟩ := claim Inputs.selfJoin Problem.selfJoin Inputs.problem_selfJoin
    ⟨[0, 1], List.Perm.refl [0, 1], Problem.crossProductFree_selfJoin⟩
  rw [Problem.greedy_selfJoin] at ok
  exact absurd ok (by simp)

end LeftDeep
