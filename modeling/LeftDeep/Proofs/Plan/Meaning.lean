import Mathlib.Order.Defs.LinearOrder
import LeftDeep.Proofs.Plan.Placement
import LeftDeep.Proofs.Result

/-!
# What plans mean

A condition says something of the values in its columns. A finished plan lists the conditions of a
query, some of them with their sides exchanged. Exchanged sides do not change what is said, as the
operator is replaced by its converse, except for a pattern: which column holds the text and which
the pattern is then lost.

## Main definitions

* `Reading`: values of the columns, and what patterns and sub-queries say of them.
* `Condition.Holds`: a condition is true under a reading.
* `Condition.IsPattern`: a pattern between two columns.

## Main statements

* `Condition.holds_swap_iff`: exchanging the sides of a condition keeps what it says, unless it is
  a pattern.
* `Inputs.pairwise_of_replay?`: no two joins of a plan compare the same aliases.
* `Inputs.holds_conditions_iff`: a plan says what the query says, unless it exchanges a pattern.
-/

namespace LeftDeep

universe u

/-- What conditions are read under: the value of each column, the relation between a text and a
pattern that matches it, and what a condition with a sub-query says. -/
structure Reading (α : Type u) where
  value : ColumnRef → α
  Matches : α → α → Prop
  subquery : ColumnRef → Comparison → Prop

variable {α : Type u} [LinearOrder α]

/-- What a comparison says of two values. -/
def Comparison.Holds (Matches : α → α → Prop) : Comparison → α → α → Prop
  | equal, x, y => x = y
  | notEqual, x, y => x ≠ y
  | less, x, y => x < y
  | greater, x, y => x > y
  | lessOrEqual, x, y => x ≤ y
  | greaterOrEqual, x, y => x ≥ y
  | like, x, y => Matches x y

/-- The converse says of exchanged values what the comparison says of the values. -/
theorem Comparison.holds_converse_iff {Matches : α → α → Prop} {op : Comparison} (h : op ≠ like)
    (x y : α) : op.converse.Holds Matches y x ↔ op.Holds Matches x y := by
  cases op with
  | equal => exact eq_comm
  | notEqual => exact ne_comm
  | less => exact Iff.rfl
  | greater => exact Iff.rfl
  | lessOrEqual => exact Iff.rfl
  | greaterOrEqual => exact Iff.rfl
  | like => exact absurd rfl h

namespace Condition

variable {c : Condition} {r : Reading α}

/-- A condition is true under a reading. -/
def Holds (r : Reading α) (c : Condition) : Prop :=
  match c.right with
  | .column ref => c.op.Holds r.Matches (r.value c.left) (r.value ref)
  | .subquery => r.subquery c.left c.op

/-- A pattern in one column for the text in another. -/
def IsPattern (c : Condition) : Prop := c.op = .like ∧ c.isSubquery = false

/-- Exchanging the sides of a condition keeps what it says, unless it is a pattern. -/
theorem holds_swap_iff (h : ¬c.IsPattern) : c.swap.Holds r ↔ c.Holds r := by
  obtain ⟨left, op, right⟩ := c
  cases right with
  | subquery => exact Iff.rfl
  | column ref =>
    have notLike : op ≠ .like := by
      rintro rfl
      exact h ⟨rfl, rfl⟩
    exact Comparison.holds_converse_iff notLike (r.value left) (r.value ref)

end Condition

namespace Inputs

open Problem

variable {inputs : Inputs} {p : Problem} {placed : PartialPlan} {planned : List PlannedJoin}
  {c : Condition}

/-! ## No two joins compare the same aliases -/

/-- After a join, its aliases are both read, so no later join compares the same two. -/
theorem pairwise_of_replay? (h : inputs.problem = .ok p)
    (replayed : p.replay? ∅ placed.joins = some placed)
    (plannedAs : List.Forall₂ inputs.IsPlannedAs placed.steps planned) :
    planned.Pairwise fun s t => t.condition.isSubquery = false →
      ¬∀ name, name ∈ t.condition.aliases → name ∈ s.condition.aliases := by
  rw [List.pairwise_iff_getElem]
  intro i j hi hj lt table same
  have split : planned = planned.take j ++ planned[j] :: planned.drop (j + 1) := by
    rw [← List.drop_eq_getElem_cons hj, List.take_append_drop]
  have earlier : planned[i] ∈ planned.take j := List.mem_take_iff_getElem.2
    ⟨i, lt_min lt hi, rfl⟩
  have once := connected_of_replay? h replayed plannedAs split (List.ne_nil_of_mem earlier)
  have named (name : String) (mem : name ∈ planned[j].condition.aliases) :
      ∃ s ∈ planned.take j, name ∈ s.condition.aliases :=
    ⟨_, earlier, same name mem⟩
  generalize planned[j].condition = c at table once named
  obtain ⟨left, op, right⟩ := c
  cases right with
  | subquery => exact absurd table (by simp [Condition.isSubquery, Operand.isSubquery])
  | column ref =>
    have left := named left.relation (by simp [Condition.aliases])
    have right := named ref.relation (by simp [Condition.aliases, Operand.column?])
    rcases once with ⟨-, notRight⟩ | ⟨-, notLeft⟩
    · exact notRight ⟨ref, rfl, right⟩
    · exact notLeft left

/-- A plan that lists a join of two tables as written does not list it exchanged as well. -/
theorem swap_eq_of_replay? (h : inputs.problem = .ok p)
    (replayed : p.replay? ∅ placed.joins = some placed)
    (plannedAs : List.Forall₂ inputs.IsPlannedAs placed.steps planned)
    (table : c.isSubquery = false) (written : c ∈ planned.map PlannedJoin.condition)
    (exchanged : c.swap ∈ planned.map PlannedJoin.condition) : c.swap = c := by
  obtain ⟨s, hs, eq⟩ := List.mem_map.1 written
  obtain ⟨t, ht, eq'⟩ := List.mem_map.1 exchanged
  obtain ⟨i, hi, rfl⟩ := List.mem_iff_getElem.1 hs
  obtain ⟨j, hj, rfl⟩ := List.mem_iff_getElem.1 ht
  have distinct := List.pairwise_iff_getElem.1 (pairwise_of_replay? h replayed plannedAs)
  rcases lt_trichotomy i j with lt | rfl | lt
  · refine absurd ?_ (distinct i j hi hj lt ?_)
    · simp [eq, eq', Condition.mem_aliases_swap]
    · simpa [eq'] using table
  · exact eq'.symm.trans eq
  · refine absurd ?_ (distinct j i hj hi lt ?_)
    · simp [eq, eq', Condition.mem_aliases_swap]
    · simpa [eq] using table

/-! ## The meaning of a plan -/

/-- The plan of all joins shows each of its steps. -/
theorem forall₂_of_placesAll (h : inputs.problem = .ok p) (placesAll : p.PlacesAll placed)
    (search : Search) :
    List.Forall₂ inputs.IsPlannedAs placed.steps (Plan.ofPartial p search placed).steps := by
  apply forall₂_filterMap_plannedJoin? h
  intro s mem
  exact lt_size_of_replay? placesAll.replay s.join (List.mem_map_of_mem mem)

/-- The planned conditions are those of the query, as written or exchanged. -/
theorem exists_of_mem_planned (plannedAs : List.Forall₂ inputs.IsPlannedAs placed.steps planned)
    (mem : c ∈ planned.map PlannedJoin.condition) :
    ∃ d ∈ inputs.query.joins, c = d ∨ c = d.swap := by
  obtain ⟨t, listed, rfl⟩ := List.mem_map.1 mem
  obtain ⟨s, -, shown⟩ := exists_of_mem_right plannedAs listed
  obtain ⟨d, found, eq, -⟩ := isPlannedAs_iff.1 shown
  exact ⟨d, List.mem_of_getElem? found, eq ▸ withOuter_eq_or d s.outer⟩

/-- Every condition of the query is planned, as written or exchanged. -/
theorem mem_planned_or (h : inputs.problem = .ok p) (placesAll : p.PlacesAll placed)
    (plannedAs : List.Forall₂ inputs.IsPlannedAs placed.steps planned)
    (mem : c ∈ inputs.query.joins) :
    c ∈ planned.map PlannedJoin.condition ∨ c.swap ∈ planned.map PlannedJoin.condition := by
  obtain ⟨i, hi, rfl⟩ := List.mem_iff_getElem.1 mem
  have inOrder : i ∈ placed.joins :=
    placesAll.perm.mem_iff.2 (List.mem_range.2 (size_of_problem h ▸ hi))
  obtain ⟨s, step, rfl⟩ := List.mem_map.1 inOrder
  obtain ⟨t, listed, shown⟩ := exists_of_mem_left plannedAs step
  obtain ⟨d, found, eq, -⟩ := isPlannedAs_iff.1 shown
  rw [List.getElem?_eq_getElem hi, Option.some.injEq] at found
  have condition : t.condition ∈ planned.map PlannedJoin.condition := List.mem_map_of_mem listed
  rw [eq, ← found] at condition
  rcases withOuter_eq_or inputs.query.joins[s.join] s.outer with as | as
  · exact .inl (as ▸ condition)
  · exact .inr (as ▸ condition)

/-- Exchanging the sides of a condition keeps what it says, unless it is a pattern. A plan says what
its query says, as long as each pattern that it does not list as written says the same of exchanged
sides. -/
theorem holds_conditions_iff (r : Reading α) :
    (∀ c : Condition, ¬c.IsPattern → (c.swap.Holds r ↔ c.Holds r)) ∧
    ∀ (inputs : Inputs) (search : Search) (plan : Plan), inputs.planWith search = .ok plan →
      (∀ c ∈ inputs.query.joins, c.IsPattern →
        c ∈ plan.conditions ∨ (c.swap.Holds r ↔ c.Holds r)) →
      ((∀ c ∈ plan.conditions, c.Holds r) ↔ ∀ c ∈ inputs.query.joins, c.Holds r) := by
  refine ⟨fun c => Condition.holds_swap_iff, ?_⟩
  intro inputs search plan ok kept
  obtain ⟨p, placed, problem, run, rfl⟩ := exists_of_planWith ok
  have placesAll := placesAll_of_run run
  have plannedAs := forall₂_of_placesAll problem placesAll search
  constructor
  · intro holds c mem
    rcases mem_planned_or problem placesAll plannedAs mem with written | exchanged
    · exact holds c written
    · by_cases pattern : c.IsPattern
      · rcases kept c mem pattern with written | same
        · exact holds c written
        · exact same.1 (holds c.swap exchanged)
      · exact (Condition.holds_swap_iff pattern).1 (holds c.swap exchanged)
  · intro holds c mem
    obtain ⟨d, joined, rfl | rfl⟩ := exists_of_mem_planned plannedAs mem
    · exact holds c joined
    · by_cases pattern : d.IsPattern
      · rcases kept d joined pattern with written | same
        · rw [swap_eq_of_replay? problem placesAll.replay plannedAs pattern.2 written mem]
          exact holds d joined
        · exact same.2 (holds d joined)
      · exact (Condition.holds_swap_iff pattern).2 (holds d joined)

/-! ## Patterns -/

/-- A query over a large table `a` and two small ones. -/
def patterns (joins : List Condition) : Inputs where
  query := { scans := ((Bindings.empty.bind "a" 1).bind "b" 2).bind "c" 3, joins }
  catalog := { tables := [
    { id := 1, name := "a", columns := [⟨"x", false⟩, ⟨"z", false⟩] },
    { id := 2, name := "b", columns := [⟨"y", false⟩] },
    { id := 3, name := "c", columns := [⟨"w", false⟩] }] }
  statistics := ((Bindings.empty.bind "a" { tuples := 10, pages := 10 }).bind
    "b" { tuples := 1, pages := 1 }).bind "c" { tuples := 1, pages := 1 }
  selectivities := ((Bindings.empty.bind "a" unfiltered).bind "b" unfiltered).bind "c" unfiltered

/-- The texts of the large table for the pattern in a small one. -/
def textInLarge : Condition := { left := ⟨"a", "x"⟩, op := .like, right := .column ⟨"b", "y"⟩ }

/-- The texts of the small table for the pattern in the large one. -/
def textInSmall : Condition := { left := ⟨"b", "y"⟩, op := .like, right := .column ⟨"a", "x"⟩ }

/-- A comparison of the large table with the other small one. -/
def lessThanSmall : Condition := { left := ⟨"a", "z"⟩, op := .less, right := .column ⟨"c", "w"⟩ }

/-- The columns of the small tables have the larger value, and a text matches smaller patterns. -/
def largerInSmall : Reading ℕ where
  value ref := if ref.relation = "a" then 0 else 1
  Matches := (· > ·)
  subquery _ _ := True

/-- The problem of the one pattern in a small table. -/
def textInLargeProblem : Problem where
  joins := #[
    { condition := textInLarge, left := 0, right := some 1, leftKeyed := false
      rightKeyed := false }]
  relations := #[⟨"a", { cost := 10, rows := 10 }⟩, ⟨"b", { cost := 1, rows := 1 }⟩]

/-- The greedy search runs the small table as the outer side, and so takes the pattern for the
text. -/
theorem planWith_textInLarge : (patterns [textInLarge]).planWith .greedy = .ok
    { search := .greedy
      steps := [{ condition := textInSmall, cost := 21, rows := 3 }]
      scans := textInLargeProblem.scans } := by
  have problem : (patterns [textInLarge]).problem = .ok textInLargeProblem := rfl
  have first : textInLargeProblem.cheapest? ∅ [0] =
      some { join := 0, outer := .right, cost := 21, rows := 3 } := by
    decide +kernel
  have greedy := calc textInLargeProblem.greedy
      = textInLargeProblem.greedyFrom ∅ [0] := rfl
    _ = textInLargeProblem.greedyFrom _ [] := greedyFrom_of_cheapest? first
    _ = _ := greedyFrom_nil _ _
  exact planWith_of_run problem .greedy greedy

/-- The plan may hold where the query does not. -/
theorem not_holds_conditions_iff :
    ¬∀ (inputs : Inputs) (search : Search) (plan : Plan) (r : Reading ℕ),
      inputs.planWith search = .ok plan →
        ((∀ c ∈ plan.conditions, c.Holds r) ↔ ∀ c ∈ inputs.query.joins, c.Holds r) := by
  intro claim
  have same := claim (patterns [textInLarge]) .greedy _ largerInSmall planWith_textInLarge
  have holds : ∀ c ∈ [textInSmall], c.Holds largerInSmall := by
    simp [textInSmall, Condition.Holds, Comparison.Holds, largerInSmall]
  have fails := same.1 holds textInLarge List.mem_cons_self
  simp [textInLarge, Condition.Holds, Comparison.Holds, largerInSmall] at fails

/-- The problem of a pattern in the large table and a comparison. -/
def textInSmallProblem : Problem where
  joins := #[
    { condition := textInSmall, left := 0, right := some 1, leftKeyed := false
      rightKeyed := false },
    { condition := lessThanSmall, left := 1, right := some 2, leftKeyed := false
      rightKeyed := false }]
  relations := #[⟨"b", { cost := 1, rows := 1 }⟩, ⟨"a", { cost := 10, rows := 10 }⟩,
    ⟨"c", { cost := 1, rows := 1 }⟩]

/-- The greedy search lists this pattern as written, and exchanges the comparison. -/
theorem planWith_textInSmall : (patterns [textInSmall, lessThanSmall]).planWith .greedy = .ok
    { search := .greedy
      steps := [{ condition := textInSmall, cost := 21, rows := 3 },
        { condition := lessThanSmall.swap, cost := 25, rows := 0 }]
      scans := textInSmallProblem.scans } := by
  have problem : (patterns [textInSmall, lessThanSmall]).problem = .ok textInSmallProblem := rfl
  have first : textInSmallProblem.cheapest? ∅ [0, 1] =
      some { join := 0, outer := .left, cost := 21, rows := 3 } := by
    decide +kernel
  have second : textInSmallProblem.cheapest? (PartialPlan.extend ∅
      { join := 0, outer := .left, cost := 21, rows := 3 }) [1] =
      some { join := 1, outer := .right, cost := 25, rows := 0 } := by
    decide +kernel
  have greedy := calc textInSmallProblem.greedy
      = textInSmallProblem.greedyFrom ∅ [0, 1] := rfl
    _ = textInSmallProblem.greedyFrom _ [1] := greedyFrom_of_cheapest? first
    _ = textInSmallProblem.greedyFrom _ [] := greedyFrom_of_cheapest? second
    _ = _ := greedyFrom_nil _ _
  exact planWith_of_run problem .greedy greedy

/-- This plan says what its query says. -/
theorem textInSmall_holds_conditions :
    ((patterns [textInSmall, lessThanSmall]).planWith .greedy = .ok
        { search := .greedy
          steps := [{ condition := textInSmall, cost := 21, rows := 3 },
            { condition := lessThanSmall.swap, cost := 25, rows := 0 }]
          scans := textInSmallProblem.scans } ∧
      ¬lessThanSmall.IsPattern ∧ textInSmall.IsPattern) ∧
    (lessThanSmall.swap.Holds largerInSmall ↔ lessThanSmall.Holds largerInSmall) ∧
    ((∀ c ∈ [textInSmall, lessThanSmall.swap], c.Holds largerInSmall) ↔
      ∀ c ∈ [textInSmall, lessThanSmall], c.Holds largerInSmall) := by
  have notPattern : ¬lessThanSmall.IsPattern := by simp [Condition.IsPattern, lessThanSmall]
  obtain ⟨swapped, plans⟩ := holds_conditions_iff largerInSmall
  refine ⟨⟨planWith_textInSmall, notPattern, rfl, rfl⟩, swapped lessThanSmall notPattern, ?_⟩
  refine plans _ _ _ planWith_textInSmall ?_
  intro c mem pattern
  rcases List.mem_pair.1 mem with rfl | rfl
  · exact .inl List.mem_cons_self
  · exact absurd pattern notPattern

end Inputs
end LeftDeep
