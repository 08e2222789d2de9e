import Mathlib.Data.Finset.Lattice.Fold
import LeftDeep.Proofs.Search.Connectivity
import LeftDeep.Proofs.Search.GreedyBound

/-!
# When the exhaustive search finds the cheapest plan

The exhaustive search keeps one plan of each set of joins, the cheapest. Nothing is lost by it if
the plans of a set all yield the same number of rows. That is so if all joins are equalities that
compare no primary key: the rows of a plan are then those of the largest scan it reads.

## Main definitions

* `Join.IsPlain`: an equality or a sub-query join without primary keys.
* `Problem.scanRows`: the rows of a relation's scan.

## Main statements

* `Problem.rows_of_replay?`: the rows of a plan of plain joins.
* `Problem.exhaustive_le_of_isPlain`: no order of plain joins is cheaper than the plan that the
  exhaustive search finds.
* `Inputs.exhaustive_le_order`: the same for the joins of a query.
-/

namespace LeftDeep

open Double Multigraph

/-- An equality between two relations, or a join with a sub-query, neither of which compares a
primary key. -/
structure Join.IsPlain (j : Join) : Prop where
  isSubquery : j.condition.isSubquery = j.right.isNone
  equal : j.condition.isSubquery = false → j.condition.op = .equal
  unkeyed : j.hasKey = false

namespace Join

variable {j : Join} {l r : Side}

/-- Exchanging the sides of a condition keeps its kind. -/
theorem kind_withOuter (c : Condition) (outer : OuterSide) :
    (c.withOuter outer).isSubquery = c.isSubquery ∧
      (c.withOuter outer).op.isEqual = c.op.isEqual := by
  cases outer <;> simp [Condition.withOuter]

/-- An equality without keys yields as many rows as its larger input, whichever way it runs. -/
theorem toNat_rows_of_equal (table : j.condition.isSubquery = false)
    (equal : j.condition.op = .equal) {a : Arrangement} (outer : a.outer.keyed = false)
    (inner : a.inner.keyed = false) :
    (j.rows a).toNat = max a.outer.rows.toNat a.inner.rows.toNat := by
  obtain ⟨kind, op⟩ := kind_withOuter j.condition a.outerSide
  have isEqual : j.condition.op.isEqual = true := by
    rw [equal]
    rfl
  rw [table] at kind
  rw [isEqual] at op
  rw [rows, Condition.joinRows, kind, if_neg Bool.false_ne_true, Comparison.joinRows, if_pos op,
    outer, inner, if_neg Bool.false_ne_true, if_neg Bool.false_ne_true]
  exact UInt64.toNat_max _ _

/-- A plain join yields as many rows as its larger input. -/
theorem IsPlain.toNat_rows (plain : j.IsPlain) (left : l.keyed = false) (right : r.keyed = false)
    (absent : j.right = none → r.rows = 0) :
    (j.rows (j.arrange l r)).toNat = max l.rows.toNat r.rows.toNat := by
  cases table : j.condition.isSubquery with
  | true =>
    have none : j.right = none := by
      rw [plain.isSubquery, Option.isNone_iff_eq_none] at table
      exact table
    simp [arrange, leftOuter, rows, Condition.joinRows, Condition.withOuter, table, absent none]
  | false =>
    have equal := plain.equal table
    rcases arrange_eq_or j l r with eq | ⟨eq, -⟩
    · rw [eq]
      exact toNat_rows_of_equal table equal left right
    · rw [eq, toNat_rows_of_equal table equal right left]
      exact max_comm _ _

end Join

namespace Problem

variable {p : Problem} {plan plan' best : PartialPlan} {order order' : List ℕ} {index : ℕ}
  {s : Step} {table : PlanTable}

/-- The rows of a relation's scan. -/
def scanRows (p : Problem) (relation : ℕ) : ℕ := (p.scanned (some relation) false).rows.toNat

theorem toNat_rows_scanned (relation : ℕ) (keyed : Bool) :
    (p.scanned (some relation) keyed).rows.toNat = p.scanRows relation := by
  rw [scanRows, scanned, scanned]
  cases (some relation).bind fun r => p.relations[r]? <;> rfl

/-- The side of a sub-query yields no rows. -/
theorem toNat_rows_scanned_right (relation : Option ℕ) (keyed : Bool) :
    (p.scanned relation keyed).rows.toNat = relation.elim 0 p.scanRows := by
  cases relation with
  | none => rfl
  | some relation => exact toNat_rows_scanned relation keyed

theorem keyed_scanned (relation : Option ℕ) : (p.scanned relation false).keyed = false := by
  rw [scanned]
  cases relation.bind fun r => p.relations[r]? <;> rfl

/-- Plans of joins without keys have no key. -/
theorem keyed_planned (unkeyed : ∀ j ∈ p.joins, j.hasKey = false) (plan : PartialPlan) :
    (p.planned plan).keyed = false := by
  change p.hasKey plan.steps = false
  rw [hasKey, any_steps, List.any_eq_false]
  intro i _
  cases found : p.joins[i]? with
  | none => simp
  | some j => simp [unkeyed j (Array.mem_of_getElem? found)]

/-- The rows of the largest scan that joins read. -/
def maxRows (p : Problem) (order : List ℕ) : ℕ := (ofEnds (p.ends order)).vertices.sup p.scanRows

theorem maxRows_nil : p.maxRows [] = 0 := rfl

theorem scanRows_le_maxRows {relation : ℕ} (read : p.isRead plan.steps relation = true) :
    p.scanRows relation ≤ p.maxRows plan.joins :=
  Finset.le_sup (f := p.scanRows) (isRead_iff.1 read)

/-- The larger scan of a join's sides. -/
theorem sup_vertices_ends (j : Join) : (ofEnds [j.ends]).vertices.sup p.scanRows =
    max (p.scanRows j.left) (j.right.elim 0 p.scanRows) := by
  rw [vertices_singleton, Ends.vertices, List.toFinset_cons, Finset.sup_insert]
  cases right : j.right <;> simp [Join.ends, right]

theorem maxRows_concat {j : Join} (found : p.joins[index]? = some j) :
    p.maxRows (order ++ [index]) =
      max (p.maxRows order) (max (p.scanRows j.left) (j.right.elim 0 p.scanRows)) := by
  rw [maxRows, ends_append, ends_cons found, ends_nil, vertices_append, Finset.sup_union,
    sup_vertices_ends]
  rfl

/-- The joins read the same relations in any order. -/
theorem maxRows_congr (same : ∀ i, i ∈ order ↔ i ∈ order') :
    p.maxRows order = p.maxRows order' := by
  have vertices : (ofEnds (p.ends order)).vertices = (ofEnds (p.ends order')).vertices := by
    ext relation
    simp only [mem_vertices_ofEnds, mem_ends, same]
  rw [maxRows, maxRows, vertices]

/-- If a plan yields the rows of its largest scan, it still does with one more plain join. -/
theorem toNat_rows_of_nextStep? (plain : ∀ j ∈ p.joins, j.IsPlain)
    (rows : plan.rows.toNat = p.maxRows plan.joins) (step : p.nextStep? plan index = some s) :
    s.rows.toNat = p.maxRows (plan.joins ++ [index]) := by
  obtain ⟨j, l, r, found, sides, rfl⟩ := nextStep?_eq_some_iff.1 step
  have plainJoin := plain j (Array.mem_of_getElem? found)
  obtain ⟨leftKeyed, rightKeyed⟩ : j.leftKeyed = false ∧ j.rightKeyed = false := by
    simpa [Join.hasKey] using plainJoin.unkeyed
  have planKeyed := keyed_planned (fun j mem => (plain j mem).unkeyed) plan
  have planRows : (p.planned plan).rows.toNat = p.maxRows plan.joins := rows
  have absent : j.right = none → (p.scanned j.right false).rows = 0 := by
    intro none
    rw [none]
    rfl
  rw [maxRows_concat found]
  -- A side that the plan reads already adds no larger scan.
  rcases sides?_eq_some sides with
    ⟨empty, rfl, rfl⟩ | ⟨-, read, -, rfl, rfl⟩ | ⟨-, -, read, rfl, rfl⟩
  · rw [leftKeyed, rightKeyed, plainJoin.toNat_rows (keyed_scanned _) (keyed_scanned _) absent,
      toNat_rows_scanned, toNat_rows_scanned_right, PartialPlan.isEmpty_iff.1 empty, maxRows_nil,
      Nat.zero_max]
  · have le := scanRows_le_maxRows read
    rw [rightKeyed, plainJoin.toNat_rows planKeyed (keyed_scanned _) absent, planRows,
      toNat_rows_scanned_right]
    omega
  · obtain ⟨relation, right, read⟩ := (Option.any_eq_true _ _).1 read
    have le := scanRows_le_maxRows read
    have present : j.right = none → (p.planned plan).rows = 0 := by
      intro none
      rw [right] at none
      exact absurd none (by simp)
    rw [leftKeyed, plainJoin.toNat_rows (keyed_scanned _) planKeyed present, planRows,
      toNat_rows_scanned, right, Option.elim_some]
    omega

/-- The rows of a plan of plain joins are those of its largest scan. -/
theorem rows_of_replay? (plain : ∀ j ∈ p.joins, j.IsPlain) (h : p.replay? ∅ order = some plan) :
    plan.rows.toNat = p.maxRows order := by
  induction order using List.reverseRecOn generalizing plan with
  | nil =>
    obtain rfl := Option.some.inj h
    rfl
  | append_singleton order last ih =>
    obtain ⟨prior, s, replayed, step, rfl⟩ := replay?_concat_eq_some_iff.1 h
    have joins := joins_of_replay?_empty replayed
    rw [PartialPlan.rows_extend, ← joins]
    exact toNat_rows_of_nextStep? plain (joins ▸ ih replayed) step

/-- Plans of the same plain joins yield the same rows. -/
theorem rows_eq_of_mem_iff (plain : ∀ j ∈ p.joins, j.IsPlain)
    (h : p.replay? ∅ order = some plan) (h' : p.replay? ∅ order' = some plan')
    (same : ∀ i, i ∈ order ↔ i ∈ order') : plan.rows = plan'.rows := by
  apply UInt64.toNat_inj.1
  rw [rows_of_replay? plain h, rows_of_replay? plain h', maxRows_congr same]

/-- No prefix of a plan of plain joins is outgrown. -/
theorem not_outgrownAt (isPlanTable : p.IsPlanTable table) (h : p.size ≤ IndexSet.capacity)
    (plain : ∀ j ∈ p.joins, j.IsPlain) {k : ℕ} : ¬p.OutgrownAt table plan k := by
  intro outgrown
  obtain ⟨order, part, other, -, same, replayed, replayed', less⟩ :=
    isPlanTable.exists_order_of_outgrownAt h outgrown
  rw [rows_eq_of_mem_iff plain replayed' replayed same] at less
  exact UInt64.lt_irrefl _ less

theorem StepsAreFinite.of_replay? (finite : p.StepsAreFinite) (nodup : order.Nodup)
    (h : p.replay? ∅ order = some plan) : ∀ s ∈ plan.steps, s.cost.isFinite = true := by
  induction order using List.reverseRecOn generalizing plan with
  | nil =>
    obtain rfl := Option.some.inj h
    intro s mem
    exact absurd mem (List.not_mem_nil)
  | append_singleton order last ih =>
    obtain ⟨prior, s, replayed, step, rfl⟩ := replay?_concat_eq_some_iff.1 h
    intro s' mem
    rcases List.mem_append.1 mem with mem | mem
    · exact ih (List.nodup_append.1 nodup).1 replayed s' mem
    · obtain rfl := List.mem_singleton.1 mem
      exact finite order last prior s' nodup replayed step

/-- The plan that the exhaustive search finds for plain joins is the cheapest of all orders. -/
theorem exhaustive_le_of_isPlain (plain : ∀ j ∈ p.joins, j.IsPlain) (scans : p.ScansAreProper)
    (finite : p.StepsAreFinite) (found : p.exhaustive = .ok best)
    (perm : order.Perm (List.range p.size)) (replayed : p.replay? ∅ order = some plan) :
    best.cost ≤ plan.cost := by
  rcases Nat.eq_zero_or_pos p.size with zero | pos
  · rw [exhaustive_of_size_eq_zero zero] at found
    rw [zero, List.range_zero, List.perm_nil] at perm
    rw [perm] at replayed
    obtain rfl := Except.ok.inj found
    obtain rfl := Option.some.inj replayed
    exact le_refl isNaN_zero
  · obtain ⟨table, -, isPlanTable, small, entry⟩ := exists_entry_of_exhaustive pos found
    have nodup : order.Nodup := perm.symm.nodup List.nodup_range
    rcases isMatched_or_exists_outgrownAt isPlanTable small scans nodup (ne_nil_of_perm pos perm)
      replayed (finite.of_replay? nodup replayed) with ⟨entry', found', le, -⟩ | ⟨k, -, -, outgrown⟩
    · have all : IndexSet.ofList plan.joins = p.allJoins := by
        rw [joins_of_replay?_empty replayed]
        exact IndexSet.ofList_eq_of_perm (perm.trans (toList_allJoins small).symm)
      rw [all, entry] at found'
      obtain rfl := Option.some.inj found'
      exact le
    · exact absurd outgrown (not_outgrownAt isPlanTable small plain)

/-- Two plain joins of tables and one with a sub-query. -/
def plainJoins : Problem where
  joins := #[
    { condition := { left := ⟨"a", "x"⟩, op := .equal, right := .column ⟨"b", "x"⟩ }
      left := 0, right := some 1, leftKeyed := false, rightKeyed := false },
    { condition := { left := ⟨"b", "y"⟩, op := .equal, right := .column ⟨"c", "y"⟩ }
      left := 1, right := some 2, leftKeyed := false, rightKeyed := false },
    { condition := { left := ⟨"a", "z"⟩, op := .less, right := .subquery }
      left := 0, right := none, leftKeyed := false, rightKeyed := false }]
  relations := #[⟨"a", { cost := 3, rows := 3 }⟩, ⟨"b", { cost := 2, rows := 2 }⟩,
    ⟨"c", { cost := 4, rows := 4 }⟩]

theorem plainJoins_stepsAreFinite : plainJoins.StepsAreFinite :=
  stepsAreFinite_of_orders (by decide +kernel)

theorem plainJoins_scansAreProper : plainJoins.ScansAreProper := by decide +kernel

end Problem

namespace Inputs

variable {inputs : Inputs} {p : Problem} {best plan : PartialPlan} {order : List ℕ}

/-- A join of a query's problem has a relation on its right, unless that side is a sub-query. -/
theorem isSubquery_of_problem (h : inputs.problem = .ok p) :
    ∀ j ∈ p.joins, j.condition.isSubquery = j.right.isNone := by
  intro j mem
  rw [joins_of_problem h, List.mem_toArray, List.mem_map] at mem
  obtain ⟨⟨left, op, right⟩, -, rfl⟩ := mem
  cases right <;> rfl

/-- If all joins of tables are equalities and no join compares a primary key, the plan that the
exhaustive search finds costs no more than any order of the joins. -/
theorem exhaustive_le_order (h : inputs.problem = .ok p)
    (equal : ∀ j ∈ p.joins, j.condition.isSubquery = false → j.condition.op = .equal)
    (unkeyed : ∀ j ∈ p.joins, j.hasKey = false) (scans : p.ScansAreProper)
    (finite : p.StepsAreFinite) (found : p.exhaustive = .ok best)
    (perm : order.Perm (List.range p.size)) (replayed : p.replay? ∅ order = some plan) :
    best.cost ≤ plan.cost := by
  have plain : ∀ j ∈ p.joins, j.IsPlain := by
    intro j mem
    exact ⟨isSubquery_of_problem h j mem, equal j mem, unkeyed j mem⟩
  exact Problem.exhaustive_le_of_isPlain plain scans finite found perm replayed

/-- A query that poses the problem of the plain joins. -/
def plainJoins : Inputs where
  query :=
    { scans := ((Bindings.empty.bind "a" 1).bind "b" 2).bind "c" 3
      joins := [
        { left := ⟨"a", "x"⟩, op := .equal, right := .column ⟨"b", "x"⟩ },
        { left := ⟨"b", "y"⟩, op := .equal, right := .column ⟨"c", "y"⟩ },
        { left := ⟨"a", "z"⟩, op := .less, right := .subquery }] }
  catalog := { tables := [
    { id := 1, name := "a", columns := [⟨"x", false⟩, ⟨"z", false⟩] },
    { id := 2, name := "b", columns := [⟨"x", false⟩, ⟨"y", false⟩] },
    { id := 3, name := "c", columns := [⟨"y", false⟩] }] }
  statistics := ((Bindings.empty.bind "a" { tuples := 3, pages := 3 }).bind
    "b" { tuples := 2, pages := 2 }).bind "c" { tuples := 4, pages := 4 }
  selectivities := ((Bindings.empty.bind "a" unfiltered).bind "b" unfiltered).bind "c" unfiltered

set_option maxRecDepth 20000 in
theorem problem_plainJoins : plainJoins.problem = .ok Problem.plainJoins := rfl

/-- The plan of the plain joins against the order that starts with the sub-query. -/
theorem plainJoins_exhaustive_le :
    (plainJoins.problem = .ok Problem.plainJoins ∧
      (∀ j ∈ Problem.plainJoins.joins, j.condition.isSubquery = false → j.condition.op = .equal) ∧
      (∀ j ∈ Problem.plainJoins.joins, j.hasKey = false) ∧ Problem.plainJoins.ScansAreProper ∧
      Problem.plainJoins.StepsAreFinite ∧ [2, 0, 1].Perm (List.range Problem.plainJoins.size)) ∧
    ∃ best plan, Problem.plainJoins.exhaustive = .ok best ∧
      Problem.plainJoins.replay? ∅ [2, 0, 1] = some plan ∧ best.cost ≤ plan.cost := by
  have equal : ∀ j ∈ Problem.plainJoins.joins,
      j.condition.isSubquery = false → j.condition.op = .equal := by decide
  have unkeyed : ∀ j ∈ Problem.plainJoins.joins, j.hasKey = false := by decide
  have perm : [2, 0, 1].Perm (List.range Problem.plainJoins.size) := by decide
  have free : Problem.plainJoins.CrossProductFree [2, 0, 1] := by
    rw [Problem.CrossProductFree]
    decide +kernel
  obtain ⟨best, found⟩ := Problem.exists_exhaustive_of_crossProductFree (by decide)
    Problem.plainJoins_stepsAreFinite.stepsBelowInfinity.dropsNothing perm free
  obtain ⟨plan, replayed⟩ := Option.isSome_iff_exists.1 free
  exact ⟨⟨problem_plainJoins, equal, unkeyed, Problem.plainJoins_scansAreProper,
    Problem.plainJoins_stepsAreFinite, perm⟩, best, plan, found, replayed,
    exhaustive_le_order problem_plainJoins equal unkeyed Problem.plainJoins_scansAreProper
      Problem.plainJoins_stepsAreFinite found perm replayed⟩

end Inputs
end LeftDeep
