import Mathlib.Data.List.Induction
import Mathlib.Data.List.Permutation
import Mathlib.Data.List.Sublists
import LeftDeep.Problem.Basic

/-!
# Replaying an order of joins

A plan can be rebuilt from the order of its joins alone, by appending them to the empty plan one
after another. Whether a join can be appended depends only on which joins are placed, and the step
that appends it depends besides on the estimate of the plan so far.

## Main definitions

* `Problem.replay?`: the plan that places joins in a given order.
* `Problem.CrossProductFree`: the orders that can be replayed.
* `PartialPlan.SamePlaced`: two plans place the same joins.

## Main statements

* `Problem.joins_of_replay?`: replaying places the joins of the order.
* `Problem.isSome_nextStep?_congr`: acceptance depends on the placed joins only.
-/

namespace LeftDeep

/-- Two plans place the same joins, in whatever order. -/
def PartialPlan.SamePlaced (plan plan' : PartialPlan) : Prop :=
  ∀ i, i ∈ plan.joins ↔ i ∈ plan'.joins

theorem PartialPlan.samePlaced_of_perm {plan plan' : PartialPlan}
    (h : plan.joins.Perm plan'.joins) :
    plan.SamePlaced plan' := by
  intro i
  exact h.mem_iff

theorem PartialPlan.isEmpty_iff {plan : PartialPlan} : plan.isEmpty = true ↔ plan.joins = [] := by
  simp [isEmpty, joins]

theorem PartialPlan.SamePlaced.isEmpty_eq {plan plan' : PartialPlan} (h : plan.SamePlaced plan') :
    plan.isEmpty = plan'.isEmpty := by
  rw [Bool.eq_iff_iff, isEmpty_iff, isEmpty_iff, List.eq_nil_iff_forall_not_mem,
    List.eq_nil_iff_forall_not_mem]
  exact forall_congr' fun i => not_congr (h i)

namespace Problem

open PartialPlan

variable {p : Problem} {plan plan' : PartialPlan} {index : ℕ} {order : List ℕ}

/-! ## What a step depends on -/

theorem any_steps (plan : PartialPlan) (f : Join → Bool) :
    (plan.steps.any fun s => p.joins[s.join]?.any f) =
      plan.joins.any fun i => p.joins[i]?.any f := by
  rw [PartialPlan.joins, List.any_map]
  rfl

theorem SamePlaced.any_steps_eq (h : plan.SamePlaced plan') (f : Join → Bool) :
    (plan.steps.any fun s => p.joins[s.join]?.any f) =
      plan'.steps.any fun s => p.joins[s.join]?.any f := by
  rw [any_steps, any_steps, Bool.eq_iff_iff, List.any_eq_true, List.any_eq_true]
  exact exists_congr fun i => and_congr_left' (h i)

theorem SamePlaced.isRead_eq (h : plan.SamePlaced plan') :
    p.isRead plan.steps = p.isRead plan'.steps :=
  funext fun r => any_steps_eq h fun j => j.reads r

/-- How a join is appended: as the first one, with the plan on its left, or with the plan on its
right. -/
theorem sides?_eq_some {j : Join} {left right : Side} (h : p.sides? plan j = some (left, right)) :
    (plan.isEmpty = true ∧ left = p.scanned (some j.left) j.leftKeyed ∧
      right = p.scanned j.right j.rightKeyed) ∨
    (plan.isEmpty = false ∧ p.isRead plan.steps j.left = true ∧
      j.right.any (p.isRead plan.steps) = false ∧
      left = p.planned plan ∧ right = p.scanned j.right j.rightKeyed) ∨
    (plan.isEmpty = false ∧ p.isRead plan.steps j.left = false ∧
      j.right.any (p.isRead plan.steps) = true ∧
      left = p.scanned (some j.left) j.leftKeyed ∧ right = p.planned plan) := by
  rw [sides?] at h
  by_cases empty : plan.isEmpty = true
  · rw [if_pos empty] at h
    obtain ⟨rfl, rfl⟩ := Prod.mk.inj (Option.some.inj h)
    exact .inl ⟨empty, rfl, rfl⟩
  · have nonempty : plan.isEmpty = false := Bool.eq_false_iff.2 empty
    rw [if_neg empty] at h
    split at h
    · next readsLeft skipsRight =>
      obtain ⟨rfl, rfl⟩ := Prod.mk.inj (Option.some.inj h)
      exact .inr (.inl ⟨nonempty, readsLeft, skipsRight, rfl, rfl⟩)
    · next skipsLeft readsRight =>
      obtain ⟨rfl, rfl⟩ := Prod.mk.inj (Option.some.inj h)
      exact .inr (.inr ⟨nonempty, skipsLeft, readsRight, rfl, rfl⟩)
    · exact absurd h (by simp)

/-- A join can be appended when the plan is empty or reads exactly one of its sides. -/
theorem isSome_sides?_iff {j : Join} :
    (p.sides? plan j).isSome = true ↔ (plan.isEmpty ||
      (p.isRead plan.steps j.left ^^ j.right.any (p.isRead plan.steps))) = true := by
  rw [sides?]
  cases plan.isEmpty
  · cases p.isRead plan.steps j.left <;> cases j.right.any (p.isRead plan.steps) <;> simp
  · simp

theorem nextStep?_eq_some_iff {s : Step} :
    p.nextStep? plan index = some s ↔
      ∃ j left right, p.joins[index]? = some j ∧ p.sides? plan j = some (left, right) ∧
        s = { join := index, outer := (j.arrange left right).outerSide
              cost := (j.arrange left right).cost, rows := j.rows (j.arrange left right) } := by
  simp only [nextStep?, bind, Option.bind_eq_some_iff, Prod.exists, Option.some.injEq]
  constructor
  · rintro ⟨j, found, left, right, sides, rfl⟩
    exact ⟨j, left, right, found, sides, rfl⟩
  · rintro ⟨j, left, right, found, sides, rfl⟩
    exact ⟨j, found, left, right, sides, rfl⟩

theorem isSome_nextStep?_iff :
    (p.nextStep? plan index).isSome = true ↔
      ∃ j, p.joins[index]? = some j ∧ (p.sides? plan j).isSome = true := by
  rw [nextStep?]
  cases p.joins[index]? with
  | none => simp
  | some j => cases h : p.sides? plan j <;> simp [h]

/-- Whether a join can be appended depends only on which joins are placed. -/
theorem isSome_nextStep?_congr (h : plan.SamePlaced plan') :
    (p.nextStep? plan index).isSome = (p.nextStep? plan' index).isSome := by
  rw [Bool.eq_iff_iff, isSome_nextStep?_iff, isSome_nextStep?_iff]
  simp only [isSome_sides?_iff, h.isEmpty_eq, SamePlaced.isRead_eq h]

theorem lt_size_of_nextStep? {s : Step} (h : p.nextStep? plan index = some s) : index < p.size := by
  obtain ⟨j, -, -, hj, -⟩ := nextStep?_eq_some_iff.1 h
  exact (Array.getElem?_eq_some_iff.1 hj).1

/-! ## Replaying -/

/-- The plan followed by one more join, unless that needs a cross product. -/
def append? (p : Problem) (plan : PartialPlan) (index : ℕ) : Option PartialPlan :=
  (p.nextStep? plan index).map plan.extend

/-- The plan that places joins in the given order after those of a plan, unless one of them needs
a cross product. -/
def replay? (p : Problem) (plan : PartialPlan) (order : List ℕ) : Option PartialPlan :=
  order.foldlM p.append? plan

/-- An order in which joins can be placed without a cross product. -/
def CrossProductFree (p : Problem) (order : List ℕ) : Prop :=
  (p.replay? ∅ order).isSome = true

theorem append?_eq_some_iff :
    p.append? plan index = some plan' ↔
      ∃ s, p.nextStep? plan index = some s ∧ plan' = plan.extend s := by
  simp only [append?, Option.map_eq_some_iff, @eq_comm _ plan']

theorem replay?_append (first second : List ℕ) :
    p.replay? plan (first ++ second) = (p.replay? plan first).bind (p.replay? · second) := by
  simp [replay?, List.foldlM_append, bind]

theorem replay?_concat : p.replay? plan (order ++ [index]) =
    (p.replay? plan order).bind (p.append? · index) := by
  rw [replay?_append]
  simp [replay?]

/-- The last join of an order is appended to the plan that places the others. -/
theorem replay?_concat_eq_some_iff :
    p.replay? plan (order ++ [index]) = some plan' ↔
      ∃ prior s, p.replay? plan order = some prior ∧ p.nextStep? prior index = some s ∧
        plan' = prior.extend s := by
  rw [replay?_concat, Option.bind_eq_some_iff]
  simp only [append?_eq_some_iff]
  constructor
  · rintro ⟨prior, replayed, s, step, rfl⟩
    exact ⟨prior, s, replayed, step, rfl⟩
  · rintro ⟨prior, s, replayed, step, rfl⟩
    exact ⟨prior, replayed, s, step, rfl⟩

/-- Replaying places the joins of the order, after those already placed. -/
theorem joins_of_replay? (h : p.replay? plan order = some plan') :
    plan'.joins = plan.joins ++ order := by
  induction order using List.reverseRecOn generalizing plan' with
  | nil =>
    obtain rfl := Option.some.inj h
    simp
  | append_singleton order index ih =>
    obtain ⟨prior, s, hp, hs, rfl⟩ := replay?_concat_eq_some_iff.1 h
    rw [joins_extend, ih hp, join_of_nextStep? hs, List.append_assoc]

theorem joins_of_replay?_empty (h : p.replay? ∅ order = some plan) : plan.joins = order :=
  joins_of_replay? h

theorem lt_size_of_replay? (h : p.replay? ∅ order = some plan) : ∀ i ∈ order, i < p.size := by
  induction order using List.reverseRecOn generalizing plan with
  | nil => simp
  | append_singleton order index ih =>
    obtain ⟨prior, s, hp, hs, rfl⟩ := replay?_concat_eq_some_iff.1 h
    intro i mem
    rcases List.mem_append.1 mem with mem | mem
    · exact ih hp i mem
    · obtain rfl := List.mem_singleton.1 mem
      exact lt_size_of_nextStep? hs

/-- An order without its last join is free of cross products if the whole is. -/
theorem CrossProductFree.of_append {second : List ℕ} (h : p.CrossProductFree (order ++ second)) :
    p.CrossProductFree order := by
  rw [CrossProductFree, replay?_append] at h
  exact Option.isSome_of_isSome_bind h

/-! ## All orders -/

/-- The orders of joins below a bound, none placed twice. -/
def orders (n : ℕ) : List (List ℕ) := (List.range n).sublists'.flatMap List.permutations'

theorem mem_orders {n : ℕ} (nodup : order.Nodup) (h : ∀ i ∈ order, i < n) : order ∈ orders n := by
  have range : ∀ i ∈ order, i ∈ List.range n := by
    intro i mem
    exact List.mem_range.2 (h i mem)
  obtain ⟨part, perm, sub⟩ := nodup.subperm range
  exact List.mem_flatMap.2 ⟨part, List.mem_sublists'.2 sub, List.mem_permutations'.2 perm.symm⟩

/-- The costs along all orders of a problem's joins are finite. -/
def StepsAreFinite (p : Problem) : Prop :=
  ∀ order last plan s, (order ++ [last]).Nodup → p.replay? ∅ order = some plan →
    p.nextStep? plan last = some s → s.cost.isFinite = true

/-- It is enough to look at the plans that the orders of a problem's joins lead to. -/
theorem stepsAreFinite_of_orders (h : ∀ order ∈ orders p.size, ∀ plan ∈ p.replay? ∅ order,
    ∀ s ∈ plan.steps, s.cost.isFinite = true) : p.StepsAreFinite := by
  intro order last plan s nodup replayed step
  have whole : p.replay? ∅ (order ++ [last]) = some (plan.extend s) :=
    replay?_concat_eq_some_iff.2 ⟨plan, s, replayed, step, rfl⟩
  have mem := mem_orders nodup (lt_size_of_replay? whole)
  exact h _ mem _ whole s (by simp)

/-- A chain of three joins between four tables, the third of them with a primary key. -/
def chain : Problem where
  joins := #[
    { condition := { left := ⟨"a", "x"⟩, op := .equal, right := .column ⟨"b", "x"⟩ }
      left := 0, right := some 1, leftKeyed := false, rightKeyed := false },
    { condition := { left := ⟨"a", "y"⟩, op := .equal, right := .column ⟨"c", "id"⟩ }
      left := 0, right := some 2, leftKeyed := false, rightKeyed := true },
    { condition := { left := ⟨"c", "z"⟩, op := .equal, right := .column ⟨"d", "z"⟩ }
      left := 2, right := some 3, leftKeyed := false, rightKeyed := false }]
  relations := #[⟨"a", { cost := 3, rows := 3 }⟩, ⟨"b", { cost := 2, rows := 2 }⟩,
    ⟨"c", { cost := 1, rows := 1 }⟩, ⟨"d", { cost := 4, rows := 4 }⟩]

theorem chain_stepsAreFinite : chain.StepsAreFinite :=
  stepsAreFinite_of_orders (by decide +kernel)

/-- The joins of the chain can be placed from either end, but not both ends first. -/
example : (chain.replay? ∅ [2, 1, 0]).isSome = true ∧
    (chain.replay? ∅ [0, 2, 1]).isSome = false := by
  decide +kernel

end Problem
end LeftDeep
