import LeftDeep.Proofs.Graph.Growth
import LeftDeep.Proofs.Search.Replay

/-!
# The graph of a problem

The joins of a problem are the edges of a graph over its relations. Whether a join can be appended
to a plan is a question about this graph alone: replaying an order grows it join by join.

## Main definitions

* `Problem.ends`: what the joins of an order read.
* `Problem.IsLoop`: a join of a relation with itself.

## Main statements

* `Problem.isSome_nextStep?_iff_attaches`: a join can be appended when it attaches.
* `Problem.grown_of_replay?`: an order that can be replayed has grown.
-/

namespace LeftDeep

/-- The relations that a join reads. -/
def Join.ends (j : Join) : Ends ℕ := ⟨j.left, j.right⟩

namespace Problem

variable {p : Problem} {plan : PartialPlan} {order : List ℕ} {index : ℕ}

/-- The relations that joins read, join by join. -/
def ends (p : Problem) (order : List ℕ) : List (Ends ℕ) :=
  order.filterMap fun i => p.joins[i]?.map Join.ends

/-- A join of a relation with itself. -/
def IsLoop (p : Problem) (index : ℕ) : Prop :=
  ∃ j, p.joins[index]? = some j ∧ j.ends.IsLoop

@[simp]
theorem ends_nil : p.ends [] = [] := rfl

theorem ends_append (first second : List ℕ) :
    p.ends (first ++ second) = p.ends first ++ p.ends second := List.filterMap_append

theorem mem_ends {e : Ends ℕ} :
    e ∈ p.ends order ↔ ∃ i ∈ order, ∃ j, p.joins[i]? = some j ∧ j.ends = e := by
  simp [ends]

theorem ends_cons {j : Join} (found : p.joins[index]? = some j) (order : List ℕ) :
    p.ends (index :: order) = j.ends :: p.ends order := by
  simp [ends, found]

theorem IsLoop.lt_size (h : p.IsLoop index) : index < p.size := by
  obtain ⟨j, found, -⟩ := h
  exact (Array.getElem?_eq_some_iff.1 found).1

theorem not_isLoop_of_mem_ends (loopless : ∀ i ∈ order, ¬p.IsLoop i) :
    ∀ e ∈ p.ends order, ¬e.IsLoop := by
  intro e mem loop
  obtain ⟨i, placed, j, found, rfl⟩ := mem_ends.1 mem
  exact loopless i placed ⟨j, found, loop⟩

theorem exists_join (lt : index < p.size) : ∃ j, p.joins[index]? = some j :=
  ⟨p.joins[index], Array.getElem?_eq_getElem lt⟩

theorem ends_eq_nil_iff (lt : ∀ i ∈ order, i < p.size) : p.ends order = [] ↔ order = [] := by
  constructor
  · intro nil
    apply List.eq_nil_iff_forall_not_mem.2
    intro i mem
    obtain ⟨j, found⟩ := exists_join (lt i mem)
    have ends : j.ends ∈ p.ends order := mem_ends.2 ⟨i, mem, j, found, rfl⟩
    rw [nil] at ends
    exact absurd ends (by simp)
  · rintro rfl
    rfl

theorem filterMap_getElem?_range {α : Type} (l : List α) (n : ℕ) :
    (List.range n).filterMap (l[·]?) = l.take n := by
  induction n with
  | zero => rfl
  | succ n ih =>
    rw [List.range_succ, List.filterMap_append, ih, List.take_add_one]
    cases eq : l[n]? <;> simp [eq]

/-- A plan reads the vertices of the graph of its joins. -/
theorem isRead_iff {relation : ℕ} :
    p.isRead plan.steps relation = true ↔
      relation ∈ (Multigraph.ofEnds (p.ends plan.joins)).vertices := by
  have reads (j : Join) : j.reads relation = true ↔ relation ∈ j.ends.vertices := by
    simp [Join.reads, Join.ends, Ends.vertices, @eq_comm _ relation]
  simp only [isRead, any_steps, List.any_eq_true, Option.any_eq_true, mem_vertices_ofEnds, mem_ends,
    reads]
  constructor
  · rintro ⟨i, mem, j, found, inside⟩
    exact ⟨j.ends, ⟨i, mem, j, found, rfl⟩, inside⟩
  · rintro ⟨-, ⟨i, mem, j, found, rfl⟩, inside⟩
    exact ⟨i, mem, j, found, inside⟩

/-- A join can be appended to a plan if it attaches to the graph of the plan. -/
theorem isSome_nextStep?_iff_attaches (lt : ∀ i ∈ plan.joins, i < p.size) :
    (p.nextStep? plan index).isSome = true ↔
      ∃ j, p.joins[index]? = some j ∧ Attaches (p.ends plan.joins) j.ends := by
  rw [isSome_nextStep?_iff]
  apply exists_congr
  intro j
  apply and_congr_right'
  rw [isSome_sides?_iff, Attaches, ends_eq_nil_iff lt, Bool.or_eq_true, PartialPlan.isEmpty_iff,
    Bool.coe_xor_iff, isRead_iff, Option.any_eq_true]
  simp only [isRead_iff]
  rfl

/-- An order that can be replayed has grown. -/
theorem grown_of_replay? (h : p.replay? ∅ order = some plan) : Grown (p.ends order) := by
  induction order using List.reverseRecOn generalizing plan with
  | nil => exact .nil
  | append_singleton order last ih =>
    obtain ⟨prior, s, replayed, step, rfl⟩ := replay?_concat_eq_some_iff.1 h
    have joins := joins_of_replay?_empty replayed
    have some : (p.nextStep? prior last).isSome = true := by
      rw [step]
      rfl
    rw [isSome_nextStep?_iff_attaches (joins ▸ lt_size_of_replay? replayed), joins] at some
    obtain ⟨j, found, attaches⟩ := some
    rw [ends_append, ends_cons found]
    exact (ih replayed).concat attaches

end Problem
end LeftDeep
