import LeftDeep.Proofs.Search.GreedyCompleteness

/-!
# Queries that can be planned

The joins of a query make a graph of its aliases. If no alias is joined with itself, a left-deep
plan without cross products exists exactly if this graph is a tree, and then both searches find
one, whatever the estimates are.

## Main definitions

* `Query.graph`: the aliases that the joins name, with an edge for each join of two of them.

## Main statements

* `Inputs.isTree_graph_iff`: the graph of the problem is that of the query.
* `Inputs.exists_plan_iff_isTree`: the searches find a plan when the graph of the query is a tree.
-/

namespace LeftDeep

open Multigraph

/-- The aliases that a join names. A sub-query has none. -/
def Condition.ends (c : Condition) : Ends String :=
  ⟨c.left.relation, c.right.column?.map ColumnRef.relation⟩

/-- The aliases that the joins of a query name, with an edge for each join of two of them. -/
def Query.graph (q : Query) : Multigraph String := ofEnds (q.joins.map Condition.ends)

namespace Problem

variable {p : Problem}

/-- The graph of all joins. -/
def graph (p : Problem) : Multigraph ℕ := ofEnds (p.ends (List.range p.size))

theorem isLoopedTree_iff_isTree_graph (loopless : ∀ i, ¬p.IsLoop i) :
    IsLoopedTree (p.ends (List.range p.size)) ↔ p.graph.IsTree :=
  isLoopedTree_iff (not_isLoop_of_mem_ends fun i _ => loopless i)

/-- Without loops, a plan of all joins makes their graph a tree. -/
theorem isTree_graph_of_placesAll (pos : 0 < p.size) (loopless : ∀ i, ¬p.IsLoop i)
    {plan : PartialPlan} (h : p.PlacesAll plan) : p.graph.IsTree :=
  (isLoopedTree_iff_isTree_graph loopless).1
    (isLoopedTree_of_crossProductFree pos h.perm h.crossProductFree)

/-- Without loops, the greedy search finds a plan on a tree. -/
theorem exists_greedy_of_isTree (loopless : ∀ i, ¬p.IsLoop i) (tree : p.graph.IsTree) :
    ∃ plan, p.greedy = .ok plan := by
  have looped := (isLoopedTree_iff_isTree_graph loopless).2 tree
  refine (exists_greedy_iff looped).2 ?_
  intro i loop
  exact absurd loop (loopless i)

/-- The exhaustive search finds a plan on such a tree as well, if it drops nothing. -/
theorem exists_exhaustive_of_isTree (h : p.size ≤ IndexSet.capacity) (keeps : p.DropsNothing)
    (loopless : ∀ i, ¬p.IsLoop i) (tree : p.graph.IsTree) : ∃ plan, p.exhaustive = .ok plan := by
  obtain ⟨plan, greedy⟩ := exists_greedy_of_isTree loopless tree
  have placesAll := placesAll_of_greedy greedy
  exact exists_exhaustive_of_crossProductFree h keeps placesAll.perm placesAll.crossProductFree

end Problem

namespace Inputs

variable {inputs : Inputs} {p : Problem}

theorem ends_join (names : List String) (c : Condition) :
    (inputs.join names c).ends = c.ends.map names.idxOf := by
  obtain ⟨left, op, right⟩ := c
  cases right <;> rfl

/-- The joins of the problem read the relations that those of the query name. -/
theorem ends_of_problem (h : inputs.problem = .ok p) : p.ends (List.range p.size) =
    (inputs.query.joins.map Condition.ends).map (Ends.map inputs.relationNames.idxOf) := by
  have joins (i : ℕ) : p.joins[i]?.map Join.ends =
      ((inputs.query.joins.map Condition.ends).map (Ends.map inputs.relationNames.idxOf))[i]? := by
    simp [getElem?_joins_of_problem h, ends_join, Function.comp_def]
  have length : p.size = ((inputs.query.joins.map Condition.ends).map
      (Ends.map inputs.relationNames.idxOf)).length := by
    rw [size_of_problem h, List.length_map, List.length_map]
  simp only [Problem.ends, joins, length]
  rw [Problem.filterMap_getElem?_range, List.take_length]

theorem mem_relationNames_of_mem_graph {name : String} (mem : name ∈ inputs.query.graph.vertices) :
    name ∈ inputs.relationNames := by
  obtain ⟨e, written, inside⟩ := mem_vertices_ofEnds.1 mem
  obtain ⟨c, joined, rfl⟩ := List.mem_map.1 written
  exact mem_relationNames joined inside

/-- The graph of the problem is that of the query, with indexes in place of aliases. -/
theorem isTree_graph_iff (h : inputs.problem = .ok p) :
    p.graph.IsTree ↔ inputs.query.graph.IsTree := by
  rw [Problem.graph, ends_of_problem h, ofEnds_map]
  apply isTree_map_iff
  intro name mem name' mem' same
  exact (List.idxOf_inj (mem_relationNames_of_mem_graph mem)).1 same

/-- A join of the problem is a loop only if one of the query names an alias twice. -/
theorem not_isLoop (h : inputs.problem = .ok p)
    (loopless : ∀ c ∈ inputs.query.joins, ¬c.ends.IsLoop) (i : ℕ) : ¬p.IsLoop i := by
  rintro ⟨j, found, loop⟩
  rw [getElem?_joins_of_problem h] at found
  obtain ⟨c, written, rfl⟩ := Option.map_eq_some_iff.1 found
  have mem := List.mem_of_getElem? written
  apply loopless c mem
  rw [ends_join] at loop
  obtain ⟨left, op, right⟩ := c
  cases right with
  | subquery => exact absurd loop (by simp [Ends.IsLoop, Ends.map, Condition.ends, Operand.column?])
  | column ref =>
    have named : ref.relation ∈ Condition.aliases ⟨left, op, .column ref⟩ := by
      simp [Condition.aliases, Operand.column?]
    have same :
        inputs.relationNames.idxOf ref.relation = inputs.relationNames.idxOf left.relation :=
      Option.some.inj loop
    exact congrArg some ((List.idxOf_inj (mem_relationNames mem named)).1 same)

/-- If no alias is joined with itself, the greedy search finds a plan when the graph of the query is
a tree. So does the exhaustive search, as long as it drops no step for its cost. -/
theorem exists_plan_iff_isTree (h : inputs.problem = .ok p) (ne : inputs.query.joins ≠ [])
    (loopless : ∀ c ∈ inputs.query.joins, ¬c.ends.IsLoop) :
    ((∃ plan, p.greedy = .ok plan) ↔ inputs.query.graph.IsTree) ∧
    (p.size ≤ IndexSet.capacity → p.DropsNothing →
      ((∃ plan, p.exhaustive = .ok plan) ↔ inputs.query.graph.IsTree)) := by
  have pos : 0 < p.size := by
    rw [size_of_problem h]
    exact List.length_pos_iff.2 ne
  have noLoop := not_isLoop h loopless
  rw [← isTree_graph_iff h]
  constructor
  · constructor
    · rintro ⟨plan, ok⟩
      exact Problem.isTree_graph_of_placesAll pos noLoop (Problem.placesAll_of_greedy ok)
    · intro tree
      exact Problem.exists_greedy_of_isTree noLoop tree
  · intro small keeps
    constructor
    · rintro ⟨plan, ok⟩
      exact Problem.isTree_graph_of_placesAll pos noLoop (Problem.placesAll_of_exhaustive ok)
    · intro tree
      exact Problem.exists_exhaustive_of_isTree small keeps noLoop tree

/-- The chain is a tree, since the greedy search finds a plan for it. -/
theorem chain_exists_plan :
    (chain.problem = .ok Problem.chain ∧ chain.query.joins ≠ [] ∧
      (∀ c ∈ chain.query.joins, ¬c.ends.IsLoop) ∧ Problem.chain.size ≤ IndexSet.capacity ∧
      Problem.chain.DropsNothing) ∧
    chain.query.graph.IsTree ∧ ∃ plan, Problem.chain.exhaustive = .ok plan := by
  have ne : chain.query.joins ≠ [] := List.cons_ne_nil _ _
  have loopless : ∀ c ∈ chain.query.joins, ¬c.ends.IsLoop := by decide
  have small : Problem.chain.size ≤ IndexSet.capacity := by decide
  have keeps := Problem.chain_stepsAreFinite.stepsBelowInfinity.dropsNothing
  obtain ⟨greedy, exhaustive⟩ := exists_plan_iff_isTree problem_chain ne loopless
  have tree := greedy.1 ⟨_, Problem.greedy_chain⟩
  exact ⟨⟨problem_chain, ne, loopless, small, keeps⟩, tree, (exhaustive small keeps).2 tree⟩

end Inputs
end LeftDeep
