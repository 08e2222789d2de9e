import Mathlib.Data.Bool.Basic
import Mathlib.Data.List.Induction
import LeftDeep.Proofs.Graph.Multigraph

/-!
# Growing a graph join by join

A join reads two relations, or one if its other side is a sub-query. Seen as a graph, the relations
are the vertices, and every join of two of them is an edge. A left-deep plan grows such a graph: a
join is attached to the joins placed before when exactly one of its sides is a vertex already. So
every edge but a loop brings a new vertex, and what has grown is a tree, apart from a loop it may
have started with.

## Main definitions

* `Ends`: what a join reads.
* `Multigraph.ofEnds`: the graph of a list of joins.
* `Attaches`: a join can be placed after others.
* `Grown`: a listing of joins each of which attaches to the ones before it.
* `IsLoopedTree`: the graph of a list of joins is a tree once its loops are left out.

## Main statements

* `Grown.isLoopedTree`: what has grown is a tree with loops.
* `Grown.exists_attaches`: a part of a tree that has grown can grow further.
-/

namespace LeftDeep

/-- What a join reads: one relation, and a second one unless that side is a sub-query. -/
structure Ends (V : Type) where
  first : V
  second : Option V
  deriving DecidableEq

namespace Ends

variable {V W : Type}

def vertices (e : Ends V) : List V := e.first :: e.second.toList

/-- The edge of a join of two relations. -/
def edge? (e : Ends V) : Option (V × V) := e.second.map fun v => (e.first, v)

/-- Both sides are the same relation. -/
def IsLoop (e : Ends V) : Prop := e.second = some e.first

instance [DecidableEq V] (e : Ends V) : Decidable e.IsLoop :=
  inferInstanceAs (Decidable (e.second = some e.first))

/-- The same with renamed relations. -/
def map (f : V → W) (e : Ends V) : Ends W := ⟨f e.first, e.second.map f⟩

theorem edge?_eq_some_iff {e : Ends V} {u v : V} : e.edge? = some (u, v) ↔ e = ⟨u, some v⟩ := by
  obtain ⟨first, second⟩ := e
  cases second <;> simp [edge?]

end Ends

variable {V W : Type} [DecidableEq V] [DecidableEq W]

/-- The relations that joins read, with an edge for each join of two of them. -/
def Multigraph.ofEnds (joins : List (Ends V)) : Multigraph V where
  vertices := (joins.flatMap Ends.vertices).toFinset
  edges := joins.filterMap Ends.edge?
  ends_mem := by
    intro edge mem
    obtain ⟨e, placed, eq⟩ := List.mem_filterMap.1 mem
    obtain rfl := Ends.edge?_eq_some_iff.1 eq
    simp only [List.mem_toFinset, List.mem_flatMap]
    exact ⟨⟨_, placed, by simp [Ends.vertices]⟩, ⟨_, placed, by simp [Ends.vertices]⟩⟩

open Multigraph

variable {joins joins' placed rest : List (Ends V)} {e : Ends V} {u v : V}

theorem mem_vertices_ofEnds : v ∈ (ofEnds joins).vertices ↔ ∃ e ∈ joins, v ∈ e.vertices := by
  simp [ofEnds]

theorem mem_edges_ofEnds : (u, v) ∈ (ofEnds joins).edges ↔ ⟨u, some v⟩ ∈ joins := by
  simp only [ofEnds, List.mem_filterMap, Ends.edge?_eq_some_iff, exists_eq_right]

theorem adj_ofEnds : (ofEnds joins).Adj u v ↔ ⟨u, some v⟩ ∈ joins ∨ ⟨v, some u⟩ ∈ joins := by
  rw [Adj, mem_edges_ofEnds, mem_edges_ofEnds]

theorem vertices_singleton (e : Ends V) : (ofEnds [e]).vertices = e.vertices.toFinset := by
  simp [ofEnds]

theorem vertices_append : (ofEnds (placed ++ rest)).vertices =
    (ofEnds placed).vertices ∪ (ofEnds rest).vertices := by
  simp [ofEnds]

theorem edges_append : (ofEnds (placed ++ rest)).edges =
    (ofEnds placed).edges ++ (ofEnds rest).edges := by
  simp [ofEnds]

theorem vertices_nonempty (ne : joins ≠ []) : (ofEnds joins).vertices.Nonempty := by
  obtain ⟨e, mem⟩ := List.exists_mem_of_ne_nil joins ne
  exact ⟨e.first, mem_vertices_ofEnds.2 ⟨e, mem, List.mem_cons_self⟩⟩

/-- The graph of joins with renamed relations. -/
theorem ofEnds_map (joins : List (Ends V)) (f : V → W) :
    ofEnds (joins.map (Ends.map f)) = (ofEnds joins).map f := by
  have vertices (e : Ends V) : (e.map f).vertices = e.vertices.map f := by
    obtain ⟨first, second⟩ := e
    cases second <;> rfl
  have edge (e : Ends V) : (e.map f).edge? = e.edge?.map (Prod.map f f) := by
    obtain ⟨first, second⟩ := e
    cases second <;> rfl
  apply Multigraph.ext
  · ext w
    simp only [ofEnds, Multigraph.map, List.flatMap_map, vertices, List.mem_toFinset,
      List.mem_flatMap, List.mem_map, Finset.mem_image]
    constructor
    · rintro ⟨e, mem, v, inside, rfl⟩
      exact ⟨v, ⟨e, mem, inside⟩, rfl⟩
    · rintro ⟨v, ⟨e, mem, inside⟩, rfl⟩
      exact ⟨e, mem, v, inside, rfl⟩
  · simp only [ofEnds, Multigraph.map, List.filterMap_map, List.map_filterMap]
    exact List.filterMap_congr fun e _ => edge e

/-- The number of joins of a relation with itself. -/
def loopCount (joins : List (Ends V)) : ℕ := joins.countP fun e => e.IsLoop

theorem loopCount_append (placed rest : List (Ends V)) :
    loopCount (placed ++ rest) = loopCount placed + loopCount rest := List.countP_append

theorem loopCount_eq_zero (loopless : ∀ e ∈ joins, ¬e.IsLoop) : loopCount joins = 0 := by
  simpa [loopCount, List.countP_eq_zero] using loopless

/-- A graph of joins that is connected and, once its loops are left out, has one edge less than
vertices. -/
structure IsLoopedTree (joins : List (Ends V)) : Prop where
  connected : (ofEnds joins).Connected
  card : (ofEnds joins).vertices.card + loopCount joins = (ofEnds joins).edges.length + 1

/-- Without loops, it is a tree. -/
theorem isLoopedTree_iff (loopless : ∀ e ∈ joins, ¬e.IsLoop) :
    IsLoopedTree joins ↔ (ofEnds joins).IsTree := by
  have loops := loopCount_eq_zero loopless
  constructor
  · rintro ⟨connected, card⟩
    exact ⟨connected, by omega⟩
  · rintro ⟨connected, card⟩
    exact ⟨connected, by omega⟩

/-- The order of the joins does not matter. -/
theorem IsLoopedTree.perm (h : IsLoopedTree joins) (perm : joins.Perm joins') :
    IsLoopedTree joins' := by
  have vertices : (ofEnds joins).vertices = (ofEnds joins').vertices := by
    ext v
    simp only [mem_vertices_ofEnds, perm.mem_iff]
  have adj : (ofEnds joins).Adj = (ofEnds joins').Adj := by
    ext u v
    simp only [adj_ofEnds, perm.mem_iff]
  have edges : (ofEnds joins).edges.length = (ofEnds joins').edges.length :=
    (perm.filterMap _).length_eq
  obtain ⟨connected, card⟩ := h
  rw [Connected, vertices, adj] at connected
  rw [vertices, edges, loopCount, perm.countP_eq] at card
  exact ⟨connected, card⟩

/-! ## Attaching a join -/

/-- A join can be placed after others: as the first one, or if exactly one of its sides is a
relation that they read. -/
def Attaches (placed : List (Ends V)) (e : Ends V) : Prop :=
  placed = [] ∨ Xor (e.first ∈ (ofEnds placed).vertices)
    (∃ v, e.second = some v ∧ v ∈ (ofEnds placed).vertices)

/-- A join attaches to others in two ways: a sub-query to a vertex, and an edge from an old vertex
to a new one. -/
theorem Attaches.cases (h : Attaches placed e) (ne : placed ≠ []) :
    (e.second = none ∧ e.first ∈ (ofEnds placed).vertices) ∨
      ∃ old ∈ (ofEnds placed).vertices, ∃ new, new ∉ (ofEnds placed).vertices ∧
        (e = ⟨old, some new⟩ ∨ e = ⟨new, some old⟩) := by
  obtain ⟨first, second⟩ := e
  rcases h.resolve_left ne with ⟨left, right⟩ | ⟨⟨v, eq, right⟩, left⟩
  · cases second with
    | none => exact .inl ⟨rfl, left⟩
    | some v => exact .inr ⟨first, left, v, by simpa using right, .inl rfl⟩
  · obtain rfl : second = some v := eq
    exact .inr ⟨v, right, first, left, .inr rfl⟩

/-- Only the first join can be a loop. -/
theorem Attaches.not_isLoop (h : Attaches placed e) (ne : placed ≠ []) : ¬e.IsLoop := by
  rcases h.cases ne with ⟨none, -⟩ | ⟨old, mem, new, notMem, rfl | rfl⟩
  · simp [Ends.IsLoop, none]
  · intro loop
    obtain rfl : new = old := Option.some.inj loop
    exact notMem mem
  · intro loop
    obtain rfl : old = new := Option.some.inj loop
    exact notMem mem

theorem isLoopedTree_singleton (e : Ends V) : IsLoopedTree [e] := by
  obtain ⟨first, second⟩ := e
  constructor
  · apply connected_of_root first
    intro v mem
    obtain ⟨e, single, inside⟩ := mem_vertices_ofEnds.1 mem
    obtain rfl := List.mem_singleton.1 single
    rcases List.mem_cons.1 inside with rfl | inside
    · exact .refl
    · obtain rfl : second = some v := by simpa using inside
      exact .single (adj_ofEnds.2 (.inl List.mem_cons_self))
  · cases second with
    | none => rfl
    | some v =>
      by_cases loop : v = first
      · simp [ofEnds, Ends.vertices, Ends.edge?, loopCount, Ends.IsLoop, loop]
      · simp [ofEnds, Ends.vertices, Ends.edge?, loopCount, Ends.IsLoop, loop, Ne.symm loop]

/-- A tree with a join attached is a tree. -/
theorem IsLoopedTree.concat (h : IsLoopedTree placed) (ne : placed ≠ [])
    (attaches : Attaches placed e) : IsLoopedTree (placed ++ [e]) := by
  have loops : loopCount (placed ++ [e]) = loopCount placed := by
    simp [loopCount, attaches.not_isLoop ne]
  have mono : ∀ u v, (ofEnds placed).Adj u v → (ofEnds (placed ++ [e])).Adj u v := by
    intro u v adj
    rw [adj_ofEnds] at adj ⊢
    exact adj.imp (List.mem_append_left _) (List.mem_append_left _)
  obtain ⟨connected, card⟩ := h
  rcases attaches.cases ne with ⟨none, mem⟩ | ⟨old, mem, new, notMem, edge⟩
  · have ends : (ofEnds [e]).vertices = {e.first} := by
      simp [vertices_singleton, Ends.vertices, none]
    have vertices : (ofEnds (placed ++ [e])).vertices = (ofEnds placed).vertices := by
      rw [vertices_append, ends]
      exact Finset.union_eq_left.2 (Finset.singleton_subset_iff.2 mem)
    have edges : (ofEnds (placed ++ [e])).edges = (ofEnds placed).edges := by
      simp [ofEnds, Ends.edge?, none]
    refine ⟨?_, by rw [vertices, edges, loops, card]⟩
    intro u hu v hv
    rw [vertices] at hu hv
    exact Relation.ReflTransGen.mono mono _ _ (connected u hu v hv)
  · have ends : (ofEnds [e]).vertices = {old, new} := by
      rcases edge with rfl | rfl
      · simp [vertices_singleton, Ends.vertices]
      · simp [vertices_singleton, Ends.vertices, Finset.pair_comm]
    have vertices : (ofEnds (placed ++ [e])).vertices = insert new (ofEnds placed).vertices := by
      rw [vertices_append, ends, Finset.union_insert,
        Finset.insert_eq_of_mem (Finset.mem_union_left _ mem), Finset.union_comm, Finset.insert_eq]
    have edges : (ofEnds (placed ++ [e])).edges.length = (ofEnds placed).edges.length + 1 := by
      rcases edge with rfl | rfl <;> simp [ofEnds, Ends.edge?]
    have adj : (ofEnds (placed ++ [e])).Adj old new := by
      rw [adj_ofEnds]
      rcases edge with rfl | rfl <;> simp
    refine ⟨connected.insert vertices mono mem adj, ?_⟩
    rw [vertices, Finset.card_insert_of_notMem notMem, edges, loops]
    omega

/-! ## Growing -/

/-- A listing of joins each of which attaches to the ones before it. -/
inductive Grown : List (Ends V) → Prop
  | nil : Grown []
  | concat {placed : List (Ends V)} {e : Ends V} (grown : Grown placed)
      (attaches : Attaches placed e) : Grown (placed ++ [e])

/-- What has grown is a tree, apart from a loop at the start. -/
theorem Grown.isLoopedTree (h : Grown joins) (ne : joins ≠ []) : IsLoopedTree joins := by
  induction h with
  | nil => exact absurd rfl ne
  | @concat placed e _ attaches ih =>
    by_cases start : placed = []
    · subst start
      exact isLoopedTree_singleton e
    · exact (ih start).concat start attaches

theorem Grown.not_isLoop (h : Grown joins) : ∀ e ∈ joins.tail, ¬e.IsLoop := by
  induction h with
  | nil => simp
  | @concat placed e _ attaches ih =>
    by_cases start : placed = []
    · subst start
      simp
    · rw [List.tail_append_of_ne_nil start]
      intro e' mem
      rcases List.mem_append.1 mem with mem | mem
      · exact ih e' mem
      · obtain rfl := List.mem_singleton.1 mem
        exact attaches.not_isLoop start

/-- A part of a tree that has grown can grow further, as long as the rest of the tree has no
loop. -/
theorem Grown.exists_attaches (grown : Grown placed) (ne : placed ≠ [])
    (whole : IsLoopedTree (placed ++ rest)) (loopless : ∀ e ∈ rest, ¬e.IsLoop)
    (left : rest ≠ []) : ∃ e ∈ rest, Attaches placed e := by
  have part := (grown.isLoopedTree ne).card
  have card := whole.card
  have loops := loopCount_eq_zero loopless
  rw [loopCount_append, edges_append, List.length_append] at card
  by_cases all : (ofEnds (placed ++ rest)).vertices ⊆ (ofEnds placed).vertices
  · -- All vertices are there, so all edges are, and what is left are sub-queries.
    have same : (ofEnds (placed ++ rest)).vertices = (ofEnds placed).vertices := by
      apply Finset.Subset.antisymm all
      rw [vertices_append]
      exact Finset.subset_union_left
    have noEdges : (ofEnds rest).edges = [] := by
      rw [same] at card
      apply List.eq_nil_of_length_eq_zero
      omega
    obtain ⟨e, mem⟩ := List.exists_mem_of_ne_nil rest left
    have none : e.second = none := by
      have edge := List.filterMap_eq_nil_iff.1 noEdges e mem
      simpa [Ends.edge?] using edge
    have first : e.first ∈ (ofEnds (placed ++ rest)).vertices :=
      mem_vertices_ofEnds.2 ⟨e, List.mem_append_right _ mem, List.mem_cons_self⟩
    refine ⟨e, mem, .inr (.inl ⟨same ▸ first, ?_⟩)⟩
    rintro ⟨v, eq, -⟩
    rw [none] at eq
    exact absurd eq (by simp)
  · -- Some edge leads out of what has grown.
    obtain ⟨v, hv, outside⟩ := Finset.not_subset.1 all
    obtain ⟨u, inside⟩ := vertices_nonempty ne
    have hu : u ∈ (ofEnds (placed ++ rest)).vertices := by
      rw [vertices_append]
      exact Finset.mem_union_left _ inside
    obtain ⟨old, mem, new, notMem, adj⟩ := whole.connected.exists_adj hu inside hv outside
    have notPlaced : ¬(ofEnds placed).Adj old new := by
      intro adj
      exact notMem adj.mem.2
    rw [adj_ofEnds] at adj notPlaced
    simp only [List.mem_append] at adj
    have edge : ⟨old, some new⟩ ∈ rest ∨ ⟨new, some old⟩ ∈ rest := by
      tauto
    rcases edge with edge | edge
    · refine ⟨_, edge, .inr (.inl ⟨mem, ?_⟩)⟩
      simpa using notMem
    · exact ⟨_, edge, .inr (.inr ⟨⟨old, rfl, mem⟩, notMem⟩)⟩

end LeftDeep
