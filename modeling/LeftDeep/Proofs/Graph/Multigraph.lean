import Mathlib.Data.Finset.Card
import Mathlib.Data.Finset.Image
import Mathlib.Logic.Relation

/-!
# Multigraphs

A multigraph has a finite set of vertices and a list of edges between them. Several edges may have
the same ends, so edges are counted with repetitions, and an edge may lead back to its own vertex.

## Main definitions

* `Multigraph`: the vertices and the edges.
* `Multigraph.Connected`: paths lead from every vertex to every other one.
* `Multigraph.IsTree`: a connected graph with one edge less than vertices.

## Main statements

* `Multigraph.Connected.exists_adj`: an edge leads out of every proper part of a connected graph.
* `Multigraph.Connected.insert`: a connected graph stays connected with one more vertex.
* `Multigraph.isTree_map_iff`: a tree is a tree under any names of its vertices.
-/

namespace LeftDeep

open Relation

/-- A finite set of vertices with edges between them. -/
@[ext]
structure Multigraph (V : Type) where
  vertices : Finset V
  edges : List (V × V)
  ends_mem : ∀ e ∈ edges, e.1 ∈ vertices ∧ e.2 ∈ vertices

namespace Multigraph

variable {V W : Type} {g g' : Multigraph V} {u v : V}

/-- Two vertices are the ends of an edge. -/
def Adj (g : Multigraph V) (u v : V) : Prop := (u, v) ∈ g.edges ∨ (v, u) ∈ g.edges

/-- A path leads from every vertex to every other one. -/
def Connected (g : Multigraph V) : Prop :=
  ∀ u ∈ g.vertices, ∀ v ∈ g.vertices, ReflTransGen g.Adj u v

/-- A connected graph with one edge less than vertices. -/
structure IsTree (g : Multigraph V) : Prop where
  connected : g.Connected
  card : g.vertices.card = g.edges.length + 1

theorem Adj.symm (h : g.Adj u v) : g.Adj v u := Or.symm h

theorem Adj.mem (h : g.Adj u v) : u ∈ g.vertices ∧ v ∈ g.vertices := by
  rcases h with mem | mem
  · exact g.ends_mem _ mem
  · exact (g.ends_mem _ mem).symm

/-- A graph is connected if paths lead from one vertex to all. -/
theorem connected_of_root (root : V) (h : ∀ v ∈ g.vertices, ReflTransGen g.Adj root v) :
    g.Connected := by
  have symmetric : Std.Symm g.Adj := ⟨fun _ _ => Adj.symm⟩
  intro u hu v hv
  exact (Std.Symm.symm _ _ (h u hu)).trans (h v hv)

/-- An edge leads out of every proper part of a connected graph. -/
theorem Connected.exists_adj (h : g.Connected) {part : Finset V} (hu : u ∈ g.vertices)
    (inside : u ∈ part) (hv : v ∈ g.vertices) (outside : v ∉ part) :
    ∃ x ∈ part, ∃ y, y ∉ part ∧ g.Adj x y := by
  have path := h u hu v hv
  clear hv
  induction path with
  | refl => exact absurd inside outside
  | @tail x y _ adj ih =>
    by_cases mem : x ∈ part
    · exact ⟨x, mem, y, outside, adj⟩
    · exact ih mem

/-- A connected graph stays connected with one more vertex that has an edge to an old one. -/
theorem Connected.insert [DecidableEq V] (h : g.Connected) {old new : V}
    (vertices : g'.vertices = Insert.insert new g.vertices)
    (mono : ∀ u v, g.Adj u v → g'.Adj u v) (mem : old ∈ g.vertices) (adj : g'.Adj old new) :
    g'.Connected := by
  apply connected_of_root old
  intro v hv
  rw [vertices, Finset.mem_insert] at hv
  rcases hv with rfl | hv
  · exact .single adj
  · exact ReflTransGen.mono mono _ _ (h old mem v hv)

/-! ## Renamed vertices -/

variable [DecidableEq W] {f : V → W}

/-- The graph with renamed vertices. -/
def map (g : Multigraph V) (f : V → W) : Multigraph W where
  vertices := g.vertices.image f
  edges := g.edges.map (Prod.map f f)
  ends_mem := by
    intro e renamed
    obtain ⟨e, mem, rfl⟩ := List.mem_map.1 renamed
    obtain ⟨first, second⟩ := g.ends_mem e mem
    exact ⟨Finset.mem_image_of_mem f first, Finset.mem_image_of_mem f second⟩

theorem Adj.map (h : g.Adj u v) : (g.map f).Adj (f u) (f v) := by
  rcases h with mem | mem
  · exact .inl (List.mem_map_of_mem mem)
  · exact .inr (List.mem_map_of_mem mem)

/-- What is adjacent under the new names was so under the old ones. -/
theorem exists_adj_of_map (inj : Set.InjOn f g.vertices) (hu : u ∈ g.vertices) {y : W}
    (h : (g.map f).Adj (f u) y) : ∃ v ∈ g.vertices, y = f v ∧ g.Adj u v := by
  rcases h with mem | mem
  · obtain ⟨⟨a, b⟩, edge, eq⟩ := List.mem_map.1 mem
    obtain ⟨ha, hb⟩ := g.ends_mem _ edge
    obtain ⟨same, rfl⟩ := Prod.mk.inj eq
    obtain rfl := inj ha hu same
    exact ⟨b, hb, rfl, .inl edge⟩
  · obtain ⟨⟨a, b⟩, edge, eq⟩ := List.mem_map.1 mem
    obtain ⟨ha, hb⟩ := g.ends_mem _ edge
    obtain ⟨rfl, same⟩ := Prod.mk.inj eq
    obtain rfl := inj hb hu same
    exact ⟨a, ha, rfl, .inr edge⟩

theorem connected_map_iff (inj : Set.InjOn f g.vertices) :
    (g.map f).Connected ↔ g.Connected := by
  constructor
  · intro h u hu v hv
    have path := h (f u) (Finset.mem_image_of_mem f hu) (f v) (Finset.mem_image_of_mem f hv)
    -- A path under the new names passes renamed vertices only.
    have traced : ∀ y, ReflTransGen (g.map f).Adj (f u) y →
        ∃ x ∈ g.vertices, y = f x ∧ ReflTransGen g.Adj u x := by
      intro y path
      induction path with
      | refl => exact ⟨u, hu, rfl, .refl⟩
      | tail _ adj ih =>
        obtain ⟨x, hx, rfl, front⟩ := ih
        obtain ⟨z, hz, rfl, step⟩ := exists_adj_of_map inj hx adj
        exact ⟨z, hz, rfl, front.tail step⟩
    obtain ⟨x, hx, same, path⟩ := traced (f v) path
    obtain rfl := inj hv hx same
    exact path
  · intro h x hx y hy
    obtain ⟨u, hu, rfl⟩ := Finset.mem_image.1 hx
    obtain ⟨v, hv, rfl⟩ := Finset.mem_image.1 hy
    exact (h u hu v hv).lift f fun _ _ => Adj.map

/-- A graph is a tree under one set of names if it is one under another. -/
theorem isTree_map_iff (inj : Set.InjOn f g.vertices) : (g.map f).IsTree ↔ g.IsTree := by
  have vertices : (g.map f).vertices.card = g.vertices.card := Finset.card_image_of_injOn inj
  have edges : (g.map f).edges.length = g.edges.length := List.length_map _
  constructor
  · rintro ⟨connected, card⟩
    exact ⟨(connected_map_iff inj).1 connected, by omega⟩
  · rintro ⟨connected, card⟩
    exact ⟨(connected_map_iff inj).2 connected, by omega⟩

end Multigraph
end LeftDeep
