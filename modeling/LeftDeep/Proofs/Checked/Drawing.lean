import LeftDeep.Plan.Tree
import LeftDeep.Proofs.Checked.Basic
import LeftDeep.Proofs.Plan.Placement

/-!
# Checked drawings

The tree of a plan put together in an array. A join refers to its two inputs by their index, and
for every relation the array's owner keeps the root of the tree that holds it. Inputs are entered
before the join above them, so every index is in range and following indexes down comes to an end.
For a plan that is connected, as those of the searches are, the tree is the one that is put
together from a forest.

## Main definitions

* `Plan.IsConnected`: every join of a plan shares exactly one alias with the joins before it.
* `ArenaNode`, `Arena`, `Arena.IsOrdered`: trees in an array.
* `Checked.treeAt`: the tree below an index.
* `Checked.arena`, `Checked.drawing`: the tree of a plan in an array, and its drawing.

## Main statements

* `Arena.exists_join_of_holds`: one more join of a connected plan.
* `Plan.IsConnected.exists_holds`: the array of a connected plan holds the tree of its forest.
* `Plan.IsConnected.drawing_eq_ok`: the checked drawing of such a plan does not fault.
-/

namespace LeftDeep

/-- Of the aliases of a join after the first, exactly one is an alias of an earlier join. -/
def Plan.IsConnected (steps : List PlannedJoin) : Prop :=
  ∀ before t after, steps = before ++ t :: after → before ≠ [] →
    t.condition.NamesOnce fun name => ∃ earlier ∈ before, name ∈ earlier.condition.aliases

/-! ## Trees in an array -/

/-- A node of a tree in an array. -/
inductive ArenaNode where
  /-- A scan or a sub-query. -/
  | leaf (label : String)
  /-- A join above the nodes at two indexes. -/
  | join (label : String) (left right : ℕ)

/-- The indexes that a node refers to. -/
def ArenaNode.children : ArenaNode → List ℕ
  | leaf _ => []
  | join _ left right => [left, right]

/-- The trees put together so far. -/
structure Arena where
  nodes : Array ArenaNode
  /-- For each relation, the root of the tree that holds it. -/
  roots : Bindings ℕ
  /-- The root of the latest tree. -/
  top : Option ℕ

/-- The arena without trees. -/
def Arena.empty : Arena := { nodes := #[], roots := ∅, top := none }

/-- Every node comes after the nodes that it refers to. -/
def Arena.IsOrdered (nodes : Array ArenaNode) : Prop :=
  ∀ (i : ℕ) (node : ArenaNode), nodes[i]? = some node → ∀ child ∈ node.children, child < i

/-- The same names, all bound to one value. -/
def Bindings.setAll {α : Type} (b : Bindings α) (value : α) : Bindings α :=
  ⟨b.entries.map fun (name, _) => (name, value), by
    simpa [Function.comp_def] using b.names_nodup⟩

theorem Bindings.find?_setAll {α : Type} (b : Bindings α) (value : α) (name : String) :
    (b.setAll value).find? name = (b.find? name).map fun _ => value := by
  obtain ⟨entries, nodup⟩ := b
  simp only [find?, setAll]
  induction entries with
  | nil => rfl
  | cons entry rest ih =>
    obtain ⟨other, v⟩ := entry
    rw [List.map_cons, List.lookup_cons, List.lookup_cons]
    cases name == other with
    | true => rfl
    | false => exact ih (List.nodup_cons.1 nodup).2

/-- Names bound to one value, one after another. -/
theorem Bindings.find?_foldl_bind_const {α : Type} (names : List String) (b : Bindings α)
    (value : α) (name : String) :
    (names.foldl (fun b n => b.bind n value) b).find? name =
      if name ∈ names then some value else b.find? name := by
  induction names generalizing b with
  | nil => rfl
  | cons first rest ih =>
    rw [List.foldl_cons, ih, find?_bind]
    by_cases mem : name ∈ rest
    · simp [mem]
    · by_cases eq : name = first <;> simp [mem, eq]

namespace Checked

/-- The tree below an index. A node that does not come after its children is a fault: following
its indexes down need not come to an end. -/
def treeAt (nodes : Array ArenaNode) (i : ℕ) : Checked Tree := do
  match ← get nodes i with
  | .leaf label => .ok (.leaf label)
  | .join label left right =>
    if _below : left < i ∧ right < i then do
      let left ← treeAt nodes left
      let right ← treeAt nodes right
      .ok (.node label left right)
    else .error .cycle

/-- Enters a leaf. Returns its index. -/
def addLeaf (a : Arena) (label : String) : Checked (ℕ × Arena) := do
  let nodes := a.nodes.push (.leaf label)
  let i ← pred nodes.size
  .ok (i, { a with nodes })

/-- The input of a join that holds a relation: the root of its tree, unless this is the other input,
and else a fresh leaf. Also returns whether there was such a tree. -/
def input (leafLabel : String → String) (a : Arena) (relation : String) (other : Option ℕ) :
    Checked (ℕ × Bool × Arena) :=
  match a.roots.find? relation with
  | some i =>
    if some i = other then do
      let (i, a) ← addLeaf a (leafLabel relation)
      .ok (i, false, a)
    else .ok (i, true, a)
  | none => do
    let (i, a) ← addLeaf a (leafLabel relation)
    .ok (i, false, a)

/-- The input on the right of a join whose left input is known. -/
def rightInput (leafLabel : String → String) (a : Arena) (c : Condition) (left : ℕ) :
    Checked (ℕ × Bool × Arena) :=
  match c.right with
  | .column ref => input leafLabel a ref.relation (some left)
  | .subquery => do
    let (i, a) ← addLeaf a "Subplan"
    .ok (i, false, a)

/-- The label of a join in the tree. -/
def joinLabel (s : PlannedJoin) : String :=
  "Join " ++ s.condition.text ++ " " ++ s.toEstimate.text

/-- Puts a join above two inputs. If one of them was a tree before, all relations are now in the
tree of the join. -/
def above (a : Arena) (s : PlannedJoin) (left right : ℕ) (connected : Bool) : Arena :=
  let root := a.nodes.size
  let roots := s.condition.aliases.foldl (fun roots name => roots.bind name root) a.roots
  { nodes := a.nodes.push (.join (joinLabel s) left right)
    roots := if connected then roots.setAll root else roots
    top := some root }

/-- Puts a join above the trees that hold its relations. -/
def join (leafLabel : String → String) (a : Arena) (s : PlannedJoin) : Checked Arena := do
  let (left, leftFound, a) ← input leafLabel a s.condition.left.relation none
  let (right, rightFound, a) ← rightInput leafLabel a s.condition left
  .ok (above a s left right (leftFound || rightFound))

/-- The tree of a plan in an array. -/
def arena (plan : Plan) : Checked Arena := plan.steps.foldlM (join plan.leafLabel) Arena.empty

/-- The drawing of a plan. -/
def drawing (plan : Plan) : Checked String := do
  let a ← arena plan
  match a.top with
  | none => .ok "(no joins)"
  | some top => do
    let tree ← treeAt a.nodes top
    .ok ("\n".intercalate tree.lines)

/-! ## Reading and extending an array -/

section Nodes

variable {nodes : Array ArenaNode} {i : ℕ} {tree : Tree}

theorem lt_of_treeAt (h : treeAt nodes i = .ok tree) : i < nodes.size := by
  by_contra large
  have none : nodes[i]? = none := Array.getElem?_eq_none (Nat.le_of_not_lt large)
  rw [treeAt, get, none] at h
  exact absurd h (by simp [bind, Except.bind])

/-- A further node changes no tree. -/
theorem treeAt_push (node : ArenaNode) (lt : i < nodes.size) :
    treeAt (nodes.push node) i = treeAt nodes i := by
  induction i using Nat.strongRecOn with
  | _ i ih =>
    have old : get nodes i = .ok nodes[i] := get_eq_ok (Array.getElem?_eq_getElem lt)
    have new : get (nodes.push node) i = .ok nodes[i] := get_eq_ok (Array.getElem?_push_lt lt)
    rw [treeAt, treeAt, old, new, ok_bind, ok_bind]
    cases nodes[i] with
    | leaf label => rfl
    | join label left right =>
      by_cases below : left < i ∧ right < i
      · simp only [dif_pos below, ih left below.1 (below.1.trans lt),
          ih right below.2 (below.2.trans lt)]
      · simp only [dif_neg below]

theorem treeAt_push_of_ok (node : ArenaNode) (h : treeAt nodes i = .ok tree) :
    treeAt (nodes.push node) i = .ok tree := by
  rw [treeAt_push node (lt_of_treeAt h), h]

theorem get_push_size (node : ArenaNode) : get (nodes.push node) nodes.size = .ok node :=
  get_eq_ok Array.getElem?_push_size

theorem treeAt_push_leaf (label : String) :
    treeAt (nodes.push (.leaf label)) nodes.size = .ok (.leaf label) := by
  rw [treeAt, get_push_size, ok_bind]

theorem treeAt_push_join (label : String) {left right : ℕ} {leftTree rightTree : Tree}
    (hl : treeAt nodes left = .ok leftTree) (hr : treeAt nodes right = .ok rightTree) :
    treeAt (nodes.push (.join label left right)) nodes.size =
      .ok (.node label leftTree rightTree) := by
  have below : left < nodes.size ∧ right < nodes.size := ⟨lt_of_treeAt hl, lt_of_treeAt hr⟩
  rw [treeAt, get_push_size, ok_bind]
  simp only [dif_pos below, treeAt_push_of_ok _ hl, treeAt_push_of_ok _ hr, ok_bind]

theorem isOrdered_push {node : ArenaNode} (ordered : Arena.IsOrdered nodes)
    (lt : ∀ child ∈ node.children, child < nodes.size) : Arena.IsOrdered (nodes.push node) := by
  intro i node' found child mem
  rw [Array.getElem?_push] at found
  split at found
  · next eq =>
    obtain rfl := Option.some.inj found
    exact eq ▸ lt child mem
  · exact ordered i node' found child mem

theorem isOrdered_push_leaf (ordered : Arena.IsOrdered nodes) (label : String) :
    Arena.IsOrdered (nodes.push (.leaf label)) :=
  isOrdered_push ordered (by simp [ArenaNode.children])

end Nodes

/-! ## Inputs of a join -/

section Inputs

variable {leafLabel : String → String} {a : Arena} {relation : String} {other : Option ℕ}

/-- The arena with one more leaf. -/
def withLeaf (a : Arena) (label : String) : Arena := { a with nodes := a.nodes.push (.leaf label) }

theorem addLeaf_eq_ok (a : Arena) (label : String) :
    addLeaf a label = .ok (a.nodes.size, withLeaf a label) := by
  rw [addLeaf, Array.size_push, pred, if_neg (Nat.succ_ne_zero _), ok_bind, Nat.add_sub_cancel]
  rfl

theorem input_of_some {i : ℕ} (found : a.roots.find? relation = some i) (ne : some i ≠ other) :
    input leafLabel a relation other = .ok (i, true, a) := by
  rw [input, found]
  exact if_neg ne

theorem input_of_none (none : a.roots.find? relation = none) :
    input leafLabel a relation other =
      .ok (a.nodes.size, false, withLeaf a (leafLabel relation)) := by
  rw [input, none]
  simp only
  rw [addLeaf_eq_ok, ok_bind]

/-- The label of a leaf for the right side of a condition. -/
def rightLabel (leafLabel : String → String) (c : Condition) : String :=
  match c.right with
  | .column ref => leafLabel ref.relation
  | .subquery => "Subplan"

theorem rightInput_of_none {c : Condition} {left : ℕ}
    (none : ∀ ref, c.right = .column ref → a.roots.find? ref.relation = none) :
    rightInput leafLabel a c left =
      .ok (a.nodes.size, false, withLeaf a (rightLabel leafLabel c)) := by
  rw [rightInput, rightLabel]
  cases right : c.right with
  | column ref => exact input_of_none (none ref right)
  | subquery =>
    simp only
    rw [addLeaf_eq_ok, ok_bind]

theorem rightInput_of_some {c : Condition} {ref : ColumnRef} {left i : ℕ}
    (right : c.right = .column ref) (found : a.roots.find? ref.relation = some i) (ne : i ≠ left) :
    rightInput leafLabel a c left = .ok (i, true, a) := by
  rw [rightInput, right]
  exact input_of_some found (by simpa using ne)

end Inputs

end Checked

/-! ## One more join -/

open Checked

/-- An arena whose latest tree is the given one and holds all relations that have been read. -/
structure Arena.Holds (a : Arena) (c : Component) : Prop where
  ordered : Arena.IsOrdered a.nodes
  tree : ∃ root, a.top = some root ∧ treeAt a.nodes root = .ok c.tree ∧
    ∀ name, a.roots.find? name = if name ∈ c.relations then some root else none

/-- The relations of the right side of a condition. -/
def Arena.rightRelations (c : Condition) : List String :=
  (c.right.column?.map ColumnRef.relation).toList

namespace Forest

variable {leafLabel : String → String} {c : Component} {s : PlannedJoin}

/-- The first join stands above the leaves of its sides. -/
theorem join_nil (leafLabel : String → String) (s : PlannedJoin) : join leafLabel [] s =
    [{ relations := s.condition.aliases
       tree := .node (joinLabel s) (.leaf (leafLabel s.condition.left.relation))
         (.leaf (rightLabel leafLabel s.condition)) }] := by
  rw [join]
  cases right : s.condition.right <;>
    simp [take, subplan, right, Condition.aliases, Operand.column?, joinLabel, rightLabel]

/-- A join whose left side has been read stands above the tree and a fresh leaf. -/
theorem join_of_left (left : s.condition.left.relation ∈ c.relations) : join leafLabel [c] s =
    [{ relations := c.relations ++ Arena.rightRelations s.condition
       tree := .node (joinLabel s) c.tree (.leaf (rightLabel leafLabel s.condition)) }] := by
  rw [join]
  cases right : s.condition.right <;>
    simp [take, subplan, right, left, Operand.column?, joinLabel, rightLabel,
      Arena.rightRelations]

/-- A join whose right side only has been read stands above a fresh leaf and the tree. -/
theorem join_of_right {ref : ColumnRef} (fresh : s.condition.left.relation ∉ c.relations)
    (right : s.condition.right = .column ref) (read : ref.relation ∈ c.relations) :
    join leafLabel [c] s =
    [{ relations := s.condition.left.relation :: c.relations
       tree := .node (joinLabel s) (.leaf (leafLabel s.condition.left.relation)) c.tree }] := by
  rw [join, right]
  simp [take, fresh, read, joinLabel]

end Forest

namespace Arena

variable {leafLabel : String → String} {a : Arena} {c : Component} {s : PlannedJoin}

/-- A join above two trees of the array, as soon as all relations read are known to be in it. -/
theorem holds_above {left right : ℕ} {leftTree rightTree : Tree} {connected : Bool}
    {relations : List String} (ordered : IsOrdered a.nodes)
    (hl : treeAt a.nodes left = .ok leftTree) (hr : treeAt a.nodes right = .ok rightTree)
    (roots : ∀ name, (above a s left right connected).roots.find? name =
      if name ∈ relations then some a.nodes.size else none) :
    (above a s left right connected).Holds
      { relations, tree := .node (joinLabel s) leftTree rightTree } := by
  constructor
  case ordered =>
    apply isOrdered_push ordered
    simp [ArenaNode.children, lt_of_treeAt hl, lt_of_treeAt hr]
  case tree => exact ⟨a.nodes.size, rfl, treeAt_push_join _ hl hr, roots⟩

/-- The first join of a plan. -/
theorem exists_join_empty (leafLabel : String → String) (s : PlannedJoin) :
    ∃ a c, Checked.join leafLabel empty s = .ok a ∧ Forest.join leafLabel [] s = [c] ∧
      a.Holds c ∧ c.relations = s.condition.aliases := by
  have none (name : String) : empty.roots.find? name = none := rfl
  have ordered : IsOrdered empty.nodes := by
    intro i node found
    exact absurd found (by simp [empty])
  let b := withLeaf empty (leafLabel s.condition.left.relation)
  have first : IsOrdered b.nodes := isOrdered_push_leaf ordered _
  have second := isOrdered_push_leaf first (rightLabel leafLabel s.condition)
  refine ⟨above (withLeaf b (rightLabel leafLabel s.condition)) s 0 b.nodes.size false,
    { relations := s.condition.aliases
      tree := .node (joinLabel s) (.leaf (leafLabel s.condition.left.relation))
        (.leaf (rightLabel leafLabel s.condition)) }, ?_, Forest.join_nil leafLabel s, ?_, rfl⟩
  · rw [Checked.join, input_of_none (none _), ok_bind]
    simp only
    rw [rightInput_of_none (a := withLeaf empty _) fun ref _ => none ref.relation, ok_bind]
    rfl
  · apply holds_above second
    · exact treeAt_push_of_ok _ (treeAt_push_leaf _)
    · exact treeAt_push_leaf _
    · intro name
      exact Bindings.find?_foldl_bind_const _ _ _ _

/-- The relations of a tree after a join was put above it. -/
theorem find?_roots_above {left right : ℕ} {root : ℕ}
    (roots : ∀ name, a.roots.find? name = if name ∈ c.relations then some root else none)
    (relations : List String)
    (mem_iff : ∀ name, name ∈ relations ↔ name ∈ c.relations ∨ name ∈ s.condition.aliases)
    (name : String) :
    (above a s left right true).roots.find? name =
      if name ∈ relations then some a.nodes.size else none := by
  rw [above]
  simp only [if_true]
  rw [Bindings.find?_setAll, Bindings.find?_foldl_bind_const, roots]
  by_cases named : name ∈ s.condition.aliases
  · simp [named, mem_iff]
  · by_cases held : name ∈ c.relations <;> simp [named, held, mem_iff]

/-- A join whose left side has been read adds the relations of its right side. -/
theorem mem_append_rightRelations_iff (read : s.condition.left.relation ∈ c.relations)
    (name : String) : name ∈ c.relations ++ rightRelations s.condition ↔
      name ∈ c.relations ∨ name ∈ s.condition.aliases := by
  rw [Condition.aliases, List.mem_append, List.mem_cons, ← rightRelations]
  constructor
  · rintro (held | fresh)
    · exact .inl held
    · exact .inr (.inr fresh)
  · rintro (held | rfl | fresh)
    · exact .inl held
    · exact .inl read
    · exact .inr fresh

/-- A join whose right side has been read adds the relation of its left side. -/
theorem mem_cons_relations_iff {ref : ColumnRef} (right : s.condition.right = .column ref)
    (read : ref.relation ∈ c.relations) (name : String) :
    name ∈ s.condition.left.relation :: c.relations ↔
      name ∈ c.relations ∨ name ∈ s.condition.aliases := by
  have aliases : s.condition.aliases = [s.condition.left.relation, ref.relation] := by
    simp [Condition.aliases, right, Operand.column?]
  rw [aliases, List.mem_cons, List.mem_cons, List.mem_singleton]
  constructor
  · rintro (fresh | held)
    · exact .inr (.inl fresh)
    · exact .inl held
  · rintro (held | fresh | rfl)
    · exact .inr held
    · exact .inl fresh
    · exact .inr read

/-- A join whose left side only has been read stands above the tree and a fresh leaf. -/
theorem exists_join_of_left (leafLabel : String → String) (holds : a.Holds c)
    (read : s.condition.left.relation ∈ c.relations)
    (fresh : ∀ ref, s.condition.right = .column ref → ref.relation ∉ c.relations) :
    ∃ a', Checked.join leafLabel a s = .ok a' ∧ a'.Holds
      { relations := c.relations ++ rightRelations s.condition
        tree := .node (joinLabel s) c.tree (.leaf (rightLabel leafLabel s.condition)) } := by
  obtain ⟨ordered, root, -, tree, roots⟩ := holds
  have found : a.roots.find? s.condition.left.relation = some root := by
    rw [roots, if_pos read]
  have none : ∀ ref, s.condition.right = .column ref → a.roots.find? ref.relation = none := by
    intro ref right
    rw [roots, if_neg (fresh ref right)]
  refine ⟨above (withLeaf a (rightLabel leafLabel s.condition)) s root a.nodes.size true, ?_, ?_⟩
  · rw [Checked.join, input_of_some found (by simp), ok_bind]
    simp only
    rw [rightInput_of_none none, ok_bind]
    rfl
  · apply holds_above (isOrdered_push_leaf ordered _)
    · exact treeAt_push_of_ok _ tree
    · exact treeAt_push_leaf _
    · exact find?_roots_above (a := withLeaf a _) roots _ (mem_append_rightRelations_iff read)

/-- A join whose right side only has been read stands above a fresh leaf and the tree. -/
theorem exists_join_of_right (leafLabel : String → String) (holds : a.Holds c) {ref : ColumnRef}
    (fresh : s.condition.left.relation ∉ c.relations) (right : s.condition.right = .column ref)
    (read : ref.relation ∈ c.relations) :
    ∃ a', Checked.join leafLabel a s = .ok a' ∧ a'.Holds
      { relations := s.condition.left.relation :: c.relations
        tree := .node (joinLabel s) (.leaf (leafLabel s.condition.left.relation)) c.tree } := by
  obtain ⟨ordered, root, -, tree, roots⟩ := holds
  have none : a.roots.find? s.condition.left.relation = none := by
    rw [roots, if_neg fresh]
  have found : (withLeaf a (leafLabel s.condition.left.relation)).roots.find? ref.relation =
      some root := by
    rw [withLeaf, roots, if_pos read]
  -- The tree is not the fresh leaf on the left, so the join takes it as its other input.
  have ne : root ≠ a.nodes.size := (lt_of_treeAt tree).ne
  refine ⟨above (withLeaf a (leafLabel s.condition.left.relation)) s a.nodes.size root true,
    ?_, ?_⟩
  · rw [Checked.join, input_of_none none, ok_bind]
    simp only
    rw [rightInput_of_some right found ne, ok_bind]
    rfl
  · apply holds_above (isOrdered_push_leaf ordered _)
    · exact treeAt_push_leaf _
    · exact treeAt_push_of_ok _ tree
    · exact find?_roots_above (a := withLeaf a _) roots _ (mem_cons_relations_iff right read)

/-- One more join of a plan, exactly one of whose aliases has been read. -/
theorem exists_join_of_holds (leafLabel : String → String) (holds : a.Holds c)
    (once : s.condition.NamesOnce fun name => name ∈ c.relations) :
    ∃ a' c', Checked.join leafLabel a s = .ok a' ∧ Forest.join leafLabel [c] s = [c'] ∧
      a'.Holds c' ∧ ∀ name, name ∈ c'.relations ↔
        name ∈ c.relations ∨ name ∈ s.condition.aliases := by
  rcases once with ⟨read, notRight⟩ | ⟨⟨ref, right, read⟩, notLeft⟩
  · have fresh : ∀ ref, s.condition.right = .column ref → ref.relation ∉ c.relations := by
      intro ref right held
      exact notRight ⟨ref, right, held⟩
    obtain ⟨a', joined, holds'⟩ := exists_join_of_left leafLabel holds read fresh
    exact ⟨a', _, joined, Forest.join_of_left read, holds', mem_append_rightRelations_iff read⟩
  · obtain ⟨a', joined, holds'⟩ := exists_join_of_right leafLabel holds notLeft right read
    exact ⟨a', _, joined, Forest.join_of_right notLeft right read, holds',
      mem_cons_relations_iff right read⟩

end Arena

/-! ## The whole plan -/

namespace Plan

variable {plan : Plan} {steps : List PlannedJoin}

theorem IsConnected.of_append {more : List PlannedJoin} (h : IsConnected (steps ++ more)) :
    IsConnected steps := by
  rintro before t after rfl ne
  exact h before t (after ++ more) (by simp) ne

/-- The array of a connected plan holds the one tree of its forest. -/
theorem IsConnected.exists_holds (h : IsConnected steps) (ne : steps ≠ [])
    (leafLabel : String → String) :
    ∃ a c, steps.foldlM (Checked.join leafLabel) Arena.empty = .ok a ∧
      steps.foldl (Forest.join leafLabel) [] = [c] ∧ a.Holds c ∧
        ∀ name, name ∈ c.relations ↔ ∃ t ∈ steps, name ∈ t.condition.aliases := by
  induction steps using List.reverseRecOn with
  | nil => exact absurd rfl ne
  | append_singleton steps last ih =>
    rw [List.foldlM_append, List.foldl_append, List.foldl_cons, List.foldl_nil]
    rcases eq_or_ne steps [] with rfl | nonempty
    · obtain ⟨a, c, array, forest, holds, relations⟩ := Arena.exists_join_empty leafLabel last
      refine ⟨a, c, ?_, forest, holds, by simp [relations]⟩
      rw [List.foldlM_nil, pure_bind, List.foldlM_cons, array, ok_bind, List.foldlM_nil]
      rfl
    · obtain ⟨a, c, array, forest, holds, relations⟩ := ih h.of_append nonempty
      have once := h steps last [] rfl nonempty
      simp only [← relations] at once
      obtain ⟨a', c', array', forest', holds', relations'⟩ :=
        Arena.exists_join_of_holds leafLabel holds once
      refine ⟨a', c', ?_, forest ▸ forest', holds', ?_⟩
      · rw [array, ok_bind, List.foldlM_cons, array', ok_bind, List.foldlM_nil]
        rfl
      · intro name
        rw [relations', relations]
        simp [or_and_right, exists_or]

/-- The checked drawing of a connected plan does not fault, and is its drawing. -/
theorem IsConnected.drawing_eq_ok (h : IsConnected plan.steps) :
    Checked.drawing plan = .ok plan.drawing := by
  rw [Checked.drawing, arena, drawing, treeLines, tree?]
  rcases eq_or_ne plan.steps [] with nil | ne
  · rw [nil]
    rfl
  · obtain ⟨a, c, array, forest, ⟨-, root, top, tree, -⟩, -⟩ := h.exists_holds ne plan.leafLabel
    rw [array, forest, ok_bind, top]
    simp only [tree, ok_bind]

end Plan
end LeftDeep
