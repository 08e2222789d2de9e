import LeftDeep.Proofs.Checked.Plan

/-!
# The tree of a plan

The drawing of a plan is that of a left-deep tree: the first join stands above the leaves of its two
sides, and each further one above the tree of the joins before it and one fresh leaf. The tree is
on the side whose alias those joins name. No join and no scan is lost on the way from the forest, or
from the array, and the drawing goes through the tree from the root, left before right.

## Main definitions

* `Tree.branches`: the lines below the root of a tree.
* `Plan.IsLeftDeep`: the left-deep tree of planned joins.
* `Inputs.IsDrawnAs`: what the drawing of a plan shows.

## Main statements

* `Tree.lines_eq`: a tree is drawn from the root, left before right.
* `Plan.IsConnected.exists_isLeftDeep`: the forest of a connected plan is its left-deep tree.
* `Inputs.exists_isDrawnAs`: the drawings of both searches' plans.
-/

namespace LeftDeep

/-! ## Drawing a tree -/

namespace Tree

/-- The label at the root. -/
def label : Tree → String
  | leaf label => label
  | node label _ _ => label

/-- The lines below the root, behind an indent. A subtree on the left is indented past a bar, one on
the right past blanks. -/
def branches (indent : String) : Tree → List String
  | leaf _ => []
  | node _ left right =>
    (indent ++ "├── " ++ left.label) :: branches (indent ++ "│   ") left ++
      (indent ++ "└── " ++ right.label) :: branches (indent ++ "    ") right

/-- The labels of the joins, from the root and left before right. -/
def joinLabels : Tree → List String
  | leaf _ => []
  | node label left right => label :: (left.joinLabels ++ right.joinLabels)

theorem map_branches (outer indent : String) (t : Tree) :
    (t.branches indent).map (outer ++ ·) = t.branches (outer ++ indent) := by
  induction t generalizing indent with
  | leaf => rfl
  | node label left right ihl ihr =>
    simp only [branches, List.cons_append, List.map_cons, List.map_append, ihl, ihr,
      String.append_assoc]

/-- A tree is drawn as its root and the lines below. -/
theorem lines_eq (t : Tree) : t.lines = t.label :: t.branches "" := by
  induction t with
  | leaf => rfl
  | node label left right ihl ihr =>
    rw [lines, ihl, ihr, hang, hang, map_branches, map_branches]
    simp only [Tree.label, branches, String.append_empty, String.empty_append]

theorem length_hang (branch indent : String) (lines : List String) :
    (hang branch indent lines).length = lines.length := by
  cases lines <;> simp [hang]

/-- A join adds a line for itself, and one more input. -/
theorem length_lines (t : Tree) : t.lines.length = 2 * t.joinLabels.length + 1 := by
  induction t with
  | leaf => rfl
  | node label left right ihl ihr =>
    simp only [lines, joinLabels, List.length_cons, List.length_append, length_hang, ihl, ihr]
    omega

end Tree

/-! ## Left-deep trees -/

namespace Plan

open Checked

variable {leafLabel : String → String} {steps : List PlannedJoin} {last : PlannedJoin} {t t' : Tree}

/-- Some of the joins names an alias. -/
def Names (steps : List PlannedJoin) (name : String) : Prop :=
  ∃ s ∈ steps, name ∈ s.condition.aliases

/-- The left-deep tree of planned joins. -/
inductive IsLeftDeep (leafLabel : String → String) : List PlannedJoin → Tree → Prop
  | first (s : PlannedJoin) : IsLeftDeep leafLabel [s]
      (.node (joinLabel s) (.leaf (leafLabel s.condition.left.relation))
        (.leaf (rightLabel leafLabel s.condition)))
  | onLeft {steps : List PlannedJoin} {last : PlannedJoin} {t : Tree}
      (before : IsLeftDeep leafLabel steps t) (named : Names steps last.condition.left.relation)
      (fresh : ∀ ref, last.condition.right = .column ref → ¬Names steps ref.relation) :
      IsLeftDeep leafLabel (steps ++ [last])
        (.node (joinLabel last) t (.leaf (rightLabel leafLabel last.condition)))
  | onRight {steps : List PlannedJoin} {last : PlannedJoin} {t : Tree} {ref : ColumnRef}
      (before : IsLeftDeep leafLabel steps t)
      (fresh : ¬Names steps last.condition.left.relation)
      (column : last.condition.right = .column ref) (named : Names steps ref.relation) :
      IsLeftDeep leafLabel (steps ++ [last])
        (.node (joinLabel last) (.leaf (leafLabel last.condition.left.relation)) t)

namespace IsLeftDeep

theorem ne_nil (h : IsLeftDeep leafLabel steps t) : steps ≠ [] := by
  cases h <;> simp

/-- The last join stands above the tree of the others. -/
theorem concat_cases (ne : steps ≠ []) (h : IsLeftDeep leafLabel (steps ++ [last]) t) :
    (∃ t', IsLeftDeep leafLabel steps t' ∧ Names steps last.condition.left.relation ∧
      t = .node (joinLabel last) t' (.leaf (rightLabel leafLabel last.condition))) ∨
    ∃ t', IsLeftDeep leafLabel steps t' ∧ ¬Names steps last.condition.left.relation ∧
      t = .node (joinLabel last) (.leaf (leafLabel last.condition.left.relation)) t' := by
  generalize whole : steps ++ [last] = all at h
  cases h with
  | first s => exact absurd (List.append_eq_singleton_iff.1 whole) (by simp [ne])
  | onLeft before named =>
    obtain ⟨rfl, eq⟩ := List.append_inj' whole rfl
    obtain rfl := List.singleton_inj.1 eq
    exact .inl ⟨_, before, named, rfl⟩
  | onRight before fresh =>
    obtain ⟨rfl, eq⟩ := List.append_inj' whole rfl
    obtain rfl := List.singleton_inj.1 eq
    exact .inr ⟨_, before, fresh, rfl⟩

/-- There is one such tree only. -/
theorem unique (h : IsLeftDeep leafLabel steps t) (h' : IsLeftDeep leafLabel steps t') :
    t' = t := by
  induction h generalizing t' with
  | first s =>
    generalize whole : [s] = all at h'
    cases h' with
    | first => rw [List.singleton_inj.1 whole]
    | onLeft before =>
      exact absurd (List.append_eq_singleton_iff.1 whole.symm) (by simp [before.ne_nil])
    | onRight before =>
      exact absurd (List.append_eq_singleton_iff.1 whole.symm) (by simp [before.ne_nil])
  | onLeft before named _ ih =>
    rcases concat_cases before.ne_nil h' with ⟨_, other, -, rfl⟩ | ⟨_, -, fresh, -⟩
    · rw [ih other]
    · exact absurd named fresh
  | onRight before fresh _ _ ih =>
    rcases concat_cases before.ne_nil h' with ⟨_, -, named, -⟩ | ⟨_, other, -, rfl⟩
    · exact absurd named fresh
    · rw [ih other]

/-- From the root down stand the joins, the last one first. -/
theorem joinLabels_eq (h : IsLeftDeep leafLabel steps t) :
    t.joinLabels = (steps.map joinLabel).reverse := by
  induction h with
  | first s => rfl
  | onLeft _ _ _ ih => simp [Tree.joinLabels, ih]
  | onRight _ _ _ _ ih => simp [Tree.joinLabels, ih]

theorem label_eq (h : IsLeftDeep leafLabel steps t) :
    steps.getLast?.map joinLabel = some t.label := by
  cases h <;> simp [Tree.label]

end IsLeftDeep

/-- The forest of a connected plan is its left-deep tree. -/
theorem IsConnected.exists_isLeftDeep (h : IsConnected steps) (ne : steps ≠ [])
    (leafLabel : String → String) :
    ∃ c, steps.foldl (Forest.join leafLabel) [] = [c] ∧ IsLeftDeep leafLabel steps c.tree := by
  induction steps using List.reverseRecOn with
  | nil => exact absurd rfl ne
  | append_singleton steps last ih =>
    rw [List.foldl_append, List.foldl_cons, List.foldl_nil]
    rcases eq_or_ne steps [] with rfl | nonempty
    · exact ⟨_, Forest.join_nil leafLabel last, .first last⟩
    · obtain ⟨c, forest, leftDeep⟩ := ih h.of_append nonempty
      -- The array knows which relations the one tree of the forest holds.
      obtain ⟨_, c', -, forest', -, relations⟩ := h.of_append.exists_holds nonempty leafLabel
      obtain rfl : c = c' := List.singleton_inj.1 (forest.symm.trans forest')
      have once := h steps last [] rfl nonempty
      rw [forest]
      rcases once with ⟨named, notRight⟩ | ⟨⟨ref, column, named⟩, notLeft⟩
      · refine ⟨_, Forest.join_of_left ((relations _).2 named), .onLeft leftDeep named ?_⟩
        intro ref column named'
        exact notRight ⟨ref, column, named'⟩
      · have fresh : last.condition.left.relation ∉ c.relations := by
          rw [relations]
          exact notLeft
        exact ⟨_, Forest.join_of_right fresh column ((relations _).2 named),
          .onRight leftDeep notLeft column named⟩

end Plan

/-! ## The plans of the searches -/

namespace Inputs

variable {inputs : Inputs} {plan : Plan} {search : Search} {name : String} {r : Relation}

/-- Of relations listed under their aliases, an alias leads to its own. -/
theorem lookup_of_forall₂ {names : List String} {relations : List Relation}
    (h : List.Forall₂ (fun name r => inputs.relation name = .ok r) names relations)
    (mem : name ∈ names) (found : inputs.relation name = .ok r) :
    (relations.map fun r => (r.name, r.scan)).lookup name = some r.scan := by
  induction h with
  | nil => exact absurd mem List.not_mem_nil
  | @cons first r' names relations head _ ih =>
    rw [List.map_cons, List.lookup_cons, name_of_relation head]
    by_cases eq : name = first
    · obtain rfl := eq
      obtain rfl := Except.ok.inj (found.symm.trans head)
      rw [beq_self_eq_true]
    · rw [beq_false_of_ne eq]
      exact ih ((List.mem_cons.1 mem).resolve_left eq)

theorem mem_joinedAliases_of_names {order : List ℕ} (placement : inputs.IsPlacement plan order)
    (named : Plan.Names plan.steps name) : name ∈ inputs.query.joinedAliases := by
  obtain ⟨t, mem, listed⟩ := named
  obtain ⟨i, -, c, found, eq, -⟩ := exists_of_mem_right placement.written mem
  refine List.mem_flatMap.2 ⟨c, List.mem_of_getElem? found, ?_⟩
  rcases eq with eq | eq
  · exact eq ▸ listed
  · rw [eq] at listed
    exact (c.mem_aliases_swap name).1 listed

/-- A finished plan shows the scan estimates of the aliases that its joins name. -/
theorem exists_scan_of_names (h : inputs.planWith search = .ok plan)
    (named : Plan.Names plan.steps name) :
    ∃ r, inputs.relation name = .ok r ∧ plan.scan? name = some r.scan := by
  obtain ⟨order, placement⟩ := exists_isPlacement h
  obtain ⟨p, placed, posed, -, rfl⟩ := exists_of_planWith h
  have joined := mem_joinedAliases_of_names placement named
  obtain ⟨r, -, found⟩ := relation_eq_ok_of_problem posed joined
  refine ⟨r, found, ?_⟩
  exact lookup_of_forall₂ (forall₂_relations_of_problem posed) (mem_relationNames_iff.2 joined)
    found

/-- A tree, and what the drawing of a plan shows of it. -/
structure IsDrawnAs (inputs : Inputs) (plan : Plan) (t : Tree) : Prop where
  /-- The tree is left-deep. -/
  leftDeep : Plan.IsLeftDeep plan.leafLabel plan.steps t
  unique : ∀ t', Plan.IsLeftDeep plan.leafLabel plan.steps t' → t' = t
  /-- It is drawn from the root, left before right. -/
  lines : plan.treeLines = t.label :: t.branches ""
  /-- The drawing is the same if the tree is put together in an array. -/
  array : Checked.drawing plan = .ok ("\n".intercalate plan.treeLines)
  /-- The last join is the root. -/
  root : plan.treeLines.head? = plan.steps.getLast?.map Checked.joinLabel
  /-- Every join is shown once, the last one first. -/
  joins : t.joinLabels = (plan.steps.map Checked.joinLabel).reverse
  /-- A leaf shows the estimate of its scan. -/
  scans : ∀ name, Plan.Names plan.steps name → ∃ r, inputs.relation name = .ok r ∧
    plan.leafLabel name = name ++ " " ++ r.scan.text
  length : plan.treeLines.length = 2 * plan.steps.length + 1

/-- The drawing of a plan that either search returns is that of its left-deep tree. -/
theorem exists_isDrawnAs (h : inputs.planWith search = .ok plan) (ne : plan.steps ≠ []) :
    ∃ t, inputs.IsDrawnAs plan t := by
  have connected := isConnected_of_planWith h
  obtain ⟨c, forest, leftDeep⟩ := connected.exists_isLeftDeep ne plan.leafLabel
  have lines : plan.treeLines = c.tree.lines := by
    rw [Plan.treeLines, Plan.tree?, forest]
  refine ⟨c.tree, ?_⟩
  constructor
  case leftDeep => exact leftDeep
  case unique => exact fun t' other => leftDeep.unique other
  case lines => rw [lines, Tree.lines_eq]
  case array => rw [connected.drawing_eq_ok, Plan.drawing]
  case root => rw [lines, Tree.lines_eq, List.head?_cons, leftDeep.label_eq]
  case joins => exact leftDeep.joinLabels_eq
  case scans =>
    intro name named
    obtain ⟨r, found, scan⟩ := exists_scan_of_names h named
    refine ⟨r, found, ?_⟩
    rw [Plan.leafLabel, scan]
  case length =>
    rw [lines, Tree.length_lines, leftDeep.joinLabels_eq, List.length_reverse, List.length_map]

/-- The greedy plan of the chain has such a tree. -/
theorem chain_isDrawnAs :
    (chain.planWith .greedy = .ok (Plan.ofPartial Problem.chain .greedy Problem.chainPlan) ∧
      (Plan.ofPartial Problem.chain .greedy Problem.chainPlan).steps ≠ []) ∧
    ∃ t, chain.IsDrawnAs (Plan.ofPartial Problem.chain .greedy Problem.chainPlan) t := by
  have planned := planWith_of_run problem_chain .greedy Problem.greedy_chain
  have nonempty : (Plan.ofPartial Problem.chain .greedy Problem.chainPlan).steps ≠ [] := by
    decide +kernel
  exact ⟨⟨planned, nonempty⟩, exists_isDrawnAs planned nonempty⟩

end Inputs
end LeftDeep
