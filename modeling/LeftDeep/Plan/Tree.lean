import LeftDeep.Plan.Basic

/-!
# Plans as trees

A plan shown as a tree: a join stands above its outer and inner inputs, which are joins before it
or scans. The root is the last join.

The tree is put together join by join from a forest. A join takes the trees that hold its two
relations out of the forest, a fresh leaf for a relation that none holds, and puts the tree above
them back.

## Main definitions

* `Tree` and `Tree.lines`: trees and their drawing.
* `Forest.join`: one join of the construction.
* `Plan.tree?` and `Plan.drawing`: the tree of a plan and its text.
-/

namespace LeftDeep

/-- A plan as a tree. -/
inductive Tree where
  /-- A scan or a sub-query. -/
  | leaf (label : String)
  /-- A join above its left and right inputs. -/
  | node (label : String) (left right : Tree)
  deriving DecidableEq, Repr, Inhabited

namespace Tree

/-- Draws the lines of a subtree under its parent: the first behind a branch, the others indented
past it. -/
def hang (branch indent : String) : List String → List String
  | [] => []
  | line :: lines => (branch ++ line) :: lines.map (indent ++ ·)

/-- The drawing of a tree: its label, then its subtrees from left to right. -/
def lines : Tree → List String
  | leaf label => [label]
  | node label left right =>
    label :: (hang "├── " "│   " left.lines ++ hang "└── " "    " right.lines)

end Tree

/-- A tree of the forest, with the relations it reads. -/
structure Component where
  relations : List String
  tree : Tree

/-- The trees put together so far, the latest first. -/
abbrev Forest := List Component

namespace Forest

/-- Takes out the tree that holds a relation. If there is none, it is a fresh leaf. -/
def take (label : String) (relation : String) : Forest → Component × Forest
  | [] => ({ relations := [relation], tree := .leaf label }, [])
  | c :: cs =>
    if c.relations.contains relation then (c, cs)
    else
      let (found, rest) := take label relation cs
      (found, c :: rest)

/-- The leaf of a sub-query. -/
def subplan : Component := { relations := [], tree := .leaf "Subplan" }

/-- Puts a join above the trees that hold its relations. -/
def join (leafLabel : String → String) (forest : Forest) (s : PlannedJoin) : Forest :=
  let (left, forest) := take (leafLabel s.condition.left.relation) s.condition.left.relation forest
  let (right, forest) := match s.condition.right with
    | .column ref => take (leafLabel ref.relation) ref.relation forest
    | .subquery => (subplan, forest)
  { relations := left.relations ++ right.relations
    tree := .node ("Join " ++ s.condition.text ++ " " ++ s.toEstimate.text) left.tree right.tree }
    :: forest

end Forest

namespace Plan

/-- The label of a scan: its alias, with its estimate if that is known. -/
def leafLabel (plan : Plan) (relation : String) : String :=
  match plan.scan? relation with
  | some e => relation ++ " " ++ e.text
  | none => relation

/-- The tree of a plan, unless it has no joins. -/
def tree? (plan : Plan) : Option Tree :=
  match plan.steps.foldl (Forest.join plan.leafLabel) [] with
  | [] => none
  | last :: _ => some last.tree

/-- The lines of the drawing of a plan. -/
def treeLines (plan : Plan) : List String :=
  match plan.tree? with
  | some t => t.lines
  | none => ["(no joins)"]

/-- The drawing of a plan. -/
def drawing (plan : Plan) : String := "\n".intercalate plan.treeLines

end Plan
end LeftDeep
