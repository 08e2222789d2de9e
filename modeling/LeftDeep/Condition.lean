import LeftDeep.Comparison

/-!
# Join conditions

A join condition compares a column of one relation with a column of another, or with the output
of a nested sub-query. Relations are named by the alias the query scans them under.

## Main definitions

* `ColumnRef`: a column `alias.field`, with `ColumnRef.parse?` and `ColumnRef.text`.
* `Condition`: two operands and the comparison between them.
* `Condition.swap`: the same condition with its sides exchanged.
-/

namespace LeftDeep

/-- A column of a scanned relation. -/
structure ColumnRef where
  /-- The alias the relation is scanned under. -/
  relation : String
  /-- The column's name. -/
  field : String
  deriving DecidableEq, Hashable, Repr, Inhabited

namespace ColumnRef

/-- The written form `alias.field`. -/
def text (ref : ColumnRef) : String := ref.relation ++ "." ++ ref.field

/-- The characters before the first dot and those after it, if there is a dot. -/
def cutAtDot : List Char → Option (List Char × List Char)
  | [] => none
  | c :: cs =>
    if c = '.' then some ([], cs)
    else (cutAtDot cs).map fun (before, after) => (c :: before, after)

/-- Reads `alias.field`. The alias ends at the first dot, so a field may hold further dots;
neither part may be empty. -/
def parse? (text : String) : Option ColumnRef :=
  match cutAtDot text.toList with
  | some (before, after) =>
    if before.isEmpty || after.isEmpty then none
    else some { relation := String.ofList before, field := String.ofList after }
  | none => none

end ColumnRef

/-- What stands on the right of a join condition. -/
inductive Operand where
  /-- A column of another scanned relation. -/
  | column (ref : ColumnRef)
  /-- The output of a nested sub-query, which has no alias. -/
  | subquery
  deriving DecidableEq, Hashable, Repr, Inhabited

namespace Operand

/-- The column of a table operand. -/
def column? : Operand → Option ColumnRef
  | column ref => some ref
  | subquery => none

/-- Whether the operand is a sub-query. -/
def isSubquery : Operand → Bool
  | column _ => false
  | subquery => true

/-- The written form; a sub-query shows as a placeholder. -/
def text : Operand → String
  | column ref => ref.text
  | subquery => "(subquery)"

end Operand

/-- A join condition. The left side runs as the outer relation of the join. -/
structure Condition where
  left : ColumnRef
  op : Comparison
  right : Operand
  deriving DecidableEq, Hashable, Repr, Inhabited

namespace Condition

/-- The equality between two columns given by their written forms. -/
def equi? (left right : String) : Option Condition := do
  let left ← ColumnRef.parse? left
  let right ← ColumnRef.parse? right
  some { left, op := .equal, right := .column right }

/-- Whether the right side is a sub-query. -/
def isSubquery (c : Condition) : Bool := c.right.isSubquery

/-- The aliases a condition names, left before right. -/
def aliases (c : Condition) : List String :=
  c.left.relation :: (c.right.column?.map ColumnRef.relation).toList

/-- Whether a condition names the alias. -/
def mentions (c : Condition) (relation : String) : Bool :=
  c.left.relation == relation || (c.right.column?.map ColumnRef.relation) == some relation

/-- The same condition with outer and inner side exchanged. A sub-query can only run as the inner
side, so such a condition stays as it is. -/
def swap (c : Condition) : Condition :=
  match c.right with
  | .column right => { left := right, op := c.op.converse, right := .column c.left }
  | .subquery => c

/-- The written form, for example `a.id = b.a_id`. -/
def text (c : Condition) : String :=
  c.left.text ++ " " ++ c.op.symbol ++ " " ++ c.right.text

@[simp] theorem swap_swap (c : Condition) : c.swap.swap = c := by
  obtain ⟨left, op, right⟩ := c
  cases right <;> simp [swap]

@[simp] theorem isSubquery_swap (c : Condition) : c.swap.isSubquery = c.isSubquery := by
  obtain ⟨left, op, right⟩ := c
  cases right <;> rfl

@[simp] theorem isEqual_op_swap (c : Condition) : c.swap.op.isEqual = c.op.isEqual := by
  obtain ⟨left, op, right⟩ := c
  cases right <;> simp [swap]

/-- The aliases of a condition are those it mentions. -/
theorem mem_aliases_iff (c : Condition) (relation : String) :
    relation ∈ c.aliases ↔ c.mentions relation = true := by
  obtain ⟨left, op, right⟩ := c
  cases right <;> simp [aliases, mentions, Operand.column?, @eq_comm _ relation]

end Condition
end LeftDeep
