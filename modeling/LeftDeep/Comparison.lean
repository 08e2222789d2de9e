/-!
# Comparison operators of join conditions

The seven operators a join condition may use, the symbols they are written with, and the
operator that says the same thing once the two operands have traded places.

## Main definitions

* `Comparison.converse`: the operator for exchanged operands; applying it twice changes nothing.
* `Comparison.symbol` and `Comparison.ofSymbol?`: the written form, and the spellings read back.
-/

namespace LeftDeep

/-- The comparison between the two sides of a join condition. -/
inductive Comparison where
  | equal
  | notEqual
  | less
  | greater
  | lessOrEqual
  | greaterOrEqual
  | like
  deriving DecidableEq, Hashable, Repr, Inhabited

namespace Comparison

/-- The operator to use once the operands trade places. Equality and inequality are symmetric;
pattern matching keeps its operator. -/
def converse : Comparison → Comparison
  | less => greater
  | greater => less
  | lessOrEqual => greaterOrEqual
  | greaterOrEqual => lessOrEqual
  | op => op

/-- The one written form of an operator. -/
def symbol : Comparison → String
  | equal => "="
  | notEqual => "<>"
  | less => "<"
  | greater => ">"
  | lessOrEqual => "<="
  | greaterOrEqual => ">="
  | like => "LIKE"

/-- Reads an operator: its symbol, or one of the second spellings `!=` and `like`. -/
def ofSymbol? : String → Option Comparison
  | "=" => some equal
  | "<>" => some notEqual
  | "!=" => some notEqual
  | "<" => some less
  | ">" => some greater
  | "<=" => some lessOrEqual
  | ">=" => some greaterOrEqual
  | "LIKE" => some like
  | "like" => some like
  | _ => none

/-- Whether the operator is equality, the only one whose estimates look at keys. -/
def isEqual (op : Comparison) : Bool := op == equal

@[simp] theorem converse_converse (op : Comparison) : op.converse.converse = op := by
  cases op <;> rfl

@[simp] theorem isEqual_converse (op : Comparison) :
    op.converse.isEqual = op.isEqual := by
  cases op <;> rfl

@[simp] theorem ofSymbol?_symbol (op : Comparison) : ofSymbol? op.symbol = some op := by
  cases op <;> rfl

end Comparison
end LeftDeep
