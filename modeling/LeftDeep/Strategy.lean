/-!
# Search strategies

Which search orders the joins of a query, and the configuration that decides it.

## Main definitions

* `Search`: the two searches.
* `Strategy`: one of them, or the choice between them by the number of joins.
* `SearchConfig.searchFor`: the search used for a number of joins.
-/

namespace LeftDeep

/-- A search for an order of joins. -/
inductive Search where
  /-- Appends the cheapest join, one after another. -/
  | greedy
  /-- Finds a best plan for every set of joins. -/
  | exhaustive
  deriving DecidableEq, Repr, Inhabited

/-- The name of a search shown to people. -/
def Search.text : Search → String
  | greedy => "greedy"
  | exhaustive => "dynamic programming"

/-- How the search is chosen. -/
inductive Strategy where
  /-- The exhaustive search up to a number of joins, the greedy search beyond it. -/
  | auto
  /-- Always the same search. -/
  | always (search : Search)
  deriving DecidableEq, Repr, Inhabited

/-- A text that names no strategy, in lower case. -/
structure UnknownStrategy where
  name : String
  deriving DecidableEq, Repr

/-- The text of the failure. -/
def UnknownStrategy.message (e : UnknownStrategy) : String :=
  "Unknown search strategy '" ++ e.name ++ "'"

namespace Strategy

/-- The name shown to people. -/
def text : Strategy → String
  | auto => "auto"
  | always search => search.text

/-- The name written to files. -/
def fileName : Strategy → String
  | auto => "auto"
  | always .greedy => "greedy"
  | always .exhaustive => "dynamic_programming"

/-- Reads a name in a file: the one written, or the short form of the exhaustive search. -/
def ofFileName? : String → Option Strategy
  | "auto" => some auto
  | "greedy" => some (always .greedy)
  | "dynamic_programming" => some (always .exhaustive)
  | "dp" => some (always .exhaustive)
  | _ => none

/-- Reads a name given by a person. ASCII letters may be of either case. -/
def parse (text : String) : Except UnknownStrategy Strategy :=
  match text.map Char.toLower with
  | "auto" => .ok auto
  | "greedy" => .ok (always .greedy)
  | "dp" => .ok (always .exhaustive)
  | "dynamic" => .ok (always .exhaustive)
  | "dynamic_programming" => .ok (always .exhaustive)
  | other => .error ⟨other⟩

@[simp] theorem ofFileName?_fileName (s : Strategy) : ofFileName? s.fileName = some s := by
  rcases s with _ | search
  · rfl
  · cases search <;> rfl

end Strategy

/-- How joins are to be ordered. -/
structure SearchConfig where
  strategy : Strategy := .auto
  /-- The largest number of joins that the automatic choice still searches exhaustively. -/
  greedyThreshold : UInt64 := 10
  deriving DecidableEq, Repr, Inhabited

/-- The search for a query with the given number of joins. Only the automatic choice looks at the
number. -/
def SearchConfig.searchFor (config : SearchConfig) (joins : Nat) : Search :=
  match config.strategy with
  | .auto => if config.greedyThreshold.toNat < joins then .greedy else .exhaustive
  | .always search => search

end LeftDeep
