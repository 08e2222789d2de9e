import LeftDeep.Bindings
import LeftDeep.Catalog
import LeftDeep.Condition

/-!
# Queries

The part of a query that join ordering looks at: which table each alias scans, and the join
conditions.

## Main definitions

* `Query`: the scanned aliases and the join conditions, both in order.
* `Query.withScan` and `Query.withJoin`: building a query.
* `Query.summary`: the text of a query.
-/

namespace LeftDeep

/-- The scans and join conditions of a query. -/
structure Query where
  /-- The query as its author wrote it, if known. -/
  source : Option String := none
  /-- The table that each alias scans. -/
  scans : Bindings TableId := ∅
  /-- The join conditions, in the order of the query. -/
  joins : List Condition := []

namespace Query

/-- The query without scans and joins. -/
def empty (source : Option String := none) : Query := { source }

instance : Inhabited Query := ⟨empty⟩

/-- Scans a table under an alias. An alias in use is given the new table and becomes the latest. -/
def withScan (q : Query) (relation : String) (id : TableId) : Query :=
  { q with scans := q.scans.bind relation id }

/-- Adds a join condition after the others. -/
def withJoin (q : Query) (c : Condition) : Query := { q with joins := q.joins ++ [c] }

/-- The table an alias scans. -/
def tableId? (q : Query) (relation : String) : Option TableId := q.scans.find? relation

/-- The scanned aliases, in order. -/
def aliases (q : Query) : List String := q.scans.names

/-- The aliases that join conditions name, in order of use, repetitions included. -/
def joinedAliases (q : Query) : List String := q.joins.flatMap Condition.aliases

/-- The scans on the first line, then a line for each join. -/
def summary (q : Query) : String :=
  let scans := q.scans.entries.map fun (relation, id) =>
    relation ++ " (table " ++ toString id.toNat ++ ")"
  "Scans: " ++ ", ".intercalate scans
    ++ String.join (q.joins.map fun c => "\n  Join: " ++ c.text)

end Query
end LeftDeep
