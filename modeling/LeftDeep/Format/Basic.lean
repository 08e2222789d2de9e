import LeftDeep.Comparison
import LeftDeep.Json.Decode
import LeftDeep.Json.Writer
import LeftDeep.Statistics
import LeftDeep.Strategy

/-!
# The written form of operators, strategies, configurations and statistics

Each has a reader from JSON values and a writer to them. What the writer writes, the reader reads
back; the reader also takes second spellings, missing fields that have a default, and whole
numbers for doubles.
-/

namespace LeftDeep

/-- Reads a JSON text by way of its value. -/
def Json.read? {α : Type} (ofValue? : Json.Value → Option α) (text : String) : Option α :=
  (Json.Value.parse? text).bind ofValue?

namespace Comparison

/-- Reads an operator. -/
def ofValue? (v : Json.Value) : Option Comparison := v.name?.bind ofSymbol?

/-- Writes an operator by its symbol. -/
def toValue (op : Comparison) : Json.Value := .ofText op.symbol

end Comparison

namespace Strategy

/-- Reads a strategy. -/
def ofValue? (v : Json.Value) : Option Strategy := v.name?.bind ofFileName?

/-- Writes a strategy. -/
def toValue (s : Strategy) : Json.Value := .ofText s.fileName

end Strategy

namespace SearchConfig

/-- The names of the fields, in order. -/
def fieldNames : List String := ["strategy", "greedy_threshold"]

/-- Reads a configuration. Every field has a default. -/
def ofValue? (v : Json.Value) : Option SearchConfig := do
  let fs ← v.fields? fieldNames
  let strategy ← fs.orDefault? "strategy" Strategy.ofValue? .auto
  let greedyThreshold ← fs.orDefault? "greedy_threshold" Json.Value.uint64? 10
  some { strategy, greedyThreshold }

/-- Writes a configuration. -/
def toValue (config : SearchConfig) : Json.Value :=
  .record [("strategy", config.strategy.toValue),
    ("greedy_threshold", .ofUInt64 config.greedyThreshold)]

end SearchConfig

namespace Statistics

/-- The names of the fields, in order. -/
def fieldNames : List String := ["tuples", "pages", "io_cost_per_page"]

/-- Reads statistics from the fields of a record. The cost of a page is 1 unless it is given. -/
def ofFields? (fs : Json.Fields) : Option Statistics := do
  let tuples ← fs.required? "tuples" Json.Value.uint64?
  let pages ← fs.required? "pages" Json.Value.uint64?
  let pageCost ← fs.orDefault? "io_cost_per_page" Json.Value.float? 1.0
  some { tuples, pages, pageCost }

/-- Reads statistics. -/
def ofValue? (v : Json.Value) : Option Statistics := (v.fields? fieldNames).bind ofFields?

/-- The fields of statistics. -/
def toFields (s : Statistics) : Json.Fields :=
  [("tuples", .ofUInt64 s.tuples), ("pages", .ofUInt64 s.pages),
    ("io_cost_per_page", .ofFloat s.pageCost)]

/-- Writes statistics. -/
def toValue (s : Statistics) : Json.Value := .record s.toFields

end Statistics
end LeftDeep
