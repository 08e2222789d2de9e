import LeftDeep.Format.Workload
import LeftDeep.Proofs.Json.Decode

/-!
# Workloads are read back

Whatever spelling a workload is read from, the text it is written as reads as the same workload:
second names of operators and strategies, missing fields and the forms without names come out in the
one form that is written. The doubles of a workload that was read are finite. They are read back if
their numbers are, which the reader does not do for every double since it rounds more than once.

## Main definitions

* `Workload.doubles`: the doubles that a workload holds.

## Main statements

* `TableEntry.isReadAs_toValue` and the like: each record is read back.
* `Workload.isFinite_of_parse`: a workload that was read holds finite doubles only.
* `Workload.parse_render_of_parse`: a workload that was read is read back.
-/

namespace LeftDeep

open Json Json.Value

/-! ## Operators, strategies and configurations -/

theorem Comparison.isReadAs_toValue (op : Comparison) : op.toValue.IsReadAs ofValue? op :=
  ⟨trivial, ofSymbol?_symbol op⟩

theorem Strategy.isReadAs_toValue (s : Strategy) : s.toValue.IsReadAs ofValue? s :=
  ⟨trivial, ofFileName?_fileName s⟩

theorem SearchConfig.isReadAs_toValue (config : SearchConfig) :
    config.toValue.IsReadAs ofValue? config := by
  have strategy := config.strategy.isReadAs_toValue
  have threshold := isReadAs_ofUInt64 config.greedyThreshold
  constructor
  case written =>
    apply isWritten_record
    simp [strategy.written, threshold.written]
  case read =>
    simp only [toValue, ofValue?, bind, Option.bind_eq_some_iff]
    exact ⟨_, fields?_record fieldNames rfl (by decide),
      _, Fields.orDefault?_of_isReadAs strategy rfl _,
      _, Fields.orDefault?_of_isReadAs threshold rfl _, rfl⟩

/-! ## Tables -/

namespace Statistics

variable {s : Statistics}

theorem isWritten_toFields (back : Number.ReadsBack s.pageCost) :
    ∀ f ∈ s.toFields, f.2.IsWritten := by
  simp [toFields, (isReadAs_ofUInt64 s.tuples).written, (isReadAs_ofUInt64 s.pages).written,
    (isReadAs_ofFloat back).written]

theorem isReadable_toFields (back : Number.ReadsBack s.pageCost) (depth : Nat) :
    ∀ f ∈ s.toFields, f.2.isReadable depth = true := by
  simp [toFields, isReadable_ofUInt64, isReadable_ofFloat back]

/-- The fields of statistics are read back among other fields before them. -/
theorem ofFields?_append_toFields (back : Number.ReadsBack s.pageCost) {others : Fields}
    (apart : ∀ name ∈ fieldNames, others.lookup name = none) :
    ofFields? (others ++ s.toFields) = some s := by
  have tuples := apart "tuples" (by decide)
  have pages := apart "pages" (by decide)
  have pageCost := apart "io_cost_per_page" (by decide)
  simp [ofFields?, Fields.required?, Fields.orDefault?, List.lookup_append, tuples, pages, pageCost,
    toFields, List.lookup, (isReadAs_ofUInt64 s.tuples).read, (isReadAs_ofUInt64 s.pages).read,
    (isReadAs_ofFloat back).read]

end Statistics

namespace TableEntry

/-- The fields of a table entry that are not statistics. -/
def ownFields (t : TableEntry) : Fields :=
  [("name", .ofText t.name), ("columns", .array (t.columns.map .ofText)),
    ("primary_key", .ofText? t.primaryKey)]

/-- All fields of a table entry. -/
def fields (t : TableEntry) : Fields := t.ownFields ++ t.statistics.toFields

theorem ofValue?_record (fields : Fields) : ofValue? (record fields) = (do
    let fs ← fields.known? (ownFieldNames ++ Statistics.fieldNames)
    let name ← fs.required? "name" text?
    let columns ← fs.orDefault? "columns" (list? text?) []
    let primaryKey ← fs.orDefault? "primary_key" optionalText? none
    let statistics ← Statistics.ofFields? fs
    if (fields.filter fun (n, _) => !ownFieldNames.contains n).all
        fun (_, v) => v.isReadable (nestingLimit - nesting) then
      some { name, columns, primaryKey, statistics }
    else none) := by
  rw [record, ofValue?, ofMembers?_record]
  rfl

theorem known?_fields (t : TableEntry) :
    t.fields.known? (ownFieldNames ++ Statistics.fieldNames) = some t.fields :=
  known?_self rfl (by decide)

/-- The statistics are the fields that are set aside. -/
theorem filter_fields (t : TableEntry) :
    t.fields.filter (fun (n, _) => !ownFieldNames.contains n) = t.statistics.toFields := by
  simp [fields, ownFields, Statistics.toFields, ownFieldNames]

/-- A table entry is read back. -/
theorem isReadAs_toValue {t : TableEntry} (back : Number.ReadsBack t.statistics.pageCost) :
    t.toValue.IsReadAs ofValue? t := by
  have name := isReadAs_ofText t.name
  have columns := isReadAs_list fun c (_ : c ∈ t.columns) => isReadAs_ofText c
  have primaryKey := isReadAs_ofText? t.primaryKey
  constructor
  case written =>
    apply isWritten_record
    have statistics := Statistics.isWritten_toFields back
    simp only [List.forall_mem_append, List.forall_mem_cons]
    exact ⟨⟨name.written, columns.written, primaryKey.written, by simp⟩, statistics⟩
  case read =>
    have apart : ∀ name ∈ Statistics.fieldNames, t.ownFields.lookup name = none := by
      simp [Statistics.fieldNames, ownFields, List.lookup]
    have statistics : Statistics.ofFields? t.fields = some t.statistics :=
      Statistics.ofFields?_append_toFields back apart
    have readable : (t.statistics.toFields.all
        fun (_, v) => v.isReadable (nestingLimit - nesting)) = true :=
      List.all_eq_true.2 (Statistics.isReadable_toFields back _)
    have eq : t.toValue = record t.fields := rfl
    rw [eq, ofValue?_record, known?_fields, filter_fields]
    simp only [bind, Option.bind_eq_some_iff]
    exact ⟨_, rfl, _, Fields.required?_of_isReadAs name rfl,
      _, Fields.orDefault?_of_isReadAs columns rfl _,
      _, Fields.orDefault?_of_isReadAs primaryKey rfl _, _, statistics, if_pos readable⟩

end TableEntry

/-! ## Scans and joins -/

/-- A scan is read back. -/
theorem ScanEntry.isReadAs_toValue {s : ScanEntry} (back : Number.ReadsBack s.selectivity) :
    s.toValue.IsReadAs ofValue? s := by
  have table := isReadAs_ofText s.table
  have name := isReadAs_ofText? s.name
  have selectivity := isReadAs_ofFloat back
  constructor
  case written =>
    apply isWritten_record
    simp [table.written, name.written, selectivity.written]
  case read =>
    simp only [toValue, ofValue?, bind, Option.bind_eq_some_iff]
    exact ⟨_, fields?_record fieldNames rfl (by decide),
      _, Fields.required?_of_isReadAs table rfl, _, Fields.orDefault?_of_isReadAs name rfl _,
      _, Fields.orDefault?_of_isReadAs selectivity rfl _, rfl⟩

/-- A join condition is read back. -/
theorem JoinEntry.isReadAs_toValue (j : JoinEntry) : j.toValue.IsReadAs ofValue? j := by
  have left := isReadAs_ofText j.left
  have op := j.op.isReadAs_toValue
  have right := isReadAs_ofText? j.right
  constructor
  case written =>
    apply isWritten_record
    simp [left.written, op.written, right.written]
  case read =>
    simp only [toValue, ofValue?, bind, Option.bind_eq_some_iff]
    exact ⟨_, fields?_record fieldNames rfl (by decide),
      _, Fields.required?_of_isReadAs left rfl, _, Fields.orDefault?_of_isReadAs op rfl _,
      _, Fields.orDefault?_of_isReadAs right rfl _, rfl⟩

/-! ## Workloads -/

deriving instance DecidableEq for Statistics, TableEntry, ScanEntry, Workload

namespace Workload

variable {w : Workload}

/-- The doubles that a workload holds. -/
def doubles (w : Workload) : List Float :=
  (w.tables.map fun t => t.statistics.pageCost) ++ w.scans.map ScanEntry.selectivity

/-- A workload is read back, if its doubles are. -/
theorem isReadAs_toValue (back : ∀ x ∈ w.doubles, Number.ReadsBack x) :
    w.toValue.IsReadAs ofValue? w := by
  rw [doubles, List.forall_mem_append, List.forall_mem_map, List.forall_mem_map] at back
  have query := isReadAs_ofText? w.query
  have tables := isReadAs_list fun t mem => TableEntry.isReadAs_toValue (back.1 t mem)
  have scans := isReadAs_list fun s mem => ScanEntry.isReadAs_toValue (back.2 s mem)
  have joins := isReadAs_list fun j (_ : j ∈ w.joins) => j.isReadAs_toValue
  have config := w.config.isReadAs_toValue
  constructor
  case written =>
    apply isWritten_record
    simp [query.written, tables.written, scans.written, joins.written, config.written]
  case read =>
    simp only [toValue, ofValue?, bind, Option.bind_eq_some_iff]
    exact ⟨_, fields?_record fieldNames rfl (by decide),
      _, Fields.orDefault?_of_isReadAs query rfl _,
      _, Fields.required?_of_isReadAs tables rfl, _, Fields.orDefault?_of_isReadAs scans rfl _,
      _, Fields.required?_of_isReadAs joins rfl, _, Fields.orDefault?_of_isReadAs config rfl _, rfl⟩

theorem parse_render (back : ∀ x ∈ w.doubles, Number.ReadsBack x) : parse w.render = .ok w := by
  have all := isReadAs_toValue back
  rw [parse, read?, render, parse?_render all.written, Option.bind_some, all.read]

end Workload

/-! ## Doubles that were read -/

theorem Json.Fields.isFinite_of_orDefault? {fs : Fields} {name : String} {default x : Float}
    (h : fs.orDefault? name float? default = some x) (finite : default.isFinite = true) :
    x.isFinite = true := by
  rw [Fields.orDefault?] at h
  split at h
  · exact Option.some.inj h ▸ finite
  · simp only [float?] at h
    split at h
    · exact Number.isFinite_of_toFloat? h
    · exact absurd h (by simp)

theorem Statistics.isFinite_of_ofFields? {fs : Fields} {s : Statistics}
    (h : ofFields? fs = some s) : s.pageCost.isFinite = true := by
  simp only [ofFields?, bind, Option.bind_eq_some_iff, Option.some.injEq] at h
  obtain ⟨tuples, -, pages, -, pageCost, read, rfl⟩ := h
  exact Fields.isFinite_of_orDefault? read (by decide +kernel)

theorem TableEntry.isFinite_of_ofValue? {v : Value} {t : TableEntry} (h : ofValue? v = some t) :
    t.statistics.pageCost.isFinite = true := by
  simp only [ofValue?, bind] at h
  split at h
  · simp only [Option.bind_eq_some_iff] at h
    obtain ⟨all, -, fs, -, name, -, columns, -, primaryKey, -, statistics, read, rest⟩ := h
    split at rest
    · obtain rfl := Option.some.inj rest
      exact Statistics.isFinite_of_ofFields? read
    · exact absurd rest (by simp)
  · exact absurd h (by simp)

theorem ScanEntry.isFinite_of_ofValue? {v : Value} {s : ScanEntry} (h : ofValue? v = some s) :
    s.selectivity.isFinite = true := by
  simp only [ofValue?, bind, Option.bind_eq_some_iff, Option.some.injEq] at h
  obtain ⟨fs, -, table, -, name, -, selectivity, read, rfl⟩ := h
  exact Fields.isFinite_of_orDefault? read (by decide +kernel)

namespace Workload

variable {w : Workload} {text : String}

/-- A workload that was read holds finite doubles only. -/
theorem isFinite_of_parse (h : parse text = .ok w) : ∀ x ∈ w.doubles, x.isFinite = true := by
  rw [parse] at h
  split at h
  · next w' read =>
    obtain rfl := Except.ok.inj h
    obtain ⟨v, -, read⟩ := Option.bind_eq_some_iff.1 read
    simp only [ofValue?, bind, Option.bind_eq_some_iff, Option.some.injEq] at read
    obtain ⟨fs, -, query, -, tables, tablesRead, scans, scansRead, joins, -, config, -, rfl⟩ := read
    rw [doubles, List.forall_mem_append, List.forall_mem_map, List.forall_mem_map]
    constructor
    · intro t mem
      rw [Fields.required?, Option.bind_eq_some_iff] at tablesRead
      obtain ⟨items, -, read⟩ := tablesRead
      obtain ⟨v, entry⟩ := exists_of_list? read mem
      exact TableEntry.isFinite_of_ofValue? entry
    · intro s mem
      rw [Fields.orDefault?] at scansRead
      split at scansRead
      · obtain rfl := Option.some.inj scansRead
        exact absurd mem (by simp)
      · obtain ⟨v, entry⟩ := exists_of_list? scansRead mem
        exact ScanEntry.isFinite_of_ofValue? entry
  · exact absurd h (by simp)

/-- A workload that was read from any text is read back from its own text, if each finite double in
it is read back from its number. -/
theorem parse_render_of_parse (h : parse text = .ok w)
    (back : ∀ x ∈ w.doubles, x.isFinite = true → Number.ReadsBack x) : parse w.render = .ok w :=
  parse_render fun x mem => back x mem (isFinite_of_parse h x mem)

/-- A workload with second names, an escaped character, fields in another order than they are
written in, missing fields and a scan without names. -/
def mixedText : String :=
  "\x7b\"query\": \"caf\\u00e9\", " ++
  "\"tables\": [\x7b\"pages\": 2, \"name\": \"a\", \"tuples\": 9, " ++
  "\"io_cost_per_page\": 25e-1\x7d], \"scans\": [[\"a\", \"x\"]], " ++
  "\"joins\": [\x7b\"left\": \"x.id\", \"op\": \"<>\"\x7d], " ++
  "\"config\": \x7b\"strategy\": \"dp\"\x7d\x7d"

/-- What it is read as. -/
def mixed : Workload :=
  { query := some "café"
    tables := [{ name := "a", statistics := { tuples := 9, pages := 2, pageCost := 2.5 } }]
    scans := [{ table := "a", name := some "x" }]
    joins := [{ left := "x.id", op := .notEqual }]
    config := { strategy := .always .exhaustive } }

theorem parse_mixedText : parse mixedText = .ok mixed := by
  have read : read? ofValue? mixedText = some mixed := by decide +kernel
  rw [parse, read]

theorem parse_render_mixed : parse mixedText = .ok mixed ∧
    (∀ x ∈ mixed.doubles, x.isFinite = true → Number.ReadsBack x) ∧
      parse mixed.render = .ok mixed := by
  have back : ∀ x ∈ mixed.doubles, x.isFinite = true → Number.ReadsBack x := by decide +kernel
  exact ⟨parse_mixedText, back, parse_render_of_parse parse_mixedText back⟩

end Workload
end LeftDeep
