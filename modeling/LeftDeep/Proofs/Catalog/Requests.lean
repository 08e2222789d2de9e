import Mathlib.Data.List.Induction
import LeftDeep.Proofs.Catalog.Numbered

/-!
# Tables requested one after another

A catalog answers each request for a new table with the next id, or refuses it because its name is
in use. It stays numbered all along, and holds the tables of the requests that were granted an id.

## Main definitions

* `TableRequest`: a request for a table.
* `Catalog.answer`: the answer to a request, and the catalog after it.
* `serve`: the answers to requests one after another.
* `Catalog.Reached`: the catalogs that requests lead to, step by step.

## Main statements

* `Catalog.reached`: a new catalog goes through these steps.
* `Catalog.Reached.isNumbered`: it stays numbered.
* `Catalog.Reached.tables_eq`: it holds the tables of the requests that are granted an id.
* `Catalog.isPrefix_append`: later requests change neither answers nor tables.
-/

namespace LeftDeep

/-- A request for a table of some name and columns. -/
structure TableRequest where
  name : String
  columns : List Column
  deriving DecidableEq, Repr

/-- The table created for a request. -/
def TableRequest.table (r : TableRequest) (id : TableId) : Table :=
  { id, name := r.name, columns := r.columns }

@[simp] theorem TableRequest.id_table (r : TableRequest) (id : TableId) :
    (r.table id).id = id := rfl

@[simp] theorem TableRequest.name_table (r : TableRequest) (id : TableId) :
    (r.table id).name = r.name := rfl

/-- What a request is answered with. -/
abbrev TableAnswer := Except CatalogError TableId

/-- The answers to requests one after another, and the state that is reached. -/
def serve {σ : Type} (answer : σ → TableRequest → TableAnswer × σ) (start : σ)
    (requests : List TableRequest) : List TableAnswer × σ :=
  requests.foldl (fun served r => (served.1 ++ [(answer served.2 r).1], (answer served.2 r).2))
    ([], start)

theorem serve_concat {σ : Type} {answer : σ → TableRequest → TableAnswer × σ} {start : σ}
    (requests : List TableRequest) (r : TableRequest) :
    serve answer start (requests ++ [r]) =
      ((serve answer start requests).1 ++ [(answer (serve answer start requests).2 r).1],
        (answer (serve answer start requests).2 r).2) := by
  rw [serve, List.foldl_append]
  rfl

namespace Catalog

variable {c : Catalog} {requests before later : List TableRequest} {given : List TableAnswer}
  {r : TableRequest} {t : Table} {name : String} {id : TableId}

/-- Answers a request. A catalog that refuses one stays as it is. -/
def answer (c : Catalog) (r : TableRequest) : TableAnswer × Catalog :=
  match c.create r.name r.columns with
  | .ok (id, created) => (.ok id, created)
  | .error e => (.error e, c)

/-- The answers of a new catalog. -/
def answers (requests : List TableRequest) : List TableAnswer := (serve answer empty requests).1

/-- What has become of a new catalog. -/
def after (requests : List TableRequest) : Catalog := (serve answer empty requests).2

/-- The ids that are granted. -/
def granted (given : List TableAnswer) : List TableId := given.filterMap Except.toOption

/-! ## Single requests -/

theorem answer_of_mem (used : r.name ∈ c.tables.map Table.name) :
    c.answer r = (.error (.tableExists r.name), c) := by
  obtain ⟨t, found⟩ := Option.ne_none_iff_exists'.1 (table?_eq_none_iff.not.2 (not_not.2 used))
  rw [answer, create, found]

theorem answer_of_not_mem (fresh : r.name ∉ c.tables.map Table.name) :
    c.answer r = (.ok c.nextId, ⟨c.tables ++ [r.table c.nextId]⟩) := by
  rw [answer, create, table?_eq_none_iff.2 fresh]
  rfl

/-! ## Requests one after another -/

/-- The steps of a new catalog: a request is refused if its name is in use, and else granted the
next id. -/
inductive Reached : List TableRequest → List TableAnswer → Catalog → Prop
  | start : Reached [] [] empty
  | refused {requests : List TableRequest} {given : List TableAnswer} {c : Catalog}
    (r : TableRequest) (h : Reached requests given c) (used : r.name ∈ c.tables.map Table.name) :
    Reached (requests ++ [r]) (given ++ [.error (.tableExists r.name)]) c
  | granted {requests : List TableRequest} {given : List TableAnswer} {c : Catalog}
    (r : TableRequest) (h : Reached requests given c) (fresh : r.name ∉ c.tables.map Table.name) :
    Reached (requests ++ [r]) (given ++ [.ok c.nextId]) ⟨c.tables ++ [r.table c.nextId]⟩

theorem after_concat (requests : List TableRequest) (r : TableRequest) :
    after (requests ++ [r]) = ((after requests).answer r).2 := by
  rw [after, serve_concat]
  rfl

theorem answers_concat (requests : List TableRequest) (r : TableRequest) :
    answers (requests ++ [r]) = answers requests ++ [((after requests).answer r).1] := by
  rw [answers, serve_concat]
  rfl

theorem reached (requests : List TableRequest) :
    Reached requests (answers requests) (after requests) := by
  induction requests using List.reverseRecOn with
  | nil => exact .start
  | append_singleton requests r ih =>
    rw [answers_concat, after_concat]
    by_cases used : r.name ∈ (after requests).tables.map Table.name
    · rw [answer_of_mem used]
      exact .refused r ih used
    · rw [answer_of_not_mem used]
      exact .granted r ih used

namespace Reached

theorem isNumbered (h : Reached requests given c) : c.IsNumbered := by
  induction h with
  | start => exact ⟨List.nodup_nil, rfl⟩
  | refused r _ _ ih => exact ih
  | granted r _ fresh ih =>
    refine ⟨?names, ?ids⟩
    case names =>
      rw [List.map_append, List.map_singleton, ← List.concat_eq_append, List.nodup_concat]
      exact ⟨fresh, ih.names_nodup⟩
    case ids =>
      rw [List.map_append, ih.ids_eq, List.length_append, List.length_singleton, List.range_succ,
        List.map_append]
      rfl

theorem length_eq (h : Reached requests given c) : given.length = requests.length := by
  induction h with
  | start => rfl
  | refused r _ _ ih => simp [ih]
  | granted r _ _ ih => simp [ih]

/-- The names in use are those that were requested. -/
theorem mem_names_iff (h : Reached requests given c) :
    name ∈ c.tables.map Table.name ↔ name ∈ requests.map TableRequest.name := by
  induction h with
  | start => rfl
  | refused r _ used ih =>
    rw [List.map_append, List.mem_append, ← ih, List.map_singleton, List.mem_singleton,
      or_iff_left_of_imp]
    rintro rfl
    exact used
  | granted r _ _ ih =>
    rw [List.map_append, List.map_append, List.mem_append, List.mem_append, ih]
    rfl

/-- The ids in use are those that were granted. -/
theorem granted_eq (h : Reached requests given c) :
    Catalog.granted given = c.tables.map Table.id := by
  induction h with
  | start => rfl
  | refused r _ _ ih =>
    rw [Catalog.granted, List.filterMap_append, ← Catalog.granted, ih]
    exact List.append_nil _
  | granted r _ _ ih =>
    rw [Catalog.granted, List.filterMap_append, ← Catalog.granted, ih, List.map_append]
    rfl

/-- The tables are those of the requests that were granted an id. -/
theorem tables_eq (h : Reached requests given c) :
    c.tables = (requests.zip given).filterMap fun (r, a) => a.toOption.map r.table := by
  induction h with
  | start => rfl
  | refused r h _ ih =>
    rw [List.zip_append h.length_eq.symm, List.filterMap_append, ← ih]
    exact (List.append_nil _).symm
  | granted r h _ ih =>
    rw [List.zip_append h.length_eq.symm, List.filterMap_append, ← ih]
    rfl

theorem mem_tables_iff (h : Reached requests given c) :
    t ∈ c.tables ↔ ∃ r id, (r, .ok id) ∈ requests.zip given ∧ t = r.table id := by
  rw [h.tables_eq, List.mem_filterMap]
  constructor
  · rintro ⟨⟨r, a⟩, mem, created⟩
    cases a with
    | error e => exact absurd created (by simp [Except.toOption])
    | ok id => exact ⟨r, id, mem, (Option.some.inj created).symm⟩
  · rintro ⟨r, id, mem, rfl⟩
    exact ⟨(r, .ok id), mem, rfl⟩

end Reached

/-- Later requests add answers and tables after those that are there. -/
theorem isPrefix_append (before later : List TableRequest) :
    answers before <+: answers (before ++ later) ∧
      (after before).tables <+: (after (before ++ later)).tables := by
  induction later using List.reverseRecOn with
  | nil =>
    rw [List.append_nil]
    exact ⟨List.prefix_rfl, List.prefix_rfl⟩
  | append_singleton later r ih =>
    rw [← List.append_assoc, answers_concat, after_concat]
    refine ⟨ih.1.trans (List.prefix_append _ _), ?_⟩
    by_cases used : r.name ∈ (after (before ++ later)).tables.map Table.name
    · rw [answer_of_mem used]
      exact ih.2
    · rw [answer_of_not_mem used]
      exact ih.2.trans (List.prefix_append _ _)

end Catalog
end LeftDeep
