import Std.Data.HashMap
import LeftDeep.Proofs.Catalog.Requests

/-!
# The catalog as two maps and a counter

A catalog can be kept as a map from ids to tables, a map from names to ids and the next id. Requests
change all three, and so the maps never drift apart: after any requests they answer every look-up as
the list of tables does.

## Main definitions

* `CatalogMaps`: the two maps and the counter.
* `CatalogMaps.Mirrors`: maps that answer every look-up as a catalog does.
* `Catalog.IsFaithful`: what the answers to requests and the look-ups after them have to do with
  each other.

## Main statements

* `CatalogMaps.mirrors_answer`: an answer keeps the maps in step with the catalog.
* `Catalog.isFaithful_of_few`: a new catalog is faithful to any requests before the ids run out.
-/

namespace LeftDeep

/-- A catalog kept as two maps and a counter. -/
structure CatalogMaps where
  tables : Std.HashMap TableId Table
  ids : Std.HashMap String TableId
  /-- The id the next table gets. -/
  counter : TableId

namespace CatalogMaps

variable {m : CatalogMaps} {c : Catalog} {requests : List TableRequest}

/-- No tables, and the first id. -/
def empty : CatalogMaps := ⟨∅, ∅, 1⟩

/-- Answers a request. A name in use is refused; else the counter gives the id and moves on. -/
def answer (m : CatalogMaps) (r : TableRequest) : TableAnswer × CatalogMaps :=
  if m.ids.contains r.name then (.error (.tableExists r.name), m)
  else (.ok m.counter,
    { tables := m.tables.insert m.counter (r.table m.counter)
      ids := m.ids.insert r.name m.counter
      counter := m.counter + 1 })

/-- The maps answer every look-up as the catalog does. -/
structure Mirrors (m : CatalogMaps) (c : Catalog) : Prop where
  counter_eq : m.counter = c.nextId
  ids_eq (name : String) : m.ids[name]? = c.idOf? name
  tables_eq (id : TableId) : m.tables[id]? = c.tableById? id

theorem mirrors_empty : empty.Mirrors Catalog.empty := by
  refine ⟨rfl, ?_, ?_⟩
  · intro name
    exact Std.HashMap.getElem?_empty
  · intro id
    exact Std.HashMap.getElem?_empty

section Granted

variable {r : TableRequest}

/-- A new table is found under its name. -/
theorem idOf?_granted (fresh : r.name ∉ c.tables.map Table.name) (name : String) :
    (⟨c.tables ++ [r.table c.nextId]⟩ : Catalog).idOf? name =
      if r.name == name then some c.nextId else c.idOf? name := by
  have found := find?_concat_of_fresh (a := r.table c.nextId) (Catalog.table?_eq_none_iff.2 fresh)
  rw [Catalog.idOf?, Catalog.table?, found name]
  exact apply_ite (Option.map Table.id) _ _ _

/-- A new table is found under its id. -/
theorem tableById?_granted (unused : c.tableById? c.nextId = none) (id : TableId) :
    (⟨c.tables ++ [r.table c.nextId]⟩ : Catalog).tableById? id =
      if c.nextId == id then some (r.table c.nextId) else c.tableById? id :=
  find?_concat_of_fresh (a := r.table c.nextId) unused id

end Granted

/-- An answer keeps the maps in step with the catalog, as long as the next id is not in use. -/
theorem mirrors_answer (h : m.Mirrors c) (unused : c.tableById? c.nextId = none)
    (r : TableRequest) :
    (m.answer r).1 = (c.answer r).1 ∧ (m.answer r).2.Mirrors (c.answer r).2 := by
  have contains : m.ids.contains r.name = true ↔ r.name ∈ c.tables.map Table.name := by
    rw [Std.HashMap.contains_eq_isSome_getElem?, h.ids_eq, Catalog.idOf?, Option.isSome_map,
      Option.isSome_iff_ne_none, ne_eq, Catalog.table?_eq_none_iff, not_not]
  by_cases used : r.name ∈ c.tables.map Table.name
  · rw [answer, if_pos (contains.2 used), Catalog.answer_of_mem used]
    exact ⟨rfl, h⟩
  · rw [answer, if_neg (contains.not.2 used), Catalog.answer_of_not_mem used]
    refine ⟨congrArg Except.ok h.counter_eq, ?counter, ?ids, ?tables⟩
    case counter =>
      rw [h.counter_eq]
      simp [Catalog.nextId]
    case ids =>
      intro name
      rw [idOf?_granted used, ← h.ids_eq, ← h.counter_eq]
      exact Std.HashMap.getElem?_insert
    case tables =>
      intro id
      rw [tableById?_granted unused, ← h.tables_eq, ← h.counter_eq]
      exact Std.HashMap.getElem?_insert

/-! ## Requests one after another -/

/-- The maps give the same answers as the catalog, and stay in step with it. -/
theorem mirrors_after (requests : List TableRequest)
    (few : (Catalog.granted (Catalog.answers requests)).length < 2 ^ 32 - 1) :
    (serve answer empty requests).1 = Catalog.answers requests ∧
      (serve answer empty requests).2.Mirrors (Catalog.after requests) := by
  induction requests using List.reverseRecOn with
  | nil => exact ⟨rfl, mirrors_empty⟩
  | append_singleton requests r ih =>
    have reached := Catalog.reached requests
    have fewer : (Catalog.granted (Catalog.answers requests)).length < 2 ^ 32 - 1 := by
      rw [Catalog.answers_concat, Catalog.granted, List.filterMap_append, List.length_append] at few
      exact Nat.lt_of_le_of_lt (Nat.le_add_right _ _) few
    obtain ⟨same, mirrors⟩ := ih fewer
    rw [reached.granted_eq, List.length_map] at fewer
    have unused := reached.isNumbered.tableById?_nextId fewer
    obtain ⟨same', mirrors'⟩ := mirrors_answer mirrors unused r
    rw [serve_concat, Catalog.answers_concat, Catalog.after_concat, same, same']
    exact ⟨rfl, mirrors'⟩

end CatalogMaps

namespace Catalog

/-- What the answers to requests and the look-ups after them have to do with each other. -/
structure IsFaithful (requests : List TableRequest) : Prop where
  /-- The ids granted are 1, 2, 3 and so on, in the order of the requests. -/
  granted_eq : granted (answers requests) =
    (List.range (granted (answers requests)).length).map fun i => (i + 1).toUInt32
  nextId_eq : (after requests).nextId = ((granted (answers requests)).length + 1).toUInt32
  names_nodup : ((after requests).tables.map Table.name).Nodup
  ids_nodup : ((after requests).tables.map Table.id).Nodup
  /-- A name leads to the id that leads back to it. -/
  inverse (name : String) (id : TableId) :
    (after requests).idOf? name = some id ↔ (after requests).nameOf? id = some name
  /-- The table of a name is the table of its id. -/
  table?_eq (name : String) :
    (after requests).table? name = ((after requests).idOf? name).bind (after requests).tableById?
  /-- Under an id stands the table of the request that was granted it. -/
  stored (id : TableId) (t : Table) : (after requests).tableById? id = some t ↔
    ∃ r, (r, .ok id) ∈ requests.zip (answers requests) ∧
      t = { id, name := r.name, columns := r.columns }
  /-- A request for a new name is granted the next id. -/
  accepted {before : List TableRequest} {r : TableRequest} (asked : before ++ [r] <+: requests)
    (fresh : r.name ∉ before.map TableRequest.name) :
    (answers requests)[before.length]? = some (.ok (after before).nextId)
  /-- A request for a name that was requested before is refused and changes nothing. -/
  refused {before : List TableRequest} {r : TableRequest} (asked : before ++ [r] <+: requests)
    (used : r.name ∈ before.map TableRequest.name) :
    (answers requests)[before.length]? = some (.error (.tableExists r.name)) ∧
      after (before ++ [r]) = after before
  /-- A table that was stored stays as it is. -/
  kept {before : List TableRequest} (asked : before <+: requests) {id : TableId} {t : Table}
    (found : (after before).tableById? id = some t) : (after requests).tableById? id = some t
  /-- Two maps and a counter give the same answers and look-ups. -/
  maps : (serve CatalogMaps.answer .empty requests).1 = answers requests ∧
    (serve CatalogMaps.answer .empty requests).2.Mirrors (after requests)

variable {requests before : List TableRequest} {r : TableRequest} {t : Table} {id : TableId}

/-- What a request was answered with does not depend on later ones. -/
theorem getElem?_answers (asked : before ++ [r] <+: requests) :
    (answers requests)[before.length]? = some ((after before).answer r).1 := by
  obtain ⟨later, rfl⟩ := asked
  obtain ⟨rest, eq⟩ := (isPrefix_append (before ++ [r]) later).1
  have length := (reached before).length_eq
  rw [← eq, answers_concat, List.append_assoc, ← length, List.getElem?_append_right (Nat.le_refl _),
    Nat.sub_self]
  rfl

theorem tableById?_of_prefix (asked : before <+: requests)
    (found : (after before).tableById? id = some t) : (after requests).tableById? id = some t := by
  obtain ⟨later, rfl⟩ := asked
  obtain ⟨added, eq⟩ := (isPrefix_append before later).2
  rw [tableById?] at found
  rw [tableById?, ← eq, List.find?_append, found]
  rfl

/-- A new catalog is faithful to any requests, as long as the ids do not run out. -/
theorem isFaithful_of_few (requests : List TableRequest)
    (few : (granted (answers requests)).length < 2 ^ 32 - 1) : IsFaithful requests := by
  have reached' := reached requests
  have numbered := reached'.isNumbered
  have granted_eq := reached'.granted_eq
  have length_eq : (granted (answers requests)).length = (after requests).tables.length := by
    rw [granted_eq, List.length_map]
  have small : (after requests).tables.length < 2 ^ 32 := by omega
  refine ⟨?granted, ?next, numbered.names_nodup, numbered.ids_nodup small,
    fun name id => numbered.inverse small, fun name => numbered.table?_eq_bind small, ?stored,
    ?accepted, ?refused, fun asked _ _ found => tableById?_of_prefix asked found,
    CatalogMaps.mirrors_after requests few⟩
  case granted =>
    rw [length_eq, granted_eq]
    exact numbered.ids_eq
  case next => rw [length_eq, nextId]
  case stored =>
    intro id t
    rw [numbered.tableById?_eq_some_iff small, reached'.mem_tables_iff]
    constructor
    · rintro ⟨⟨r, id, mem, rfl⟩, rfl⟩
      exact ⟨r, mem, rfl⟩
    · rintro ⟨r, mem, rfl⟩
      exact ⟨⟨r, id, mem, rfl⟩, rfl⟩
  case accepted =>
    intro before r asked fresh
    rw [getElem?_answers asked, answer_of_not_mem ((reached before).mem_names_iff.not.2 fresh)]
  case refused =>
    intro before r asked used
    rw [getElem?_answers asked, after_concat, answer_of_mem ((reached before).mem_names_iff.2 used)]
    exact ⟨rfl, rfl⟩

/-- Four requests, the third of which repeats a name. -/
def repeatedRequests : List TableRequest :=
  [⟨"a", [⟨"id", true⟩]⟩, ⟨"b", []⟩, ⟨"a", []⟩, ⟨"c", []⟩]

/-- The third request is refused, and the first table keeps its column. -/
theorem repeatedRequests_isFaithful :
    (granted (answers repeatedRequests)).length < 2 ^ 32 - 1 ∧
    granted (answers repeatedRequests) = [1, 2, 3] ∧
    (answers repeatedRequests)[2]? = some (.error (.tableExists "a")) ∧
    (after repeatedRequests).tableById? 1 = some ⟨1, "a", [⟨"id", true⟩]⟩ := by
  have few : (granted (answers repeatedRequests)).length < 2 ^ 32 - 1 := by decide +kernel
  have faithful := isFaithful_of_few repeatedRequests few
  have third : repeatedRequests.take 2 ++ [⟨"a", []⟩] <+: repeatedRequests := by
    exact ⟨[⟨"c", []⟩], rfl⟩
  refine ⟨few, faithful.granted_eq, (faithful.refused third (by decide)).1, ?_⟩
  exact (faithful.stored 1 _).2 ⟨⟨"a", [⟨"id", true⟩]⟩, by decide +kernel, rfl⟩

end Catalog
end LeftDeep
