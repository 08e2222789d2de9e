import Mathlib.Algebra.Group.Nat.Defs
import Mathlib.Data.List.Nodup
import LeftDeep.Catalog

/-!
# Numbered catalogs

In a catalog whose tables have distinct names and are numbered from 1, a name leads to an id and
back, and to the table of both, as long as the ids do not run out.

## Main definitions

* `Catalog.IsNumbered`: the tables have distinct names and are numbered from 1.

## Main statements

* `Catalog.IsNumbered.inverse`: look-ups by name and by id are inverse.
* `Catalog.IsNumbered.table?_eq_bind`: a name leads to the table of its id.
* `Catalog.IsNumbered.tableById?_nextId`: the next id is not in use.
-/

namespace LeftDeep

section Unique

variable {α β : Type} [BEq β] [LawfulBEq β] {key : α → β} {items : List α} {a : α} {k : β}

/-- Among elements of distinct keys, the search for a key finds the one that has it. -/
theorem find?_eq_some_iff_of_nodup (nodup : (items.map key).Nodup) :
    (items.find? fun b => key b == k) = some a ↔ a ∈ items ∧ key a = k := by
  constructor
  · intro found
    have same := List.find?_some found
    exact ⟨List.mem_of_find?_eq_some found, eq_of_beq same⟩
  · rintro ⟨mem, rfl⟩
    have found : (items.find? fun b => key b == key a).isSome = true :=
      List.find?_isSome.2 ⟨a, mem, beq_self_eq_true _⟩
    obtain ⟨b, eq⟩ := Option.isSome_iff_exists.1 found
    have same := List.find?_some eq
    rw [eq, List.inj_on_of_nodup_map nodup (List.mem_of_find?_eq_some eq) mem (eq_of_beq same)]

/-- An element of a new key is found under it, and the others as before. -/
theorem find?_concat_of_fresh (fresh : (items.find? fun b => key b == key a) = none) (k : β) :
    ((items ++ [a]).find? fun b => key b == k) =
      if key a == k then some a else items.find? fun b => key b == k := by
  rw [List.find?_append]
  split
  · next same =>
    rw [← eq_of_beq same, fresh]
    simp
  · next other => simp [other]

end Unique

namespace Catalog

variable {c : Catalog} {t : Table} {name : String} {id : TableId}

theorem table?_eq_none_iff : c.table? name = none ↔ name ∉ c.tables.map Table.name := by
  simp [table?, List.find?_eq_none]

/-- Names are in use once, and ids count up from 1. -/
structure IsNumbered (c : Catalog) : Prop where
  names_nodup : (c.tables.map Table.name).Nodup
  ids_eq : c.tables.map Table.id = (List.range c.tables.length).map fun i => (i + 1).toUInt32

namespace IsNumbered

/-- Ids do not repeat before they run out. -/
theorem ids_nodup (h : c.IsNumbered) (few : c.tables.length < 2 ^ 32) :
    (c.tables.map Table.id).Nodup := by
  rw [h.ids_eq]
  refine List.Nodup.map_on ?_ List.nodup_range
  intro i hi j hj same
  have toNat := congrArg UInt32.toNat same
  simp only [List.mem_range] at hi hj
  simp only [Nat.toUInt32_eq, UInt32.toNat_ofNat'] at toNat
  omega

theorem table?_eq_some_iff (h : c.IsNumbered) :
    c.table? name = some t ↔ t ∈ c.tables ∧ t.name = name :=
  find?_eq_some_iff_of_nodup h.names_nodup

theorem tableById?_eq_some_iff (h : c.IsNumbered) (few : c.tables.length < 2 ^ 32) :
    c.tableById? id = some t ↔ t ∈ c.tables ∧ t.id = id :=
  find?_eq_some_iff_of_nodup (h.ids_nodup few)

/-- A name leads to the id that leads back to it. -/
theorem inverse (h : c.IsNumbered) (few : c.tables.length < 2 ^ 32) :
    c.idOf? name = some id ↔ c.nameOf? id = some name := by
  simp only [idOf?, nameOf?, Option.map_eq_some_iff, h.table?_eq_some_iff,
    h.tableById?_eq_some_iff few]
  constructor
  · rintro ⟨t, ⟨mem, rfl⟩, rfl⟩
    exact ⟨t, ⟨mem, rfl⟩, rfl⟩
  · rintro ⟨t, ⟨mem, rfl⟩, rfl⟩
    exact ⟨t, ⟨mem, rfl⟩, rfl⟩

/-- The table of a name is the table of its id. -/
theorem table?_eq_bind (h : c.IsNumbered) (few : c.tables.length < 2 ^ 32) :
    c.table? name = (c.idOf? name).bind c.tableById? := by
  cases found : c.table? name with
  | none => rw [idOf?, found, Option.map_none, Option.bind_none]
  | some t =>
    have mem := (h.table?_eq_some_iff.1 found).1
    rw [idOf?, found, Option.map_some, Option.bind_some]
    exact ((h.tableById?_eq_some_iff few).2 ⟨mem, rfl⟩).symm

/-- The next id is not in use before the ids run out. -/
theorem tableById?_nextId (h : c.IsNumbered) (few : c.tables.length < 2 ^ 32 - 1) :
    c.tableById? c.nextId = none := by
  rw [Option.eq_none_iff_forall_ne_some]
  intro t found
  obtain ⟨mem, same⟩ := (h.tableById?_eq_some_iff (by omega)).1 found
  have listed : c.nextId ∈ c.tables.map Table.id := List.mem_map.2 ⟨t, mem, same⟩
  rw [h.ids_eq, List.mem_map] at listed
  obtain ⟨i, hi, same⟩ := listed
  have toNat := congrArg UInt32.toNat same
  simp only [List.mem_range] at hi
  simp only [nextId, Nat.toUInt32_eq, UInt32.toNat_ofNat'] at toNat
  omega

end IsNumbered
end Catalog
end LeftDeep
