/-!
# Named values in binding order

A finite map from names to values that remembers the order in which the names were bound. Binding
a name again gives it the new value and makes it the latest name.

## Main definitions

* `Bindings`: the entries, oldest first, with distinct names.
* `Bindings.find?`, `Bindings.bind`, `Bindings.erase`: look-up and changes.

## Main statements

* `Bindings.find?_foldl_bind`: of several values bound to a name, the last one counts.
-/

namespace LeftDeep

/-- Values bound to distinct names, oldest binding first. -/
structure Bindings (α : Type) where
  entries : List (String × α)
  names_nodup : (entries.map Prod.fst).Nodup

namespace Bindings

variable {α : Type}

/-- No names bound. -/
def empty : Bindings α := ⟨[], List.nodup_nil⟩

instance : EmptyCollection (Bindings α) := ⟨empty⟩
instance : Inhabited (Bindings α) := ⟨empty⟩

/-- The bound names, oldest binding first. -/
def names (b : Bindings α) : List String := b.entries.map Prod.fst

/-- The number of bound names. -/
def size (b : Bindings α) : Nat := b.entries.length

/-- The value bound to a name. -/
def find? (b : Bindings α) (name : String) : Option α := b.entries.lookup name

/-- Whether a name is bound. -/
def contains (b : Bindings α) (name : String) : Bool := (b.find? name).isSome

/-- The entries of other names. -/
def others (entries : List (String × α)) (name : String) : List (String × α) :=
  entries.filter fun entry => entry.1 != name

theorem names_others_nodup (b : Bindings α) (name : String) :
    ((others b.entries name).map Prod.fst).Nodup :=
  b.names_nodup.sublist (List.Sublist.map _ List.filter_sublist)

theorem not_mem_names_others (entries : List (String × α)) (name : String) :
    name ∉ (others entries name).map Prod.fst := by
  simp [others]

/-- Forgets a name. -/
def erase (b : Bindings α) (name : String) : Bindings α :=
  ⟨others b.entries name, b.names_others_nodup name⟩

/-- Binds a name to a value, as the latest binding. -/
def bind (b : Bindings α) (name : String) (value : α) : Bindings α :=
  ⟨others b.entries name ++ [(name, value)], by
    rw [List.map_append, List.nodup_append]
    refine ⟨b.names_others_nodup name, by simp, ?_⟩
    intro x hx y hy
    obtain rfl : y = name := by simpa using hy
    exact fun h => not_mem_names_others b.entries y (h ▸ hx)⟩

/-! ## Look-up after a change -/

private theorem lookup_cons_of_ne {entries : List (String × α)} {name other : String} {value : α}
    (h : other ≠ name) : ((name, value) :: entries).lookup other = entries.lookup other := by
  rw [List.lookup_cons, beq_false_of_ne h]

private theorem lookup_others (entries : List (String × α)) (name other : String) :
    (others entries name).lookup other = if other = name then none else entries.lookup other := by
  induction entries with
  | nil => simp [others]
  | cons entry rest ih =>
    obtain ⟨n, v⟩ := entry
    rw [others] at ih ⊢
    by_cases hn : n = name
    · subst hn
      by_cases ho : other = n
      · simpa [ho] using ih
      · simp [ih, ho, lookup_cons_of_ne ho]
    · by_cases ho : other = n
      · simp [ho, hn]
      · simp [hn, ih, lookup_cons_of_ne ho]

private theorem lookup_append (first second : List (String × α)) (name : String) :
    (first ++ second).lookup name = (first.lookup name).or (second.lookup name) := by
  induction first with
  | nil => simp
  | cons entry rest ih =>
    obtain ⟨n, v⟩ := entry
    by_cases h : name = n
    · simp [h]
    · rw [List.cons_append, lookup_cons_of_ne h, lookup_cons_of_ne h, ih]

@[simp] theorem find?_empty (name : String) : (empty : Bindings α).find? name = none := rfl

theorem find?_erase (b : Bindings α) (name other : String) :
    (b.erase name).find? other = if other = name then none else b.find? other :=
  lookup_others b.entries name other

theorem find?_bind (b : Bindings α) (name other : String) (value : α) :
    (b.bind name value).find? other = if other = name then some value else b.find? other := by
  rw [find?, bind, lookup_append, lookup_others]
  by_cases h : other = name
  · simp [h]
  · rw [lookup_cons_of_ne h]
    simp [h, find?]

/-- Of the values bound to a name one after another, the last one counts. -/
theorem find?_foldl_bind {β : Type} (key : β → String) (value : β → α) (items : List β)
    (b : Bindings α) (name : String) :
    (items.foldl (fun b x => b.bind (key x) (value x)) b).find? name =
      ((items.reverse.find? fun x => key x == name).map value).or (b.find? name) := by
  induction items generalizing b with
  | nil => simp
  | cons x items ih =>
    rw [List.foldl_cons, ih, find?_bind, List.reverse_cons, List.find?_append, Option.map_or,
      Option.or_assoc]
    by_cases h : key x = name
    · simp [h]
    · simp [h, Ne.symm h]

end Bindings
end LeftDeep
