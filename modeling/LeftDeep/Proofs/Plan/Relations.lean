import LeftDeep.Proofs.Checked.Resolution

/-!
# Relations and their aliases

The relations of a problem are found while its joins are resolved, so a join may store the index of
a relation before the later ones are known. The index stays right: what is known after some of the
joins is the front of what is known after all of them, and every relation is listed once. Whether
two indexes are equal then says whether two aliases are.

## Main definitions

* `Problem.names`: the aliases of a problem's relations.
* `Join.Resolves`: a join stores the indexes of its condition's aliases.
* `Inputs.IsInterned`: a problem lists the aliases in use, and its joins refer to them.

## Main statements

* `Checked.resolveAll_take`: the joins and relations known after some of the conditions.
* `Join.Resolves.reads_iff`: a join reads the relation at an index if it mentions its alias.
* `Inputs.isIndexed_of_problem`: the joins of a problem refer to its relations.
* `Inputs.isInterned_of_problem`: the problem that a query poses is interned.
-/

namespace LeftDeep

/-- The aliases of the relations, in order. -/
def Problem.names (p : Problem) : List String := p.relations.toList.map fun r => r.name

/-- A join stores where the aliases of its condition stand among some names. -/
structure Join.Resolves (names : List String) (j : Join) (c : Condition) : Prop where
  condition : j.condition = c
  left : names[j.left]? = some c.left.relation
  right : ∀ index, j.right = some index →
    ∃ ref, c.right = .column ref ∧ names[index]? = some ref.relation
  right_eq_none_iff : j.right = none ↔ c.isSubquery = true

/-- A problem lists the aliases that the joins of a query name, and its joins refer to them. -/
structure Inputs.IsInterned (inputs : Inputs) (p : Problem) : Prop where
  /-- The relations are the aliases in use. -/
  mem_names_iff : ∀ name, name ∈ p.names ↔ ∃ c ∈ inputs.query.joins, c.mentions name = true
  /-- No alias is listed twice. -/
  nodup : p.names.Nodup
  /-- An alias comes before those that are used later. -/
  firstUse : p.names.Pairwise fun a b =>
    inputs.query.joinedAliases.idxOf a < inputs.query.joinedAliases.idxOf b
  /-- Every join stores the indexes of its aliases. -/
  resolves : List.Forall₂ (Join.Resolves p.names) p.joins.toList inputs.query.joins
  /-- Two indexes are equal if their aliases are. -/
  index_eq_iff : ∀ (i k : ℕ) (a b : String), p.names[i]? = some a → p.names[k]? = some b →
    (i = k ↔ a = b)
  /-- A plan reads a relation if a join of the plan mentions its alias. -/
  isRead_iff : ∀ steps relation, p.isRead steps relation = true ↔
    ∃ s ∈ steps, ∃ c name, inputs.query.joins[s.join]? = some c ∧
      p.names[relation]? = some name ∧ c.mentions name = true
  /-- Resolving some of the joins already gives their final form, and the front of the relations. -/
  stages : ∀ k, ∃ known,
    Checked.resolveAll inputs #[] (inputs.query.joins.take k) =
        .ok (.ok (p.joins.toList.take k, known)) ∧
      known.toList <+: p.relations.toList

/-! ## The order of first use -/

theorem pairwise_eraseDups (names : List String) :
    names.eraseDups.Pairwise fun a b => names.idxOf a < names.idxOf b := by
  induction names using List.reverseRecOn with
  | nil => exact List.Pairwise.nil
  | append_singleton done name ih =>
    have old {a : String} (mem : a ∈ done) : (done ++ [name]).idxOf a = done.idxOf a :=
      List.idxOf_append_of_mem mem
    have front : done.eraseDups.Pairwise fun a b =>
        (done ++ [name]).idxOf a < (done ++ [name]).idxOf b := by
      apply ih.imp_of_mem
      intro a b memA memB lt
      rwa [old (List.mem_eraseDups.1 memA), old (List.mem_eraseDups.1 memB)]
    rw [Inputs.eraseDups_concat]
    by_cases mem : name ∈ done
    · rwa [if_pos mem]
    · rw [if_neg mem, List.pairwise_append]
      refine ⟨front, List.pairwise_singleton _ _, ?_⟩
      intro a memA b isLast
      obtain rfl := List.mem_singleton.1 isLast
      have known := List.mem_eraseDups.1 memA
      rw [old known, List.idxOf_append_of_notMem mem, List.idxOf_cons_self, Nat.add_zero]
      exact List.idxOf_lt_length_of_mem known

theorem nodup_eraseDups (names : List String) : names.eraseDups.Nodup := by
  apply (pairwise_eraseDups names).imp
  intro a b lt eq
  exact lt.ne (congrArg names.idxOf eq)

/-! ## Stored indexes -/

theorem index_eq_iff {names : List String} (nodup : names.Nodup) {i k : ℕ} {a b : String}
    (first : names[i]? = some a) (second : names[k]? = some b) : i = k ↔ a = b := by
  have lt : i < names.length := (List.getElem?_eq_some_iff.1 first).1
  rw [← List.getElem?_inj lt nodup, first, second, Option.some.injEq]

/-- A join reads the relation at an index if its condition mentions the alias there. -/
theorem Join.Resolves.reads_iff {names : List String} {j : Join} {c : Condition}
    (h : j.Resolves names c) (nodup : names.Nodup) (relation : ℕ) :
    j.reads relation = true ↔
      ∃ name, names[relation]? = some name ∧ c.mentions name = true := by
  obtain ⟨leftRef, op, right⟩ := c
  have left (name : String) (found : names[relation]? = some name) :
      j.left = relation ↔ leftRef.relation = name := index_eq_iff nodup h.left found
  cases right with
  | subquery =>
    have absent : j.right = none := h.right_eq_none_iff.2 rfl
    simp only [reads, absent, Condition.mentions, Operand.column?, Option.map_none, beq_iff_eq,
      Bool.or_eq_true, reduceCtorEq, or_false]
    constructor
    · rintro rfl
      exact ⟨_, h.left, rfl⟩
    · rintro ⟨name, found, eq⟩
      exact (left name found).2 eq
  | column ref =>
    have present : j.right ≠ none := fun absent =>
      Bool.false_ne_true (h.right_eq_none_iff.1 absent)
    obtain ⟨index, stored⟩ := Option.ne_none_iff_exists'.1 present
    obtain ⟨ref', same, rightFound⟩ := h.right index stored
    obtain rfl := Operand.column.inj same
    simp only [reads, stored, Condition.mentions, Operand.column?, Option.map_some, beq_iff_eq,
      Bool.or_eq_true, Option.some.injEq]
    constructor
    · rintro (rfl | rfl)
      · exact ⟨_, h.left, .inl rfl⟩
      · exact ⟨_, rightFound, .inr rfl⟩
    · rintro ⟨name, found, eq | eq⟩
      · exact .inl ((left name found).2 eq)
      · exact .inr ((index_eq_iff nodup rightFound found).2 eq)

/-- A join that looks its aliases up among names that list them stores their indexes. -/
theorem Inputs.resolves_join (inputs : Inputs) {names : List String} {c : Condition}
    (listed : c.aliases ⊆ names) : (inputs.join names c).Resolves names c where
  condition := rfl
  left := List.getElem?_idxOf (listed List.mem_cons_self)
  right := by
    intro index stored
    obtain ⟨left, op, right⟩ := c
    cases right with
    | subquery => exact absurd stored (by simp [Inputs.join, Operand.column?])
    | column ref =>
      have mem : ref.relation ∈ names := listed (by simp [Condition.aliases, Operand.column?])
      obtain rfl := Option.some.inj stored
      exact ⟨ref, rfl, List.getElem?_idxOf mem⟩
  right_eq_none_iff := by
    obtain ⟨left, op, right⟩ := c
    cases right <;> simp [Inputs.join, Operand.column?, Condition.isSubquery, Operand.isSubquery]

/-! ## The joins of a problem -/

namespace Inputs

variable {inputs : Inputs} {p : Problem}

theorem relationsOf_of_problem (h : inputs.problem = .ok p) :
    inputs.relationsOf inputs.query.joinedAliases = .ok p.relations :=
  relationsOf_eq_ok_iff.2 (mapM_eq_ok_iff.2 (forall₂_relations_of_problem h))

theorem names_of_problem (h : inputs.problem = .ok p) : p.names = inputs.relationNames :=
  names_of_relationsOf (relationsOf_of_problem h)

theorem aliases_subset_names (h : inputs.problem = .ok p) {c : Condition}
    (mem : c ∈ inputs.query.joins) : c.aliases ⊆ p.names := by
  intro name named
  rw [names_of_problem h]
  exact mem_relationNames mem named

/-- The joins of the problem store the indexes of their aliases. -/
theorem resolves_of_problem (h : inputs.problem = .ok p) :
    List.Forall₂ (Join.Resolves p.names) p.joins.toList inputs.query.joins := by
  rw [joins_of_problem h, ← names_of_problem h, List.toList_toArray, List.forall₂_map_left_iff,
    List.forall₂_same]
  intro c mem
  exact resolves_join inputs (aliases_subset_names h mem)

/-- The joins of the problem refer to its relations. -/
theorem isIndexed_of_problem (h : inputs.problem = .ok p) : p.IsIndexed := by
  have size : p.names.length = p.relations.size := by
    rw [Problem.names, List.length_map, Array.length_toList]
  have lt {index : ℕ} {name : String} (found : p.names[index]? = some name) :
      index < p.relations.size := size ▸ (List.getElem?_eq_some_iff.1 found).1
  have resolved {j : Join} (mem : j ∈ p.joins) : ∃ c, j.Resolves p.names c := by
    obtain ⟨c, -, resolves⟩ :=
      exists_of_mem_left (resolves_of_problem h) (Array.mem_toList_iff.2 mem)
    exact ⟨c, resolves⟩
  constructor
  case left_lt =>
    intro j mem
    obtain ⟨c, resolves⟩ := resolved mem
    exact lt resolves.left
  case right_lt =>
    intro j mem r stored
    obtain ⟨c, resolves⟩ := resolved mem
    obtain ⟨ref, -, found⟩ := resolves.right r stored
    exact lt found

end Inputs

/-! ## Some of the joins -/

/-- The relations of some aliases are the front of the relations of more. -/
theorem Inputs.exists_relationsOf_prefix {inputs : Inputs} {done more : List String}
    {all : Array Relation} (h : inputs.relationsOf (done ++ more) = .ok all) :
    ∃ known, inputs.relationsOf done = .ok known ∧ known.toList <+: all.toList := by
  cases first : inputs.relationsOf done with
  | error e =>
    rw [relationsOf_append_of_error first] at h
    exact absurd h (by simp)
  | ok known =>
    refine ⟨known, rfl, ?_⟩
    rw [relationsOf_eq_ok_iff, List.eraseDups_append, List.mapM_append, bind_eq_ok_iff] at h
    obtain ⟨front, found, rest⟩ := h
    obtain ⟨back, -, eq⟩ := bind_eq_ok_iff.1 rest
    rw [relationsOf_eq_ok_iff.1 first] at found
    obtain rfl := Except.ok.inj found
    exact ⟨back, Except.ok.inj eq⟩

/-- Resolving the first of a query's conditions gives the first joins of its problem, in the form
that they have in the end, and the first of its relations. -/
theorem Checked.resolveAll_take {inputs : Inputs} {p : Problem} (h : inputs.problem = .ok p)
    (k : ℕ) : ∃ known,
      resolveAll inputs #[] (inputs.query.joins.take k) =
          .ok (.ok (p.joins.toList.take k, known)) ∧
        known.toList <+: p.relations.toList := by
  set front := inputs.query.joins.take k with frontEq
  set done := front.flatMap Condition.aliases with doneEq
  set more := (inputs.query.joins.drop k).flatMap Condition.aliases
  have split : inputs.query.joinedAliases = done ++ more := by
    rw [doneEq, ← List.flatMap_append, frontEq, List.take_append_drop, Query.joinedAliases]
  have all := Inputs.relationsOf_of_problem h
  rw [split] at all
  obtain ⟨known, found, before⟩ := Inputs.exists_relationsOf_prefix all
  refine ⟨known, ?_, before⟩
  have empty : inputs.relationsOf [] = .ok #[] := rfl
  have joins : front.map (inputs.join done.eraseDups) = p.joins.toList.take k := by
    rw [Inputs.joins_of_problem h, Inputs.relationNames, split, List.toList_toArray,
      ← List.map_take]
    apply List.map_congr_left
    intro c mem
    have sub : c.aliases ⊆ done := fun name named => List.mem_flatMap.2 ⟨c, mem, named⟩
    exact (join_eraseDups_append inputs sub more).symm
  rw [resolveAll_eq_ok empty, List.nil_append, found, ← joins]
  rfl

/-! ## The problem of a query -/

/-- The problem that a query poses lists each alias in use once, at its first use, and the indexes
that its joins store are those of their aliases. -/
theorem Inputs.isInterned_of_problem {inputs : Inputs} {p : Problem}
    (h : inputs.problem = .ok p) : inputs.IsInterned p := by
  have names := names_of_problem h
  have nodup : p.names.Nodup := names ▸ nodup_eraseDups _
  constructor
  case mem_names_iff =>
    intro name
    rw [names, mem_relationNames_iff, Query.joinedAliases, List.mem_flatMap]
    simp only [Condition.mem_aliases_iff]
  case nodup => exact nodup
  case firstUse => exact names ▸ pairwise_eraseDups _
  case resolves => exact resolves_of_problem h
  case index_eq_iff =>
    intro i k a b first second
    exact index_eq_iff nodup first second
  case isRead_iff =>
    intro steps relation
    have one (s : Step) : (p.joins[s.join]?.any fun j => j.reads relation) = true ↔
        ∃ c name, inputs.query.joins[s.join]? = some c ∧ p.names[relation]? = some name ∧
          c.mentions name = true := by
      rw [getElem?_joins_of_problem h, ← names]
      cases found : inputs.query.joins[s.join]? with
      | none => simp
      | some c =>
        have listed := aliases_subset_names h (List.mem_of_getElem? found)
        simpa using (resolves_join inputs listed).reads_iff nodup relation
    simp only [Problem.isRead, List.any_eq_true, one]
  case stages => exact Checked.resolveAll_take h

/-- Aliases that are used again: on the right, on the left, beside a sub-query and on both sides of
one join. -/
def Inputs.reusedAliases : Inputs where
  query :=
    { scans := ((Bindings.empty.bind "a" 1).bind "b" 2).bind "c" 1
      joins := [
        { left := ⟨"c", "x"⟩, op := .equal, right := .column ⟨"a", "x"⟩ },
        { left := ⟨"b", "y"⟩, op := .less, right := .column ⟨"c", "x"⟩ },
        { left := ⟨"a", "x"⟩, op := .equal, right := .subquery },
        { left := ⟨"b", "y"⟩, op := .equal, right := .column ⟨"b", "z"⟩ }] }
  catalog := { tables := [
    { id := 1, name := "even", columns := [⟨"x", true⟩] },
    { id := 2, name := "odd", columns := [⟨"y", false⟩, ⟨"z", false⟩] }] }
  statistics := (Bindings.empty.bind "even" { tuples := 2, pages := 1 }).bind
    "odd" { tuples := 3, pages := 2 }
  selectivities := ((Bindings.empty.bind "a" unfiltered).bind "b" unfiltered).bind "c" unfiltered

/-- The problem of the aliases that are used again. -/
def Problem.reusedAliases : Problem where
  joins := #[
    { condition := { left := ⟨"c", "x"⟩, op := .equal, right := .column ⟨"a", "x"⟩ }
      left := 0, right := some 1, leftKeyed := true, rightKeyed := true },
    { condition := { left := ⟨"b", "y"⟩, op := .less, right := .column ⟨"c", "x"⟩ }
      left := 2, right := some 0, leftKeyed := false, rightKeyed := true },
    { condition := { left := ⟨"a", "x"⟩, op := .equal, right := .subquery }
      left := 1, right := none, leftKeyed := true, rightKeyed := false },
    { condition := { left := ⟨"b", "y"⟩, op := .equal, right := .column ⟨"b", "z"⟩ }
      left := 2, right := some 2, leftKeyed := false, rightKeyed := false }]
  relations := #[⟨"c", { cost := 1, rows := 2 }⟩, ⟨"a", { cost := 1, rows := 2 }⟩,
    ⟨"b", { cost := 2, rows := 3 }⟩]

set_option maxRecDepth 20000 in
theorem Inputs.reusedAliases_isInterned :
    reusedAliases.problem = .ok Problem.reusedAliases ∧
      reusedAliases.IsInterned Problem.reusedAliases :=
  ⟨rfl, isInterned_of_problem rfl⟩

end LeftDeep
