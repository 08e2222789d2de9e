import LeftDeep.Proofs.Checked.Search
import LeftDeep.Proofs.Plan.Interning
import LeftDeep.Proofs.Plan.Resolution

/-!
# Checked resolution of a query

The joins of a query are resolved one after another, left side before right. The first use of an
alias looks its relation up and enters it as the last one, a later use finds it by a search. The
index of an entry is the number of entries less one, which does not fault, and the problem that
comes out is the one whose relations are listed beforehand.

## Main definitions

* `Inputs.relationsOf`: the relations of aliases, each at its first use.
* `Checked.intern`, `Checked.resolve`, `Checked.problem`: the checked resolution.

## Main statements

* `Checked.intern_eq_ok`: one more alias.
* `Checked.problem_eq_ok`: resolving a query does not fault.
-/

namespace LeftDeep

/-- The relations that aliases stand for, each listed at its first use. -/
def Inputs.relationsOf (inputs : Inputs) (aliases : List String) :
    Except PlanError (Array Relation) :=
  (aliases.eraseDups.mapM inputs.relation).map List.toArray

namespace Checked

/-- The index of the relation that an alias stands for. An alias that is new enters its relation
behind the others. -/
def intern (inputs : Inputs) (known : Array Relation) (name : String) :
    Checked (Except PlanError (ℕ × Array Relation)) :=
  match known.toList.findIdx? fun r => r.name == name with
  | some index => .ok (.ok (index, known))
  | none =>
    match inputs.relation name with
    | .error e => .ok (.error e)
    | .ok r => do
      let index ← pred (known.push r).size
      .ok (.ok (index, known.push r))

/-- The index of the relation on the right of a condition, if there is one. -/
def internRight (inputs : Inputs) (known : Array Relation) (right : Operand) :
    Checked (Except PlanError (Option ℕ × Array Relation)) :=
  match right with
  | .subquery => .ok (.ok (none, known))
  | .column ref => do
    let result ← intern inputs known ref.relation
    .ok (result.map fun (index, known) => (some index, known))

/-- A condition as a join of the problem. -/
def resolve (inputs : Inputs) (known : Array Relation) (c : Condition) :
    Checked (Except PlanError (Join × Array Relation)) := do
  match ← intern inputs known c.left.relation with
  | .error e => .ok (.error e)
  | .ok (left, known) => do
    let result ← internRight inputs known c.right
    .ok (result.map fun (right, known) =>
      ({ condition := c
         left
         right
         leftKeyed := inputs.isKey c.left
         rightKeyed := c.right.column?.any inputs.isKey }, known))

/-- Conditions as joins of the problem, in order. -/
def resolveAll (inputs : Inputs) (known : Array Relation) :
    List Condition → Checked (Except PlanError (List Join × Array Relation))
  | [] => .ok (.ok ([], known))
  | c :: rest => do
    match ← resolve inputs known c with
    | .error e => .ok (.error e)
    | .ok (j, known) => do
      let result ← resolveAll inputs known rest
      .ok (result.map fun (joins, known) => (j :: joins, known))

/-- The problem that a query poses. -/
def problem (inputs : Inputs) : Checked (Except PlanError Problem) :=
  match inputs.unscanned? with
  | some name => .ok (.error (.unknownRelation name))
  | none => do
    let result ← resolveAll inputs #[] inputs.query.joins
    .ok (result.map fun (joins, relations) => { joins := joins.toArray, relations })

end Checked

/-! ## Aliases at their first use -/

namespace Inputs

variable {inputs : Inputs} {done more : List String} {name : String} {known : Array Relation}
  {e : PlanError}

theorem eraseDups_concat (done : List String) (name : String) :
    (done ++ [name]).eraseDups =
      if name ∈ done then done.eraseDups else done.eraseDups ++ [name] := by
  rw [List.eraseDups_append]
  by_cases mem : name ∈ done
  · simp [List.removeAll, mem]
  · simp [List.removeAll, mem, List.eraseDups_cons]

/-- An alias keeps its index when further aliases are used. -/
theorem idxOf_eraseDups_append (mem : name ∈ done) (more : List String) :
    (done ++ more).eraseDups.idxOf name = done.eraseDups.idxOf name := by
  rw [List.eraseDups_append, List.idxOf_append_of_mem (List.mem_eraseDups.2 mem)]

theorem relationsOf_eq_ok_iff : inputs.relationsOf done = .ok known ↔
    done.eraseDups.mapM inputs.relation = .ok known.toList := by
  rw [relationsOf]
  cases done.eraseDups.mapM inputs.relation with
  | error e => simp [Except.map]
  | ok relations =>
    simp only [Except.map, Except.ok.injEq]
    exact ⟨fun eq => eq ▸ rfl, fun eq => eq ▸ rfl⟩

theorem relationsOf_append_of_error (h : inputs.relationsOf done = .error e)
    (more : List String) : inputs.relationsOf (done ++ more) = .error e := by
  rw [relationsOf] at h ⊢
  rw [List.eraseDups_append, List.mapM_append]
  cases first : done.eraseDups.mapM inputs.relation with
  | error e' =>
    rw [first] at h
    exact h
  | ok relations =>
    rw [first] at h
    exact absurd h (by simp [Except.map])

/-- A further use of an alias enters nothing. -/
theorem relationsOf_concat_of_mem (mem : name ∈ done) :
    inputs.relationsOf (done ++ [name]) = inputs.relationsOf done := by
  rw [relationsOf, eraseDups_concat, if_pos mem, relationsOf]

/-- The first use of an alias enters its relation behind the others. -/
theorem relationsOf_concat_of_notMem (h : inputs.relationsOf done = .ok known)
    (notMem : name ∉ done) :
    inputs.relationsOf (done ++ [name]) = (inputs.relation name).map known.push := by
  rw [relationsOf, eraseDups_concat, if_neg notMem, List.mapM_append, relationsOf_eq_ok_iff.1 h]
  cases found : inputs.relation name with
  | error e =>
    rw [List.mapM_cons, found]
    rfl
  | ok r =>
    have push : (known.toList ++ [r]).toArray = known.push r := by
      rw [← List.push_toArray, Array.toArray_toList]
    rw [List.mapM_cons, found]
    exact congrArg Except.ok push

theorem names_of_relationsOf (h : inputs.relationsOf done = .ok known) :
    known.toList.map (fun r => r.name) = done.eraseDups := by
  have found := mapM_eq_ok_iff.1 (relationsOf_eq_ok_iff.1 h)
  generalize done.eraseDups = names, known.toList = relations at found
  induction found with
  | nil => rfl
  | cons first _ ih => rw [List.map_cons, name_of_relation first, ih]

theorem size_of_relationsOf (h : inputs.relationsOf done = .ok known) :
    known.size = done.eraseDups.length := by
  rw [← names_of_relationsOf h, List.length_map, Array.length_toList]

/-- The search for a known relation finds the index of its alias. -/
theorem findIdx?_of_relationsOf (h : inputs.relationsOf done = .ok known) (name : String) :
    known.toList.findIdx? (fun r => r.name == name) =
      if name ∈ done then some (done.eraseDups.idxOf name) else none := by
  have same : known.toList.findIdx? (fun r => r.name == name) =
      done.eraseDups.findIdx? (· == name) := by
    rw [← names_of_relationsOf h, List.findIdx?_map]
    rfl
  rw [same, List.findIdx?_eq_guard_findIdx_lt, ← List.idxOf, Option.guard]
  simp only [decide_eq_true_eq, List.idxOf_lt_length_iff, List.mem_eraseDups]

end Inputs

/-! ## The resolution -/

namespace Checked

open Inputs

variable {inputs : Inputs} {done : List String} {known : Array Relation}

/-- One more use of an alias does not fault. -/
theorem intern_eq_ok (h : inputs.relationsOf done = .ok known) (name : String) :
    intern inputs known name = .ok ((inputs.relationsOf (done ++ [name])).map fun relations =>
      ((done ++ [name]).eraseDups.idxOf name, relations)) := by
  rw [intern, findIdx?_of_relationsOf h]
  by_cases mem : name ∈ done
  · rw [if_pos mem, relationsOf_concat_of_mem mem, h, idxOf_eraseDups_append mem]
    rfl
  · have last : (done ++ [name]).eraseDups.idxOf name = known.size := by
      have fresh : name ∉ done.eraseDups := fun old => mem (List.mem_eraseDups.1 old)
      rw [eraseDups_concat, if_neg mem, List.idxOf_append_of_notMem fresh, List.idxOf_cons_self,
        Nat.add_zero, size_of_relationsOf h]
    rw [if_neg mem, relationsOf_concat_of_notMem h mem, last]
    cases inputs.relation name with
    | error e => rfl
    | ok r =>
      simp only
      rw [Array.size_push, pred, if_neg (Nat.succ_ne_zero _), ok_bind, Nat.add_sub_cancel]
      rfl

theorem internRight_eq_ok (h : inputs.relationsOf done = .ok known) (right : Operand) :
    internRight inputs known right =
      .ok ((inputs.relationsOf
          (done ++ (right.column?.map ColumnRef.relation).toList)).map fun relations =>
        (right.column?.map fun ref =>
          (done ++ (right.column?.map ColumnRef.relation).toList).eraseDups.idxOf ref.relation,
          relations)) := by
  cases right with
  | subquery =>
    rw [internRight]
    simp only [Operand.column?, Option.map_none, Option.toList_none, List.append_nil, h]
    rfl
  | column ref =>
    rw [internRight]
    simp only [intern_eq_ok h, ok_bind, Operand.column?, Option.map_some, Option.toList_some]
    cases inputs.relationsOf (done ++ [ref.relation]) <;> rfl

/-- One more condition does not fault. -/
theorem resolve_eq_ok (h : inputs.relationsOf done = .ok known) (c : Condition) :
    resolve inputs known c =
      .ok ((inputs.relationsOf (done ++ c.aliases)).map fun relations =>
        (inputs.join (done ++ c.aliases).eraseDups c, relations)) := by
  have aliases : done ++ c.aliases = (done ++ [c.left.relation]) ++
      (c.right.column?.map ColumnRef.relation).toList := by
    rw [Condition.aliases, List.append_assoc, List.singleton_append]
  rw [resolve, intern_eq_ok h, ok_bind, aliases]
  cases first : inputs.relationsOf (done ++ [c.left.relation]) with
  | error e =>
    rw [relationsOf_append_of_error first]
    rfl
  | ok relations =>
    have mem : c.left.relation ∈ done ++ [c.left.relation] := List.mem_concat_self
    have left := idxOf_eraseDups_append mem (c.right.column?.map ColumnRef.relation).toList
    simp only [Except.map, internRight_eq_ok first, ok_bind, ← left]
    cases inputs.relationsOf _ <;> rfl

/-- A join whose aliases are known stays the same when further aliases are used. -/
theorem join_eraseDups_append (inputs : Inputs) {c : Condition} (known : c.aliases ⊆ done)
    (more : List String) :
    inputs.join (done ++ more).eraseDups c = inputs.join done.eraseDups c := by
  have left : c.left.relation ∈ done := known List.mem_cons_self
  have right : (c.right.column?.map fun ref => (done ++ more).eraseDups.idxOf ref.relation) =
      c.right.column?.map fun ref => done.eraseDups.idxOf ref.relation := by
    cases column : c.right.column? with
    | none => rfl
    | some ref =>
      have mem : ref.relation ∈ done := known (by simp [Condition.aliases, column])
      rw [Option.map_some, Option.map_some, idxOf_eraseDups_append mem]
  rw [Inputs.join, Inputs.join, idxOf_eraseDups_append left, right]

/-- The conditions of a query do not fault. -/
theorem resolveAll_eq_ok (h : inputs.relationsOf done = .ok known) (conditions : List Condition) :
    resolveAll inputs known conditions =
      .ok ((inputs.relationsOf (done ++ conditions.flatMap Condition.aliases)).map fun relations =>
        (conditions.map (inputs.join (done ++ conditions.flatMap Condition.aliases).eraseDups),
          relations)) := by
  induction conditions generalizing done known with
  | nil =>
    rw [resolveAll, List.flatMap_nil, List.append_nil, h]
    rfl
  | cons c rest ih =>
    rw [resolveAll, resolve_eq_ok h, ok_bind, List.flatMap_cons, ← List.append_assoc]
    cases first : inputs.relationsOf (done ++ c.aliases) with
    | error e =>
      rw [relationsOf_append_of_error first]
      rfl
    | ok relations =>
      have stays := join_eraseDups_append inputs
        (List.subset_append_right done c.aliases) (rest.flatMap Condition.aliases)
      simp only [Except.map, ih first, ok_bind, List.map_cons, stays]
      cases inputs.relationsOf _ <;> rfl

/-- Resolving a query does not fault. -/
theorem problem_eq_ok (inputs : Inputs) : problem inputs = .ok inputs.problem := by
  rw [problem]
  cases unscanned : inputs.unscanned? with
  | some name => rw [problem_of_unscanned unscanned]
  | none =>
    have empty : inputs.relationsOf [] = .ok #[] := rfl
    simp only [resolveAll_eq_ok empty, ok_bind, List.nil_append]
    rw [problem_of_scanned unscanned, relationsOf, relationNames, Query.joinedAliases]
    cases List.mapM inputs.relation _ <;> rfl

end Checked

end LeftDeep
