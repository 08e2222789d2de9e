import LeftDeep.Plan.Basic
import LeftDeep.Proofs.Checked.Subsets
import LeftDeep.Proofs.Search.Table

/-!
# Checked searches

The two searches in checked form. They look joins and relations up by index and ask for subsets of
the joins. On a problem whose joins refer to its own relations no look-up faults: the steps of every
plan that is built place joins of the problem, and the sets of the table hold joins of the problem
only. The exhaustive search asks for subsets only after it has made sure that a set can hold all
joins.

## Main definitions

* `Problem.IsIndexed`: the joins of a problem refer to its relations.
* `Problem.PlacesOwn`: a plan places joins of the problem.
* `Checked.nextStep`, `Checked.greedy`, `Checked.planTable`, `Checked.run`: the checked searches.

## Main statements

* `Checked.nextStep_eq_ok`: appending a join of the problem to a plan of such joins does not fault.
* `Checked.greedyFrom_eq_ok`: nor does a run of the greedy search.
* `Checked.planTable_eq_ok`: nor does filling the table, and all plans in it place own joins.
* `Checked.run_eq_ok`: nor does either search.
-/

namespace LeftDeep

/-- The joins of a problem refer to its relations. -/
structure Problem.IsIndexed (p : Problem) : Prop where
  left_lt : ∀ j ∈ p.joins, j.left < p.relations.size
  right_lt : ∀ j ∈ p.joins, ∀ r, j.right = some r → r < p.relations.size

/-- A plan places joins of the problem. -/
def Problem.PlacesOwn (p : Problem) (plan : PartialPlan) : Prop :=
  ∀ s ∈ plan.steps, s.join < p.size

/-- All plans of a table place joins of the problem. -/
def Problem.TablePlacesOwn (p : Problem) (table : PlanTable) : Prop :=
  ∀ set plan, table.find? set = some plan → p.PlacesOwn plan

namespace Problem.PlacesOwn

variable {p : Problem} {plan : PartialPlan} {s : Step}

theorem empty (p : Problem) : p.PlacesOwn ∅ := by
  intro s mem
  exact absurd mem (by simp [EmptyCollection.emptyCollection, PartialPlan.empty])

theorem extend (own : p.PlacesOwn plan) (lt : s.join < p.size) : p.PlacesOwn (plan.extend s) := by
  intro t mem
  rw [PartialPlan.steps_extend, List.mem_append, List.mem_singleton] at mem
  rcases mem with mem | rfl
  · exact own t mem
  · exact lt

theorem extend_of_nextStep? (own : p.PlacesOwn plan) {index : ℕ}
    (step : p.nextStep? plan index = some s) : p.PlacesOwn (plan.extend s) := by
  apply own.extend
  rw [join_of_nextStep? step]
  exact lt_size_of_nextStep? step

end Problem.PlacesOwn

namespace Checked

open Problem

/-! ## Appending a join -/

/-- A relation as an input, read by a scan. -/
def scanned (p : Problem) (relation : Option ℕ) (keyed : Bool) : Checked Side :=
  match relation with
  | none => .ok .absent
  | some r => do
    let relation ← get p.relations r
    .ok { toEstimate := relation.scan, keyed }

/-- Whether some join of a plan passes a test. -/
def anyJoin (p : Problem) (steps : List Step) (test : Join → Bool) : Checked Bool :=
  steps.anyM fun s => do
    let j ← get p.joins s.join
    .ok (test j)

/-- Whether some join of a plan reads a relation, if there is one. -/
def isRead (p : Problem) (steps : List Step) (relation : Option ℕ) : Checked Bool :=
  match relation with
  | none => .ok false
  | some r => anyJoin p steps fun j => j.reads r

/-- The inputs of a join that is appended to a plan, if it can be. -/
def sides (p : Problem) (plan : PartialPlan) (j : Join) : Checked (Option (Side × Side)) := do
  let left ← scanned p (some j.left) j.leftKeyed
  let right ← scanned p j.right j.rightKeyed
  if plan.isEmpty then .ok (some (left, right))
  else do
    let readsLeft ← isRead p plan.steps (some j.left)
    let readsRight ← isRead p plan.steps j.right
    let keyed ← anyJoin p plan.steps Join.hasKey
    let planned : Side := { toEstimate := plan.toEstimate, keyed }
    match readsLeft, readsRight with
    | true, false => .ok (some (planned, right))
    | false, true => .ok (some (left, planned))
    | _, _ => .ok none

/-- The step that appends a join to a plan, unless that would need a cross product. -/
def nextStep (p : Problem) (plan : PartialPlan) (index : ℕ) : Checked (Option Step) := do
  let j ← get p.joins index
  let sides ← sides p plan j
  .ok (sides.map fun (left, right) =>
    let a := j.arrange left right
    { join := index, outer := a.outerSide, cost := a.cost, rows := j.rows a })

section NextStep

variable {p : Problem} {plan : PartialPlan} {j : Join}

theorem scanned_eq_ok {relation : Option ℕ} (lt : ∀ r, relation = some r → r < p.relations.size)
    (keyed : Bool) : scanned p relation keyed = .ok (p.scanned relation keyed) := by
  cases relation with
  | none => rfl
  | some r =>
    obtain ⟨relation, found, eq⟩ := exists_get (lt r rfl)
    rw [scanned, eq, ok_bind, Problem.scanned, Option.bind_some, found]

theorem anyJoin_eq_ok (own : p.PlacesOwn plan) (test : Join → Bool) :
    anyJoin p plan.steps test = .ok (plan.steps.any fun s => p.joins[s.join]?.any test) := by
  apply anyM_eq_ok
  intro s mem
  obtain ⟨j, found, eq⟩ := exists_get (own s mem)
  rw [eq, ok_bind, found, Option.any_some]

theorem isRead_eq_ok (own : p.PlacesOwn plan) (relation : Option ℕ) :
    isRead p plan.steps relation = .ok (relation.any (p.isRead plan.steps)) := by
  cases relation with
  | none => rfl
  | some r => exact anyJoin_eq_ok own _

theorem sides_eq_ok (indexed : p.IsIndexed) (own : p.PlacesOwn plan) (mem : j ∈ p.joins) :
    sides p plan j = .ok (p.sides? plan j) := by
  have left : ∀ r, some j.left = some r → r < p.relations.size := by
    intro r eq
    obtain rfl := Option.some.inj eq
    exact indexed.left_lt j mem
  rw [sides, scanned_eq_ok left, ok_bind, scanned_eq_ok (indexed.right_lt j mem), ok_bind, sides?]
  split
  · rfl
  · rw [isRead_eq_ok own, ok_bind, isRead_eq_ok own, ok_bind, anyJoin_eq_ok own, ok_bind,
      Option.any_some]
    cases p.isRead plan.steps j.left <;> cases j.right.any (p.isRead plan.steps) <;> rfl

/-- Appending a join of the problem to a plan of such joins does not fault. -/
theorem nextStep_eq_ok (indexed : p.IsIndexed) (own : p.PlacesOwn plan) {index : ℕ}
    (lt : index < p.size) : nextStep p plan index = .ok (p.nextStep? plan index) := by
  obtain ⟨j, found, eq⟩ := exists_get lt
  rw [nextStep, eq, ok_bind, sides_eq_ok indexed own (Array.mem_of_getElem? found), ok_bind,
    nextStep?, found]
  cases sides : p.sides? plan j <;> simp [sides]

end NextStep

/-! ## The greedy search -/

/-- The steps that append some of the given joins to a plan. -/
def offers (p : Problem) (plan : PartialPlan) (indexes : List ℕ) : Checked (List Step) := do
  let steps ← indexes.mapM (nextStep p plan)
  .ok (steps.filterMap id)

/-- The conditions of joins. -/
def conditions (p : Problem) (indexes : List ℕ) : Checked (List Condition) :=
  indexes.mapM fun i => do
    let j ← get p.joins i
    .ok j.condition

/-- Appends the remaining joins to a plan, the cheapest first. -/
def greedyFrom (p : Problem) (plan : PartialPlan) (remaining : List ℕ) :
    Checked (Except PlanError PartialPlan) :=
  if remaining.isEmpty then .ok (.ok plan)
  else do
    let steps ← offers p plan remaining
    match steps.foldl cheaper none with
    | none => do
      let left ← conditions p remaining
      .ok (.error (.disconnected left))
    | some s =>
      if _mem : s.join ∈ remaining then greedyFrom p (plan.extend s) (remaining.erase s.join)
      else .error .missing
termination_by remaining.length
decreasing_by
  have := List.length_erase_of_mem _mem
  have := List.length_pos_of_mem _mem
  omega

/-- The plan that the greedy search finds. -/
def greedy (p : Problem) : Checked (Except PlanError PartialPlan) :=
  greedyFrom p ∅ (List.range p.size)

section Greedy

variable {p : Problem} {plan : PartialPlan} {remaining : List ℕ}

theorem offers_eq_ok (indexed : p.IsIndexed) (own : p.PlacesOwn plan)
    (lt : ∀ i ∈ remaining, i < p.size) :
    offers p plan remaining = .ok (remaining.filterMap (p.nextStep? plan)) := by
  have steps : remaining.mapM (nextStep p plan) = .ok (remaining.map (p.nextStep? plan)) := by
    apply mapM_eq_ok
    intro i mem
    exact nextStep_eq_ok indexed own (lt i mem)
  rw [offers, steps, ok_bind, List.filterMap_map]
  rfl

theorem conditions_eq_ok (lt : ∀ i ∈ remaining, i < p.size) :
    conditions p remaining = .ok (remaining.filterMap p.condition?) := by
  apply mapM_eq_ok_filterMap
  intro i mem
  obtain ⟨j, found, eq⟩ := exists_get (lt i mem)
  exact ⟨j.condition, by rw [eq, ok_bind], by rw [condition?, found, Option.map_some]⟩

/-- A run of the greedy search does not fault. -/
theorem greedyFrom_eq_ok (indexed : p.IsIndexed) (own : p.PlacesOwn plan)
    (lt : ∀ i ∈ remaining, i < p.size) :
    greedyFrom p plan remaining = .ok (p.greedyFrom plan remaining) := by
  fun_induction Problem.greedyFrom p plan remaining with
  | case1 plan remaining empty => rw [greedyFrom, if_pos empty]
  | case2 plan remaining nonempty none =>
    rw [cheapest?] at none
    rw [greedyFrom, if_neg nonempty, offers_eq_ok indexed own lt, ok_bind, none]
    simp only
    rw [conditions_eq_ok lt, ok_bind]
  | case3 plan remaining nonempty s cheapest ih =>
    have mem := join_mem_of_cheapest? cheapest
    have rest := ih (own.extend (lt s.join mem)) fun i left => lt i (List.mem_of_mem_erase left)
    rw [cheapest?] at cheapest
    rw [greedyFrom, if_neg nonempty, offers_eq_ok indexed own lt, ok_bind, cheapest]
    simp only
    rw [dif_pos mem, rest]

theorem greedy_eq_ok (indexed : p.IsIndexed) : greedy p = .ok p.greedy :=
  greedyFrom_eq_ok indexed (PlacesOwn.empty p) fun _ mem => List.mem_range.1 mem

end Greedy

/-! ## The exhaustive search -/

/-- The best plan for a set without one of its joins. -/
def priorPlan (table : PlanTable) (set : IndexSet) (last : ℕ) : Checked (Option PartialPlan) := do
  let rest ← erase set last
  .ok (if rest.isEmpty then some ∅ else table.find? rest)

/-- The plan for a set that has the given join last. -/
def candidate (p : Problem) (table : PlanTable) (set : IndexSet) (last : ℕ) :
    Checked (Option PartialPlan) := do
  match ← priorPlan table set last with
  | none => .ok none
  | some prior => do
    let s ← nextStep p prior last
    .ok (s.map prior.extend)

/-- The best plan for a set. -/
def bestPlan (p : Problem) (table : PlanTable) (set : IndexSet) :
    Checked (Option PartialPlan) := do
  let indexes ← members set.bits
  let plans ← indexes.mapM (candidate p table set)
  .ok ((plans.filterMap id).foldl improve none)

/-- Enters the best plan for a set, if there is one. -/
def enter (p : Problem) (table : PlanTable) (set : IndexSet) : Checked PlanTable := do
  match ← bestPlan p table set with
  | none => .ok table
  | some plan => .ok (table.insert set plan)

/-- Enters the plans for all sets of one size. -/
def enterSize (p : Problem) (table : PlanTable) (size : ℕ) : Checked PlanTable := do
  let sets ← subsets p.size size
  sets.foldlM (enter p) table

/-- The best plans for all sets of joins. -/
def planTable (p : Problem) : Checked (Except PlanError PlanTable) :=
  if p.size ≤ IndexSet.capacity then do
    let table ← (List.range' 1 p.size).foldlM (enterSize p) ∅
    .ok (.ok table)
  else .ok (.error (.tooManyJoins p.size IndexSet.capacity))

/-- The plan that the exhaustive search finds. -/
def exhaustive (p : Problem) : Checked (Except PlanError PartialPlan) :=
  if p.size = 0 then .ok (.ok ∅)
  else do
    match ← planTable p with
    | .error e => .ok (.error e)
    | .ok table => do
      let all ← maskBelow p.size
      .ok (match table.find? ⟨all⟩ with
        | some plan => .ok plan
        | none => .error (.infeasible p.size))

/-- Runs a search. -/
def run (p : Problem) : Search → Checked (Except PlanError PartialPlan)
  | .greedy => greedy p
  | .exhaustive => exhaustive p

section Exhaustive

variable {p : Problem} {table : PlanTable} {set : IndexSet} {last : ℕ}

theorem placesOwn_of_priorPlan? (own : p.TablePlacesOwn table) {prior : PartialPlan}
    (h : priorPlan? table set last = some prior) : p.PlacesOwn prior := by
  rw [priorPlan?] at h
  split at h
  · obtain rfl := Option.some.inj h
    exact PlacesOwn.empty p
  · exact own _ _ h

theorem candidate_eq_ok (indexed : p.IsIndexed) (own : p.TablePlacesOwn table)
    (lt : last < p.size) : candidate p table set last = .ok (p.candidate? table set last) := by
  have prior : priorPlan table set last = .ok (priorPlan? table set last) := by
    rw [priorPlan, erase_eq_ok, ok_bind, priorPlan?]
  rw [candidate, prior, ok_bind, candidate?]
  cases found : priorPlan? table set last with
  | none => rfl
  | some prior =>
    have step := nextStep_eq_ok indexed (placesOwn_of_priorPlan? own found) lt
    simp only [step, ok_bind]
    cases next : p.nextStep? prior last <;> simp [next]

theorem placesOwn_of_candidate? (own : p.TablePlacesOwn table) {plan : PartialPlan}
    (h : p.candidate? table set last = some plan) : p.PlacesOwn plan := by
  simp only [candidate?, bind, Option.bind_eq_some_iff, Option.some.injEq] at h
  obtain ⟨prior, found, s, step, rfl⟩ := h
  exact (placesOwn_of_priorPlan? own found).extend_of_nextStep? step

theorem bestPlan_eq_ok (indexed : p.IsIndexed) (own : p.TablePlacesOwn table)
    (lt : ∀ i, set.contains i = true → i < p.size) :
    bestPlan p table set = .ok (p.bestPlan? table set) := by
  have plans : set.toList.mapM (candidate p table set) =
      .ok (set.toList.map (p.candidate? table set)) := by
    apply mapM_eq_ok
    intro i mem
    exact candidate_eq_ok indexed own (lt i (IndexSet.mem_toList.1 mem))
  have indexes : members set.bits = .ok set.toList := members_eq_ok set.bits
  rw [bestPlan, indexes, ok_bind, plans, ok_bind, List.filterMap_map, bestPlan?]
  rfl

theorem placesOwn_of_bestPlan? (own : p.TablePlacesOwn table) {plan : PartialPlan}
    (h : p.bestPlan? table set = some plan) : p.PlacesOwn plan := by
  obtain ⟨last, -, candidate⟩ := List.mem_filterMap.1 (mem_of_foldl_improve h)
  exact placesOwn_of_candidate? own candidate

/-- Entering a set of joins does not fault, and keeps the table to joins of the problem. -/
theorem enter_eq_ok (indexed : p.IsIndexed) (lt : ∀ i, set.contains i = true → i < p.size)
    (own : p.TablePlacesOwn table) :
    enter p table set = .ok (p.enter table set) ∧ p.TablePlacesOwn (p.enter table set) := by
  rw [enter, bestPlan_eq_ok indexed own lt, ok_bind, Problem.enter]
  cases best : p.bestPlan? table set with
  | none => exact ⟨rfl, own⟩
  | some plan =>
    refine ⟨rfl, ?_⟩
    intro other plan' found
    rw [PlanTable.find?_insert] at found
    split at found
    · obtain rfl := Option.some.inj found
      exact placesOwn_of_bestPlan? own best
    · exact own other plan' found

theorem enterSize_eq_ok (indexed : p.IsIndexed) (le : p.size ≤ IndexSet.capacity) (size : ℕ)
    (own : p.TablePlacesOwn table) :
    enterSize p table size = .ok (p.enterSize table size) ∧
      p.TablePlacesOwn (p.enterSize table size) := by
  rw [enterSize, subsets_eq_ok le, ok_bind, Problem.enterSize, Subsets.foldl_eq_foldl_toList]
  refine foldlM_eq_ok ?_ own
  intro set mem table own
  exact enter_eq_ok indexed ((Subsets.mem_toList_within le set).1 mem).1 own

/-- Filling the table does not fault, and keeps it to joins of the problem. -/
theorem foldlM_enterSize_eq_ok (indexed : p.IsIndexed) (le : p.size ≤ IndexSet.capacity) :
    (List.range' 1 p.size).foldlM (enterSize p) ∅ =
        .ok ((List.range' 1 p.size).foldl p.enterSize ∅) ∧
      p.TablePlacesOwn ((List.range' 1 p.size).foldl p.enterSize ∅) := by
  have empty : p.TablePlacesOwn ∅ := by
    intro set plan found
    rw [show (∅ : PlanTable) = PlanTable.empty from rfl, PlanTable.find?_empty] at found
    exact absurd found (by simp)
  refine foldlM_eq_ok ?_ empty
  intro size _ table own
  exact enterSize_eq_ok indexed le size own

theorem planTable_eq_ok (indexed : p.IsIndexed) : planTable p = .ok p.planTable := by
  rw [planTable, Problem.planTable]
  split
  · next le => rw [(foldlM_enterSize_eq_ok indexed le).1, ok_bind]
  · rfl

theorem exhaustive_eq_ok (indexed : p.IsIndexed) : exhaustive p = .ok p.exhaustive := by
  rw [exhaustive, Problem.exhaustive]
  split
  · rfl
  · rw [planTable_eq_ok indexed, ok_bind]
    cases table : p.planTable with
    | error e => rfl
    | ok table =>
      have le : p.size ≤ IndexSet.capacity := by
        by_contra large
        rw [Problem.planTable, if_neg large] at table
        exact absurd table (by simp)
      simp only [maskBelow_eq_ok le, ok_bind]
      rfl

/-- Neither search faults. -/
theorem run_eq_ok (indexed : p.IsIndexed) (search : Search) :
    run p search = .ok (p.run search) := by
  cases search with
  | greedy => exact greedy_eq_ok indexed
  | exhaustive => exact exhaustive_eq_ok indexed

end Exhaustive

end Checked

/-- The plans of the finished table place joins of the problem. -/
theorem Problem.tablePlacesOwn_of_planTable {p : Problem} {table : PlanTable}
    (indexed : p.IsIndexed) (h : p.planTable = .ok table) : p.TablePlacesOwn table := by
  rw [planTable] at h
  split at h
  · next le =>
    obtain rfl := Except.ok.inj h
    exact (Checked.foldlM_enterSize_eq_ok indexed le).2
  · exact absurd h (by simp)

end LeftDeep
