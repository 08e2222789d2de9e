import LeftDeep.PlanError
import LeftDeep.Problem.Basic

/-!
# The greedy search

Builds one plan by appending, again and again, the join that costs least to append. Of equally
cheap joins the first in the query is taken. The search never goes back on a choice; it fails when
none of the joins that remain can be appended.

## Main definitions

* `Problem.cheapest?`: the cheapest next step.
* `Problem.greedy`: the search.
-/

namespace LeftDeep.Problem

/-- The cheaper of two steps, the earlier one if they cost the same. -/
def cheaper (best : Option Step) (s : Step) : Option Step :=
  match best with
  | none => some s
  | some b => if s.cost < b.cost then some s else some b

/-- The cheapest step that appends one of the given joins to a plan. -/
def cheapest? (p : Problem) (plan : PartialPlan) (indexes : List Nat) : Option Step :=
  (indexes.filterMap (p.nextStep? plan)).foldl cheaper none

theorem cheaper_eq_or (best : Option Step) (s : Step) :
    cheaper best s = some s ∨ cheaper best s = best := by
  unfold cheaper
  split
  · exact .inl rfl
  · split
    · exact .inl rfl
    · exact .inr rfl

theorem mem_of_foldl_cheaper {steps : List Step} {best : Option Step} {s : Step}
    (h : steps.foldl cheaper best = some s) : s ∈ steps ∨ best = some s := by
  induction steps generalizing best with
  | nil => exact .inr h
  | cons t ts ih =>
    rcases ih h with hs | hb
    · exact .inl (List.mem_cons_of_mem _ hs)
    · rcases cheaper_eq_or best t with ht | ht
      · obtain rfl : t = s := by simpa [ht] using hb
        exact .inl List.mem_cons_self
      · exact .inr (ht ▸ hb)

/-- The cheapest step appends one of the given joins. -/
theorem join_mem_of_cheapest? {p : Problem} {plan : PartialPlan} {indexes : List Nat} {s : Step}
    (h : p.cheapest? plan indexes = some s) : s.join ∈ indexes := by
  rcases mem_of_foldl_cheaper h with hs | hs
  · obtain ⟨i, hi, next⟩ := List.mem_filterMap.1 hs
    exact join_of_nextStep? next ▸ hi
  · exact absurd hs (by simp)

/-- Appends the remaining joins to a plan, the cheapest first. -/
def greedyFrom (p : Problem) (plan : PartialPlan) (remaining : List Nat) :
    Except PlanError PartialPlan :=
  if remaining.isEmpty then .ok plan
  else
    match _h : p.cheapest? plan remaining with
    | none => .error (.disconnected (remaining.filterMap p.condition?))
    | some s => greedyFrom p (plan.extend s) (remaining.erase s.join)
termination_by remaining.length
decreasing_by
  have mem := join_mem_of_cheapest? _h
  have := List.length_erase_of_mem mem
  have := List.length_pos_of_mem mem
  omega

/-- The plan that the greedy search finds. -/
def greedy (p : Problem) : Except PlanError PartialPlan :=
  p.greedyFrom ∅ (List.range p.size)

end LeftDeep.Problem
