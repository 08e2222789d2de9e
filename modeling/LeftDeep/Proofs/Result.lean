import Mathlib.Data.List.Forall2

/-!
# Results of computations that may fail

A list of computations stops at the first error. If all succeed, their results stand in the order
of the list.

## Main statements

* `bind_eq_ok_iff`: two computations succeed one after the other.
* `bind_congr_of_ok`: what follows a computation, at its result.
* `mapM_eq_ok_iff`: all computations of a list succeed.
* `mapM_eq_error_iff`: the first computation of a list that fails decides the error.
* `mapM_congr`: computations that agree on a list agree on the whole of it.
* `exists_of_mem_left`, `exists_of_mem_right`: what stands beside an element of a list.
-/

namespace LeftDeep

universe u v

variable {ε : Type u} {α β : Type v}

/-! ## Elements of two lists side by side -/

theorem exists_of_mem_left {R : α → β → Prop} {items : List α} {results : List β}
    (h : List.Forall₂ R items results) {a : α} (mem : a ∈ items) : ∃ b ∈ results, R a b := by
  obtain ⟨i, hi, rfl⟩ := List.mem_iff_getElem.1 mem
  obtain ⟨length, related⟩ := List.forall₂_iff_get.1 h
  exact ⟨results[i], List.getElem_mem _, related i hi (length ▸ hi)⟩

theorem exists_of_mem_right {R : α → β → Prop} {items : List α} {results : List β}
    (h : List.Forall₂ R items results) {b : β} (mem : b ∈ results) : ∃ a ∈ items, R a b := by
  obtain ⟨i, hi, rfl⟩ := List.mem_iff_getElem.1 mem
  obtain ⟨length, related⟩ := List.forall₂_iff_get.1 h
  exact ⟨items[i], List.getElem_mem _, related i (length ▸ hi) hi⟩

/-! ## Computations -/

theorem bind_eq_ok_iff {first : Except ε α} {next : α → Except ε β} {result : β} :
    first >>= next = .ok result ↔ ∃ a, first = .ok a ∧ next a = .ok result := by
  cases first with
  | error e => simp [bind, Except.bind]
  | ok a => simp [bind, Except.bind]

theorem mapM_eq_ok_iff {f : α → Except ε β} {items : List α} {results : List β} :
    items.mapM f = .ok results ↔ List.Forall₂ (fun a b => f a = .ok b) items results := by
  induction items generalizing results with
  | nil =>
    rw [List.mapM_nil, List.forall₂_nil_left_iff]
    exact ⟨fun h => (Except.ok.inj h).symm, fun h => congrArg Except.ok h.symm⟩
  | cons a items ih =>
    rw [List.mapM_cons, List.forall₂_cons_left_iff, bind_eq_ok_iff]
    simp only [bind_eq_ok_iff, ih, pure, Except.pure, Except.ok.injEq]
    constructor
    · rintro ⟨b, first, rest, all, rfl⟩
      exact ⟨b, rest, first, all, rfl⟩
    · rintro ⟨b, rest, first, all, rfl⟩
      exact ⟨b, first, rest, all, rfl⟩

theorem bind_eq_error_iff {first : Except ε α} {next : α → Except ε β} {e : ε} :
    first >>= next = .error e ↔ first = .error e ∨ ∃ a, first = .ok a ∧ next a = .error e := by
  cases first with
  | error e' => simp [bind, Except.bind]
  | ok a => simp [bind, Except.bind]

/-- What follows a computation matters at its result only. -/
theorem bind_congr_of_ok {first : Except ε α} {next next' : α → Except ε β}
    (h : ∀ a, first = .ok a → next a = next' a) : first >>= next = first >>= next' := by
  cases first with
  | error e => rfl
  | ok a => exact h a rfl

/-- The computations before the one that fails have all succeeded. -/
theorem mapM_eq_error_iff {f : α → Except ε β} {items : List α} {e : ε} :
    items.mapM f = .error e ↔ ∃ before a after, items = before ++ a :: after ∧
      (∀ b ∈ before, ∃ result, f b = .ok result) ∧ f a = .error e := by
  induction items with
  | nil => simp [pure, Except.pure]
  | cons a items ih =>
    rw [List.mapM_cons, bind_eq_error_iff]
    simp only [bind_eq_error_iff, ih, pure, Except.pure, reduceCtorEq, and_false, exists_false,
      or_false]
    constructor
    · rintro (fails | ⟨result, succeeds, before, b, after, rfl, succeed, fails⟩)
      · exact ⟨[], a, items, rfl, by simp, fails⟩
      · exact ⟨a :: before, b, after, rfl, List.forall_mem_cons.2 ⟨⟨result, succeeds⟩, succeed⟩,
          fails⟩
    · rintro ⟨before, b, after, split, succeed, fails⟩
      cases before with
      | nil =>
        obtain ⟨rfl, rfl⟩ := List.cons.inj split
        exact .inl fails
      | cons first before =>
        obtain ⟨rfl, rfl⟩ := List.cons.inj split
        obtain ⟨⟨result, succeeds⟩, succeed⟩ := List.forall_mem_cons.1 succeed
        exact .inr ⟨result, succeeds, before, b, after, rfl, succeed, fails⟩

theorem mapM_congr {f g : α → Except ε β} {items : List α} (h : ∀ a ∈ items, f a = g a) :
    items.mapM f = items.mapM g := by
  induction items with
  | nil => rfl
  | cons a items ih =>
    rw [List.mapM_cons, List.mapM_cons, h a List.mem_cons_self,
      ih fun b mem => h b (List.mem_cons_of_mem a mem)]

end LeftDeep
