import LeftDeep.IndexSet.Basic

/-!
# Operations outside their domain

The operations of the library are total: a look-up past the end gives nothing, a difference below
zero wraps, a division by zero gives zero. Here each of them has a checked form, which stops with a
fault where the plain one would make something up. A computation in checked form that does not stop
has stayed within the domains of all its operations.

## Main definitions

* `Fault`: the ways to leave a domain.
* `Checked`: computations that may stop with a fault.
* `Checked.get`, `Checked.sub`, `Checked.div` and the like: the checked operations.

## Main statements

* `Checked.mapM_eq_ok`, `Checked.mapM_eq_ok_filterMap`, `Checked.foldlM_eq_ok`,
  `Checked.anyM_eq_ok`: walks over a list whose steps stay within their domains.
-/

namespace LeftDeep

/-- An operation outside its domain. -/
inductive Fault where
  /-- A look-up past the end. -/
  | index (index size : Nat)
  /-- The removal of an element that is not there. -/
  | missing
  /-- A set of more indexes than it can address. -/
  | capacity (requested : Nat)
  /-- A shift of a word by its width or more. -/
  | shift (amount : Nat)
  /-- A difference below zero. -/
  | difference
  /-- A division by zero. -/
  | division
  /-- A node of a tree that does not come after its children. -/
  | cycle
  deriving DecidableEq, Repr

/-- A computation that stops at the first fault. -/
abbrev Checked := Except Fault

namespace Checked

universe u

variable {α β : Type u}

/-- The element at an index. -/
def get {α : Type} (xs : Array α) (i : Nat) : Checked α :=
  match xs[i]? with
  | some x => .ok x
  | none => .error (.index i xs.size)

/-- The number before a number. -/
def pred (n : Nat) : Checked Nat := if n = 0 then .error .difference else .ok (n - 1)

/-- A difference of words. -/
def sub (x y : UInt64) : Checked UInt64 := if y ≤ x then .ok (x - y) else .error .difference

/-- A quotient of words. -/
def div (x y : UInt64) : Checked UInt64 := if y = 0 then .error .division else .ok (x / y)

/-- A sum of words, if it fits into one. -/
def add? (x y : UInt64) : Option UInt64 :=
  if x.toNat + y.toNat < UInt64.size then some (x + y) else none

/-- A word shifted up. -/
def shiftLeft (x : UInt64) (amount : Nat) : Checked UInt64 :=
  if amount < IndexSet.capacity then .ok (x <<< amount.toUInt64) else .error (.shift amount)

/-- A word shifted down. -/
def shiftRight (x : UInt64) (amount : Nat) : Checked UInt64 :=
  if amount < IndexSet.capacity then .ok (x >>> amount.toUInt64) else .error (.shift amount)

/-! ## Within the domains -/

@[simp] theorem ok_bind (a : α) (f : α → Checked β) : (Except.ok a : Checked α) >>= f = f a := rfl

theorem get_eq_ok {α : Type} {xs : Array α} {i : Nat} {x : α} (h : xs[i]? = some x) :
    get xs i = .ok x := by
  rw [get, h]

theorem exists_get {α : Type} {xs : Array α} {i : Nat} (h : i < xs.size) :
    ∃ x, xs[i]? = some x ∧ get xs i = .ok x :=
  ⟨xs[i], Array.getElem?_eq_getElem h, get_eq_ok (Array.getElem?_eq_getElem h)⟩

theorem sub_eq_ok {x y : UInt64} (h : y ≤ x) : sub x y = .ok (x - y) := if_pos h

theorem div_eq_ok {x y : UInt64} (h : y ≠ 0) : div x y = .ok (x / y) := if_neg h

/-- A walk that maps the elements of a list. -/
theorem mapM_eq_ok {f : α → Checked β} {g : α → β} {items : List α}
    (h : ∀ a ∈ items, f a = .ok (g a)) : items.mapM f = .ok (items.map g) := by
  induction items with
  | nil => rfl
  | cons a items ih =>
    rw [List.mapM_cons, h a List.mem_cons_self, ok_bind,
      ih fun b mem => h b (List.mem_cons_of_mem a mem)]
    rfl

/-- A walk that maps the elements of a list to values that they all have. -/
theorem mapM_eq_ok_filterMap {f : α → Checked β} {g : α → Option β} {items : List α}
    (h : ∀ a ∈ items, ∃ b, f a = .ok b ∧ g a = some b) :
    items.mapM f = .ok (items.filterMap g) := by
  induction items with
  | nil => rfl
  | cons a items ih =>
    obtain ⟨b, eq, value⟩ := h a List.mem_cons_self
    rw [List.mapM_cons, eq, ok_bind, ih fun c mem => h c (List.mem_cons_of_mem a mem),
      List.filterMap_cons_some value]
    rfl

/-- A walk that carries a state along. -/
theorem foldlM_eq_ok {Inv : β → Prop} {f : β → α → Checked β} {g : β → α → β} {items : List α}
    (h : ∀ a ∈ items, ∀ b, Inv b → f b a = .ok (g b a) ∧ Inv (g b a)) {b : β} (inv : Inv b) :
    items.foldlM f b = .ok (items.foldl g b) ∧ Inv (items.foldl g b) := by
  induction items generalizing b with
  | nil => exact ⟨rfl, inv⟩
  | cons a items ih =>
    obtain ⟨eq, inv⟩ := h a List.mem_cons_self b inv
    rw [List.foldlM_cons, eq, ok_bind, List.foldl_cons]
    exact ih (fun a mem => h a (List.mem_cons_of_mem _ mem)) inv

/-- A walk that looks for an element. -/
theorem anyM_eq_ok {α : Type} {f : α → Checked Bool} {g : α → Bool} {items : List α}
    (h : ∀ a ∈ items, f a = .ok (g a)) : items.anyM f = .ok (items.any g) := by
  induction items with
  | nil => rfl
  | cons a items ih =>
    rw [List.anyM, h a List.mem_cons_self, ok_bind, List.any_cons,
      ih fun b mem => h b (List.mem_cons_of_mem a mem)]
    cases g a <;> rfl

end Checked
end LeftDeep
