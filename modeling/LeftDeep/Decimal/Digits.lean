/-!
# Decimal digits

Runs of decimal digits, most significant first: the number such a run denotes, the digits of a
number, and the ASCII characters the digits are written with.

## Main definitions

* `Digit.toChar` and `Digit.ofChar?`: one digit and its character.
* `Digit.value` and `Digit.ofNat`: a run and the number it denotes.
* `Digit.span`: the digits a text begins with.
-/

namespace LeftDeep

/-- A decimal digit. -/
abbrev Digit := Fin 10

namespace Digit

/-- The digit zero. -/
def zero : Digit := ⟨0, by decide⟩

/-- The character of a digit. -/
def toChar (d : Digit) : Char := Char.ofNat ('0'.toNat + d.val)

/-- The digit of an ASCII digit character. -/
def ofChar? (c : Char) : Option Digit :=
  if h : '0'.toNat ≤ c.toNat ∧ c.toNat ≤ '9'.toNat then
    some ⟨c.toNat - '0'.toNat, by have : '0'.toNat = 48 := rfl; have : '9'.toNat = 57 := rfl; omega⟩
  else none

/-- The number a run of digits denotes. -/
def value (ds : List Digit) : Nat := ds.foldl (fun n d => 10 * n + d.val) 0

/-- The digits of a number, without leading zeros; zero has the one digit zero. -/
def ofNat (n : Nat) : List Digit :=
  if _h : n < 10 then [⟨n, _h⟩]
  else ofNat (n / 10) ++ [⟨n % 10, Nat.mod_lt _ (by decide)⟩]
termination_by n

/-- The characters of a run of digits. -/
def toChars (ds : List Digit) : List Char := ds.map toChar

/-- The digits a text begins with, and what follows them. -/
def span : List Char → List Digit × List Char
  | [] => ([], [])
  | c :: cs =>
    match ofChar? c with
    | none => ([], c :: cs)
    | some d => let (ds, rest) := span cs; (d :: ds, rest)

@[simp] theorem ofChar?_toChar (d : Digit) : ofChar? d.toChar = some d := by
  revert d; decide

/-- Reading the characters of a run gives the run back, and stops before what is no digit. -/
theorem span_toChars (ds : List Digit) {rest : List Char}
    (h : ∀ c ∈ rest.head?, ofChar? c = none) : span (toChars ds ++ rest) = (ds, rest) := by
  induction ds with
  | nil =>
    cases rest with
    | nil => rfl
    | cons c cs => simp [toChars, span, h c (by simp)]
  | cons d ds ih =>
    simp only [toChars, List.map_cons, List.cons_append, span, ofChar?_toChar]
    rw [← toChars, ih]

theorem value_append_singleton (ds : List Digit) (d : Digit) :
    value (ds ++ [d]) = 10 * value ds + d.val := by
  simp [value]

/-- The digits of a number denote it. -/
theorem value_ofNat (n : Nat) : value (ofNat n) = n := by
  induction n using Nat.strongRecOn with
  | _ n ih =>
    rw [ofNat]
    split
    · simp [value]
    · next h =>
      rw [value_append_singleton, ih (n / 10) (by omega)]
      exact Nat.div_add_mod n 10

end Digit
end LeftDeep
