import LeftDeep.Proofs.Json.Number
import LeftDeep.Proofs.Json.Range

/-!
# The numbers of quantities

A word is written without a leading zero and read back as the same word. A double is written with
digits before the point and after it; it need not be read back as the same double, since the reader
rounds more than once, but if it is then its number is one that some text spells.

## Main definitions

* `Number.ReadsBack`: a double is read back from its number.

## Main statements

* `Number.toUInt64?_ofUInt64`: a word is read back from its number.
* `Number.isWritten_of_readsBack`: the number of a double that is read back.
-/

namespace LeftDeep.Json.Number

/-- A double is read back from the number that it is written as. -/
def ReadsBack (x : Float) : Prop := (ofFloat? x).bind toFloat? = some x

instance (x : Float) : Decidable (ReadsBack x) :=
  inferInstanceAs (Decidable ((ofFloat? x).bind toFloat? = some x))

/-- The digits `18181818181818182` of this double are not exact as a double, and are rounded before
they are divided. -/
example : ¬ReadsBack (2.0 / 11.0) := by decide +kernel

/-! ## Digits -/

/-- The digits of a number other than zero begin with another digit than zero. -/
theorem exists_ofNat_eq_cons {n : Nat} (pos : 0 < n) :
    ∃ d ds, Digit.ofNat n = d :: ds ∧ d.val ≠ 0 := by
  induction n using Nat.strongRecOn with
  | _ n ih =>
    rw [Digit.ofNat]
    split
    · next small => exact ⟨⟨n, small⟩, [], rfl, pos.ne'⟩
    · next large =>
      obtain ⟨d, ds, eq, ne⟩ := ih (n / 10) (by omega) (by omega)
      exact ⟨d, ds ++ [_], by rw [eq, List.cons_append], ne⟩

theorem noLeadingZero_cons {d : Digit} (h : d.val ≠ 0) (ds : List Digit) :
    noLeadingZero (d :: ds) = true := by
  cases ds with
  | nil => rfl
  | cons d' ds => simpa [noLeadingZero] using h

theorem noLeadingZero_ofNat (n : Nat) : noLeadingZero (Digit.ofNat n) = true := by
  rcases Nat.eq_zero_or_pos n with rfl | pos
  · decide +kernel
  · obtain ⟨d, ds, eq, ne⟩ := exists_ofNat_eq_cons pos
    rw [eq]
    exact noLeadingZero_cons ne ds

/-! ## Words -/

theorem isWritten_ofUInt64 (n : UInt64) : (ofUInt64 n).IsWritten :=
  ⟨ofNat_ne_nil n.toNat, noLeadingZero_ofNat n.toNat, by simp [ofUInt64]⟩

/-- A word is read back from its number. -/
theorem toUInt64?_ofUInt64 (n : UInt64) : (ofUInt64 n).toUInt64? = some n := by
  have lt : n.toNat < UInt64.size := n.toNat_lt
  simp [toUInt64?, ofUInt64, isWhole, Digit.value_ofNat, lt]

/-! ## Doubles -/

theorem noLeadingZero_place {d : Digit} (h : d.val ≠ 0) (ds : List Digit) (exponent : Int) :
    noLeadingZero (Positional.place (d :: ds) exponent).whole = true := by
  simp only [Positional.place]
  split
  · rw [List.cons_append]
    exact noLeadingZero_cons h _
  · split
    · next before =>
      rw [List.take_cons before]
      exact noLeadingZero_cons h _
    · rfl

theorem place_zero {exponent : Int} (h : exponent ≤ 0) :
    (Positional.place [Digit.zero] exponent).whole = [Digit.zero] := by
  simp only [Positional.place, List.length_singleton]
  split
  · next nonneg =>
    obtain rfl : exponent = 0 := by omega
    rfl
  · rw [if_neg (by omega)]

theorem place_whole_ne_nil {digits : List Digit} (ne : digits ≠ []) (exponent : Int) :
    (Positional.place digits exponent).whole ≠ [] := by
  simp only [Positional.place]
  split
  · simp [ne]
  · split
    · next before =>
      rw [ne_eq, List.take_eq_nil_iff]
      exact not_or.2 ⟨by omega, ne⟩
    · exact List.cons_ne_nil _ _

/-- A numeral has the digits of a number; these are zero only for the double zero, unless the
search for them has failed. -/
theorem exists_digits_of_ofFloat {tie : Tie} {x : Float} {negative : Bool} {digits : List Digit}
    {exponent : Int} (h : Numeral.ofFloat tie x = .finite negative digits exponent) :
    ∃ d, digits = Digit.ofNat d ∧ (exponent = 0 ∨ (x == 0) = false) := by
  simp only [Numeral.ofFloat] at h
  split at h
  · exact absurd h (by simp)
  · split at h
    · exact absurd h (by simp)
    · split at h
      · obtain ⟨-, rfl, rfl⟩ := Numeral.finite.inj h
        exact ⟨0, by decide +kernel, .inl rfl⟩
      · next nonzero =>
        obtain ⟨-, rfl, -⟩ := Numeral.finite.inj h
        exact ⟨_, rfl, .inr (by simpa using nonzero)⟩

/-- A number whose digits are all zero. -/
def zeroDigits (negative : Bool) (zeros : Nat) : Number :=
  { negative
    whole := Digit.zero :: List.replicate zeros Digit.zero
    fraction := some [Digit.zero]
    exponent := none }

/-- Such a number is read as a zero. -/
theorem toFloat?_zeroDigits {negative : Bool} {zeros : Nat} (h : zeros ≤ 15) {x : Float}
    (eq : (zeroDigits negative zeros).toFloat? = some x) : (x == 0) = true := by
  have all : ∀ negative, ∀ zeros ≤ 15,
      (zeroDigits negative zeros).toFloat?.all (· == 0) = true := by decide +kernel
  simpa [eq] using all negative zeros h

/-- Digits that are written without an exponent have no leading zero: of the digit zero, the number
would be read as a zero. -/
theorem noLeadingZero_of_toFloat? {x : Float} {negative : Bool} {d : Nat} {exponent : Int}
    (zero : exponent = 0 ∨ (x == 0) = false)
    (plain : isPlainExponent ((Digit.ofNat d).length + exponent - 1) = true)
    (back : toFloat?
      { negative
        whole := (Positional.place (Digit.ofNat d) exponent).whole
        fraction := some (if (Positional.place (Digit.ofNat d) exponent).fraction.isEmpty
          then [Digit.zero] else (Positional.place (Digit.ofNat d) exponent).fraction)
        exponent := none } = some x) :
    noLeadingZero (Positional.place (Digit.ofNat d) exponent).whole = true := by
  rcases Nat.eq_zero_or_pos d with rfl | pos
  · have digits : Digit.ofNat 0 = [Digit.zero] := by decide +kernel
    rw [digits] at plain back ⊢
    by_cases nonpos : exponent ≤ 0
    · rw [place_zero nonpos]
      rfl
    · have small : exponent.toNat ≤ 15 := by
        simp only [isPlainExponent, List.length_singleton, Bool.and_eq_true,
          decide_eq_true_eq] at plain
        omega
      have place : Positional.place [Digit.zero] exponent =
          { whole := Digit.zero :: List.replicate exponent.toNat Digit.zero, fraction := [] } := by
        rw [Positional.place, if_pos (by omega)]
        rfl
      rw [place] at back
      have isZero := toFloat?_zeroDigits small back
      rcases zero with rfl | nonzero
      · exact absurd le_rfl nonpos
      · rw [isZero] at nonzero
        exact absurd nonzero (by simp)
  · obtain ⟨first, ds, eq, ne⟩ := exists_ofNat_eq_cons pos
    rw [eq]
    exact noLeadingZero_place ne ds exponent

/-- The number of a double that is read back is one that some text spells. -/
theorem isWritten_of_readsBack {x : Float} {n : Number} (back : ReadsBack x)
    (eq : ofFloat? x = some n) : n.IsWritten := by
  rw [ReadsBack, eq, Option.bind_some] at back
  rw [ofFloat?] at eq
  cases numeral : Numeral.ofFloat .even x with
  | nan => simp [numeral] at eq
  | infinite negative => simp [numeral] at eq
  | finite negative digits exponent =>
    obtain ⟨d, rfl, zero⟩ := exists_digits_of_ofFloat numeral
    simp only [numeral] at eq
    split at eq
    · next plain =>
      obtain rfl := Option.some.inj eq
      refine ⟨place_whole_ne_nil (ofNat_ne_nil d) exponent,
        noLeadingZero_of_toFloat? zero plain back, ?_⟩
      simp only [ne_eq, Option.some.injEq]
      split
      · exact List.cons_ne_nil _ _
      · next nonempty => simpa using nonempty
    · obtain rfl := Option.some.inj eq
      obtain ⟨first, ds, digits⟩ := List.exists_cons_of_ne_nil (ofNat_ne_nil d)
      rw [digits]
      refine ⟨by simp, rfl, ?_⟩
      cases ds <;> simp

end LeftDeep.Json.Number
