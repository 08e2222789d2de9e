import LeftDeep.Json.Token

/-!
# Numbers are read back

A number that a text can spell is read back from its written form: its digits, its fraction and its
exponent. The characters of a number belong to no other token, so in a text it is cut where the
number ends.

## Main definitions

* `Number.IsWritten`: the parts of a number are those that some text spells.

## Main statements

* `Number.parse?_chars`: the written form of a number is read back.
* `Number.endsBare_eq_false`: no character of a number ends it.
* `Number.ofBare?_chars`: as a token, a number is no word.
-/

namespace LeftDeep.Json.Number

/-- The parts of a number are those that a text spells: there are digits before the point, without
a leading zero, and digits after it, if there is one. -/
structure IsWritten (n : Number) : Prop where
  whole_ne : n.whole ≠ []
  noLeadingZero : noLeadingZero n.whole = true
  fraction_ne : n.fraction ≠ some []

/-! ## The parts of a number -/

/-- The characters of a fraction with its point. -/
def fractionChars (fraction : Option (List Digit)) : List Char :=
  (fraction.map fun ds => '.' :: Digit.toChars ds).getD []

/-- The characters of an exponent with its letter. -/
def scaleChars (exponent : Option Int) : List Char := (exponent.map exponentChars).getD []

theorem chars_eq (n : Number) : n.chars =
    signChars n.negative ++ (Digit.toChars n.whole ++ (fractionChars n.fraction ++
      scaleChars n.exponent)) := by
  rw [chars, fractionChars, scaleChars, List.append_assoc, List.append_assoc]

theorem digits?_toChars {ds : List Digit} (ne : ds ≠ []) {rest : List Char}
    (stop : ∀ c ∈ rest.head?, Digit.ofChar? c = none) :
    digits? (Digit.toChars ds ++ rest) = some (ds, rest) := by
  rw [digits?, Digit.span_toChars ds stop]
  cases ds with
  | nil => exact absurd rfl ne
  | cons d ds => rfl

theorem ofNat_ne_nil (n : Nat) : Digit.ofNat n ≠ [] := by
  rw [Digit.ofNat]
  split <;> simp

theorem digits?_ofNat (n : Nat) :
    digits? (Digit.toChars (Digit.ofNat n)) = some (Digit.ofNat n, []) := by
  have whole : digits? (Digit.toChars (Digit.ofNat n) ++ []) = some (Digit.ofNat n, []) :=
    digits?_toChars (ofNat_ne_nil n) (by simp)
  rwa [List.append_nil] at whole

theorem signedExponent?_toChars (e : Int) :
    signedExponent? ((if e < 0 then '-' else '+') :: Digit.toChars (Digit.ofNat e.natAbs)) =
      some (e, []) := by
  have digits := digits?_ofNat e.natAbs
  have value := Digit.value_ofNat e.natAbs
  by_cases negative : e < 0
  · have eq : -(e.natAbs : Int) = e := by omega
    simp only [if_pos negative, signedExponent?, digits, Option.map_some, value, eq]
  · have eq : (e.natAbs : Int) = e := by omega
    simp only [if_neg negative, signedExponent?, digits, Option.map_some, value, eq]

theorem exponent?_scaleChars (exponent : Option Int) :
    exponent? (scaleChars exponent) = some (exponent, []) := by
  cases exponent with
  | none => rfl
  | some e =>
    rw [scaleChars, Option.map_some, Option.getD_some, exponentChars, exponent?,
      signedExponent?_toChars, Option.map_some]

theorem head?_scaleChars {exponent : Option Int} {c : Char}
    (h : c ∈ (scaleChars exponent).head?) : c = 'e' := by
  cases exponent with
  | none => exact absurd h (by simp [scaleChars])
  | some e => exact (Option.some.inj h).symm

theorem fraction?_fractionChars {fraction : Option (List Digit)} (ne : fraction ≠ some [])
    (exponent : Option Int) :
    fraction? (fractionChars fraction ++ scaleChars exponent) =
      some (fraction, scaleChars exponent) := by
  cases fraction with
  | none =>
    cases exponent with
    | none => rfl
    | some e => rfl
  | some ds =>
    have digits : ds ≠ [] := fun nil => ne (congrArg some nil)
    have stop : ∀ c ∈ (scaleChars exponent).head?, Digit.ofChar? c = none := by
      intro c head
      rw [head?_scaleChars head]
      decide
    rw [fractionChars, Option.map_some, Option.getD_some, List.cons_append, fraction?,
      digits?_toChars digits stop, Option.map_some]

/-- What follows the digits before the point is no digit. -/
theorem stops_fractionChars (fraction : Option (List Digit)) (exponent : Option Int) :
    ∀ c ∈ (fractionChars fraction ++ scaleChars exponent).head?, Digit.ofChar? c = none := by
  intro c head
  cases fraction with
  | none =>
    rw [head?_scaleChars head]
    decide
  | some ds =>
    obtain rfl : c = '.' := (Option.some.inj head).symm
    decide

/-! ## The whole number -/

theorem unsigned?_chars {n : Number} (h : n.IsWritten) :
    unsigned? n.negative (Digit.toChars n.whole ++ (fractionChars n.fraction ++
      scaleChars n.exponent)) = some n := by
  have whole := digits?_toChars h.whole_ne (stops_fractionChars n.fraction n.exponent)
  have fraction := fraction?_fractionChars h.fraction_ne n.exponent
  have exponent := exponent?_scaleChars n.exponent
  simp [unsigned?, whole, fraction, exponent, h.noLeadingZero]

theorem parse?_of_head_ne_minus {cs : List Char} (h : cs.head? ≠ some '-') :
    parse? cs = unsigned? false cs := by
  rw [parse?]
  intro rest eq
  rw [eq] at h
  exact h rfl

/-- The written form of a number is read back. -/
theorem parse?_chars {n : Number} (h : n.IsWritten) : parse? n.chars = some n := by
  have unsigned := unsigned?_chars h
  rw [chars_eq, signChars]
  cases negative : n.negative with
  | true =>
    rw [negative] at unsigned
    exact unsigned
  | false =>
    rw [negative] at unsigned
    rw [if_neg Bool.false_ne_true, List.nil_append, parse?_of_head_ne_minus, unsigned]
    obtain ⟨d, ds, eq⟩ := List.exists_cons_of_ne_nil h.whole_ne
    have digit : ∀ d : Digit, d.toChar ≠ '-' := by decide
    rw [eq, Digit.toChars, List.map_cons, List.cons_append, List.head?_cons]
    exact fun minus => digit d (Option.some.inj minus)

/-! ## Numbers as tokens -/

theorem endsBare_toChars {ds : List Digit} {c : Char} (mem : c ∈ Digit.toChars ds) :
    endsBare c = false := by
  obtain ⟨d, -, rfl⟩ := List.mem_map.1 mem
  have digit : ∀ d : Digit, endsBare d.toChar = false := by decide
  exact digit d

theorem endsBare_exponentChars {e : Int} {c : Char} (mem : c ∈ exponentChars e) :
    endsBare c = false := by
  rcases List.mem_cons.1 mem with rfl | mem
  · decide
  · rcases List.mem_cons.1 mem with sign | mem
    · rw [sign]
      split <;> decide
    · exact endsBare_toChars mem

/-- No character of a number ends it. -/
theorem endsBare_eq_false {n : Number} {c : Char} (mem : c ∈ n.chars) : endsBare c = false := by
  rw [chars_eq] at mem
  simp only [List.mem_append] at mem
  rcases mem with sign | whole | fraction | exponent
  · rw [signChars] at sign
    split at sign
    · rw [List.mem_singleton.1 sign]
      decide
    · exact absurd sign (by simp)
  · exact endsBare_toChars whole
  · cases parts : n.fraction with
    | none =>
      rw [parts] at fraction
      exact absurd fraction (by simp [fractionChars])
    | some ds =>
      rw [parts] at fraction
      rcases List.mem_cons.1 fraction with rfl | mem
      · decide
      · exact endsBare_toChars mem
  · cases parts : n.exponent with
    | none =>
      rw [parts] at exponent
      exact absurd exponent (by simp [scaleChars])
    | some e =>
      rw [parts] at exponent
      exact endsBare_exponentChars exponent

/-- As a token, a number is no word. -/
theorem ofBare?_chars {n : Number} (h : n.IsWritten) :
    Token.ofBare? n.chars = some (.number n) := by
  have ne {word : String} (noNumber : parse? word.toList = none) : n.chars ≠ word.toList := by
    intro eq
    rw [← eq, parse?_chars h] at noNumber
    exact absurd noNumber (by simp)
  have null : parse? "null".toList = none := by decide
  have true : parse? "true".toList = none := by decide
  have false : parse? "false".toList = none := by decide
  rw [Token.ofBare?, if_neg (ne null), if_neg (ne true), if_neg (ne false), parse?_chars h,
    Option.map_some]

end LeftDeep.Json.Number
