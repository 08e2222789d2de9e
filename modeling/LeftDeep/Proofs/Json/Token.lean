import LeftDeep.Json.Writer
import LeftDeep.Proofs.Json.Number

/-!
# Tokens are read back

The lexer reads the written form of a token back as that token. Every character of a text is
escaped in a way that the lexer undoes, and a literal that denotes no text is written as one that
denotes none. Punctuation and literals show where they end; a word or a number is cut at the next
character that belongs to another token.

## Main definitions

* `Token.IsWritten`: a number in a token is one that some text spells.
* `Token.isBare`: whether a token only ends where another begins.

## Main statements

* `Token.lexFrom?_escaped`: the escapes of a text are undone.
* `Token.lexFrom?_chars`: the written form of a token is read back.
-/

namespace LeftDeep.Json

/-! ## Escapes -/

/-- The part of a literal that an escaped character is read as. -/
def pieceOf (c : Char) : Piece :=
  if shortLetter? c = none ∧ isControl c = true then .unit c.toNat else .char c

theorem shortEscape?_of_shortLetter? {c letter : Char} (h : shortLetter? c = some letter) :
    shortEscape? letter = some c ∧ letter ≠ 'u' := by
  simp only [shortLetter?] at h
  grind [shortEscape?]

theorem plain_of_shortLetter? {c : Char} (h : shortLetter? c = none) : c ≠ '\"' ∧ c ≠ '\\' := by
  constructor
  · rintro rfl
    exact absurd h (by decide)
  · rintro rfl
    exact absurd h (by decide)

theorem hexValue?_hexChar {v : Nat} (h : v < 16) : hexValue? (hexChar v) = some v := by
  have all : ∀ v < 16, hexValue? (hexChar v) = some v := by decide
  exact all v h

namespace Piece

theorem chars?_unit {code : Nat} (high : isHighHalf code = false) (low : isLowHalf code = false)
    (ps : List Piece) : chars? (.unit code :: ps) = (chars? ps).map (Char.ofNat code :: ·) := by
  cases ps with
  | nil => simp [chars?, high, low]
  | cons p ps => cases p <;> simp [chars?, high, low]

/-- The escaped characters of a text denote it. -/
theorem chars?_map_pieceOf (cs : List Char) : chars? (cs.map pieceOf) = some cs := by
  induction cs with
  | nil => rfl
  | cons c cs ih =>
    rw [List.map_cons, pieceOf]
    split
    · next control =>
      have small : c.toNat < 0x20 := by simpa [isControl] using control.2
      have high : isHighHalf c.toNat = false := by
        rw [isHighHalf, Bool.and_eq_false_iff, decide_eq_false_iff_not]
        exact .inl (by omega)
      have low : isLowHalf c.toNat = false := by
        rw [isLowHalf, Bool.and_eq_false_iff, decide_eq_false_iff_not]
        exact .inl (by omega)
      rw [chars?_unit high low, ih, Option.map_some, Char.ofNat_toNat]
    · rw [chars?, ih, Option.map_some]

end Piece

namespace Token

variable {state state' : LexState} {done ts : List Token} {ps : List Piece} {c : Char}

theorem lexFrom?_cons (h : state.step? c = some (state', ts)) (rest : List Char) :
    lexFrom? state done (c :: rest) = lexFrom? state' (ts.reverse ++ done) rest := by
  rw [lexFrom?, h]

/-! ## Literals -/

/-- A `\u` escape is read as its unit. -/
theorem lexFrom?_unitEscape {code : Nat} (h : code < 0x10000) (rest : List Char) :
    lexFrom? (.literal ps) done (unitEscape code ++ rest) =
      lexFrom? (.literal (.unit code :: ps)) done rest := by
  have first := hexValue?_hexChar (Nat.mod_lt (code / 4096) (by decide : 0 < 16))
  have second := hexValue?_hexChar (Nat.mod_lt (code / 256) (by decide : 0 < 16))
  have third := hexValue?_hexChar (Nat.mod_lt (code / 16) (by decide : 0 < 16))
  have fourth := hexValue?_hexChar (Nat.mod_lt code (by decide : 0 < 16))
  have value : 16 * (16 * (16 * (code / 4096 % 16) + code / 256 % 16) + code / 16 % 16)
      + code % 16 = code := by omega
  simp [unitEscape, lexFrom?, LexState.step?, first, second, third, fourth, value]

/-- An escaped character is read as its part. -/
theorem lexFrom?_escapedChar (c : Char) (rest : List Char) :
    lexFrom? (.literal ps) done (escapedChar c ++ rest) =
      lexFrom? (.literal (pieceOf c :: ps)) done rest := by
  rw [escapedChar, pieceOf]
  cases short : shortLetter? c with
  | some letter =>
    obtain ⟨escape, notUnit⟩ := shortEscape?_of_shortLetter? short
    simp [lexFrom?, LexState.step?, escape, notUnit]
  | none =>
    obtain ⟨notQuote, notBackslash⟩ := plain_of_shortLetter? short
    cases control : isControl c with
    | true =>
      have small : c.toNat < 0x20 := by simpa [isControl] using control
      simp only [if_true, and_self, lexFrom?_unitEscape (Nat.lt_trans small (by decide))]
    | false => simp [lexFrom?, LexState.step?, notQuote, notBackslash, control]

/-- The escapes of a text are undone. -/
theorem lexFrom?_escaped (cs rest : List Char) :
    lexFrom? (.literal ps) done (cs.flatMap escapedChar ++ rest) =
      lexFrom? (.literal ((cs.map pieceOf).reverse ++ ps)) done rest := by
  induction cs generalizing ps with
  | nil => rfl
  | cons c cs ih =>
    rw [List.flatMap_cons, List.append_assoc, lexFrom?_escapedChar, ih, List.map_cons,
      List.reverse_cons, List.append_assoc, List.singleton_append]

theorem lexFrom?_closing (rest : List Char) :
    lexFrom? (.literal ps) done ('\"' :: rest) =
      lexFrom? .between (.text (Literal.ofPieces ps.reverse) :: done) rest := rfl

/-- The written form of a literal is read back. -/
theorem lexFrom?_literal (t : Literal) (rest : List Char) :
    lexFrom? .between done (Literal.chars t ++ rest) =
      lexFrom? .between (.text t :: done) rest := by
  have opening (body : List Char) : lexFrom? .between done ('\"' :: body) =
      lexFrom? (.literal []) done body := rfl
  cases t with
  | none =>
    have written : Literal.chars none ++ rest = '\"' :: (unitEscape 0xD800 ++ '\"' :: rest) := by
      simp [Literal.chars]
    rw [written, opening, lexFrom?_unitEscape (by decide), lexFrom?_closing]
    rfl
  | some s =>
    have written : Literal.chars (some s) ++ rest =
        '\"' :: (s.toList.flatMap escapedChar ++ '\"' :: rest) := by
      simp [Literal.chars]
    rw [written, opening, lexFrom?_escaped, lexFrom?_closing, List.append_nil,
      List.reverse_reverse, Literal.ofPieces, Piece.chars?_map_pieceOf, Option.map_some,
      String.ofList_toList]

/-! ## Words and numbers -/

/-- A number in a token is one that some text spells. -/
def IsWritten : Token → Prop
  | .number n => n.IsWritten
  | _ => True

/-- Whether a token only ends where another token or a blank begins. -/
def isBare : Token → Bool
  | .null => true
  | .bool _ => true
  | .number _ => true
  | _ => false

theorem lexFrom?_bare {cs read rest : List Char} (inside : ∀ c ∈ cs, endsBare c = false) :
    lexFrom? (.bare read) done (cs ++ rest) = lexFrom? (.bare (cs.reverse ++ read)) done rest := by
  induction cs generalizing read with
  | nil => rfl
  | cons c cs ih =>
    have step : LexState.step? c (.bare read) = some (.bare (c :: read), []) := by
      rw [LexState.step?, if_neg (by rw [inside c List.mem_cons_self]; exact Bool.false_ne_true)]
    rw [List.cons_append, lexFrom?_cons step, List.reverse_nil, List.nil_append,
      ih fun c mem => inside c (List.mem_cons_of_mem _ mem), List.reverse_cons, List.append_assoc,
      List.singleton_append]

/-- A word or a number is complete where another token begins, and at the end of the text. -/
theorem lexFrom?_bare_complete {cs rest : List Char} {t : Token} (complete : ofBare? cs = some t)
    (stop : ∀ c ∈ rest.head?, endsBare c = true) :
    lexFrom? (.bare cs.reverse) done rest = lexFrom? .between (t :: done) rest := by
  cases rest with
  | nil => simp [lexFrom?, LexState.finish?, complete]
  | cons c rest =>
    have ends := stop c rfl
    simp [lexFrom?, LexState.step?, ends, complete]

theorem begin_of_endsBare_eq_false (h : endsBare c = false) :
    LexState.begin c = (.bare [c], none) := by
  simp only [endsBare, Bool.or_eq_false_iff, decide_eq_false_iff_not] at h
  obtain ⟨⟨blank, punctuation⟩, quote⟩ := h
  rw [Option.isSome_eq_false_iff, Option.isNone_iff_eq_none] at punctuation
  simp [LexState.begin, blank, punctuation, quote]

theorem lexFrom?_ofBare? {cs rest : List Char} {t : Token} (complete : ofBare? cs = some t)
    (inside : cs.any endsBare = false) (stop : ∀ c ∈ rest.head?, endsBare c = true) :
    lexFrom? .between done (cs ++ rest) = lexFrom? .between (t :: done) rest := by
  have inside : ∀ c ∈ cs, endsBare c = false := by simpa using inside
  cases cs with
  | nil =>
    have none : ofBare? [] = none := by decide
    rw [none] at complete
    exact absurd complete (by simp)
  | cons c cs =>
    have first : LexState.step? c .between = some (.bare [c], []) := by
      rw [LexState.step?, begin_of_endsBare_eq_false (inside c List.mem_cons_self)]
      rfl
    rw [List.cons_append, lexFrom?_cons first, List.reverse_nil, List.nil_append,
      lexFrom?_bare fun c mem => inside c (List.mem_cons_of_mem _ mem), ← List.reverse_cons,
      lexFrom?_bare_complete complete stop]

/-! ## All tokens -/

/-- The written form of a token is read back, if the token ends there. -/
theorem lexFrom?_chars {t : Token} (written : t.IsWritten) {rest : List Char}
    (stop : t.isBare = true → ∀ c ∈ rest.head?, endsBare c = true) :
    lexFrom? .between done (t.chars ++ rest) = lexFrom? .between (t :: done) rest := by
  cases t with
  | openBrace => rfl
  | closeBrace => rfl
  | openBracket => rfl
  | closeBracket => rfl
  | colon => rfl
  | comma => rfl
  | text t => exact lexFrom?_literal t rest
  | null => exact lexFrom?_ofBare? (by decide) (by decide) (stop rfl)
  | bool b =>
    cases b with
    | true => exact lexFrom?_ofBare? (by decide) (by decide) (stop rfl)
    | false => exact lexFrom?_ofBare? (by decide) (by decide) (stop rfl)
  | number n =>
    have inside : n.chars.any endsBare = false := by
      simpa using fun c => n.endsBare_eq_false
    exact lexFrom?_ofBare? (Number.ofBare?_chars written) inside (stop rfl)

end Token
end LeftDeep.Json
