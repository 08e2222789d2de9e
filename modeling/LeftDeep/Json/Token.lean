import LeftDeep.Json.Number

/-!
# JSON tokens

The tokens of a JSON text: punctuation, the three words, numbers and string literals. Blanks
separate tokens and are dropped.

A `\u` escape in a string literal names a UTF-16 unit. Two escapes that name the two halves of a
surrogate pair denote one character. A literal with a half on its own is well formed, but denotes
no text: it may stand only where nobody asks for its text.

## Main definitions

* `Literal`: the text of a string literal, if it denotes one.
* `Token.lex?`: the tokens of a text.
-/

namespace LeftDeep.Json

/-- What a string literal denotes: a text, or none if it names half a surrogate pair. -/
abbrev Literal := Option String

/-- A token. -/
inductive Token where
  | openBrace
  | closeBrace
  | openBracket
  | closeBracket
  | colon
  | comma
  | null
  | bool (b : Bool)
  | number (n : Number)
  | text (t : Literal)
  deriving DecidableEq, Repr

/-! ## String literals -/

/-- A part of a string literal. -/
inductive Piece where
  /-- A character, as it is or by a short escape. -/
  | char (c : Char)
  /-- A UTF-16 unit, by its number. -/
  | unit (code : Nat)
  deriving DecidableEq, Repr

/-- Whether a UTF-16 unit is the first half of a surrogate pair. -/
def isHighHalf (code : Nat) : Bool := 0xD800 ≤ code && code ≤ 0xDBFF

/-- Whether a UTF-16 unit is the second half of a surrogate pair. -/
def isLowHalf (code : Nat) : Bool := 0xDC00 ≤ code && code ≤ 0xDFFF

/-- The characters that the parts of a literal denote. -/
def Piece.chars? : List Piece → Option (List Char)
  | [] => some []
  | .char c :: ps => (chars? ps).map (c :: ·)
  | .unit high :: .unit low :: ps =>
    if isHighHalf high then
      if isLowHalf low then
        let code := 0x10000 + (high - 0xD800) * 0x400 + (low - 0xDC00)
        (chars? ps).map (Char.ofNat code :: ·)
      else none
    else if isLowHalf high then none
    else (chars? (.unit low :: ps)).map (Char.ofNat high :: ·)
  | .unit code :: ps =>
    if isHighHalf code || isLowHalf code then none
    else (chars? ps).map (Char.ofNat code :: ·)

/-- The literal that parts denote. -/
def Literal.ofPieces (ps : List Piece) : Literal := (Piece.chars? ps).map String.ofList

/-- The character of a short escape, by the letter after the backslash. -/
def shortEscape? : Char → Option Char
  | '\"' => some '\"'
  | '\\' => some '\\'
  | '/' => some '/'
  | 'b' => some '\x08'
  | 'f' => some '\x0c'
  | 'n' => some '\n'
  | 'r' => some '\r'
  | 't' => some '\t'
  | _ => none

/-- The value of a hexadecimal digit, in either case. -/
def hexValue? (c : Char) : Option Nat :=
  if '0' ≤ c && c ≤ '9' then some (c.toNat - '0'.toNat)
  else if 'a' ≤ c && c ≤ 'f' then some (c.toNat - 'a'.toNat + 10)
  else if 'A' ≤ c && c ≤ 'F' then some (c.toNat - 'A'.toNat + 10)
  else none

/-- Whether a character may not stand in a literal as it is. -/
def isControl (c : Char) : Bool := c.toNat < 0x20

/-! ## The lexer -/

/-- Whether a character is a blank between tokens. -/
def isBlank (c : Char) : Bool := c = ' ' || c = '\n' || c = '\t' || c = '\r'

/-- The token of a punctuation character. -/
def Token.punctuation? : Char → Option Token
  | '\x7b' => some .openBrace
  | '\x7d' => some .closeBrace
  | '[' => some .openBracket
  | ']' => some .closeBracket
  | ':' => some .colon
  | ',' => some .comma
  | _ => none

/-- The token of a run of other characters: one of the three words, or a number. -/
def Token.ofBare? (cs : List Char) : Option Token :=
  if cs = "null".toList then some .null
  else if cs = "true".toList then some (.bool true)
  else if cs = "false".toList then some (.bool false)
  else (Number.parse? cs).map .number

/-- Where in a token the lexer is. What has been read of the token is kept in reverse. -/
inductive LexState where
  | between
  | bare (cs : List Char)
  | literal (ps : List Piece)
  /-- After a backslash. -/
  | escape (ps : List Piece)
  /-- Inside the four digits of a `\u` escape. -/
  | hex (ps : List Piece) (read : Nat) (code : Nat)

/-- The state after a character that stands between tokens, with the token it completes. -/
def LexState.begin (c : Char) : LexState × Option Token :=
  if isBlank c then (.between, none)
  else
    match Token.punctuation? c with
    | some t => (.between, some t)
    | none => if c = '\"' then (.literal [], none) else (.bare [c], none)

/-- Whether a character ends a run of other characters. -/
def endsBare (c : Char) : Bool := isBlank c || (Token.punctuation? c).isSome || c = '\"'

/-- One step of the lexer: the state after a character and the tokens it completes. -/
def LexState.step? (c : Char) : LexState → Option (LexState × List Token)
  | .between =>
    let (state, t) := begin c
    some (state, t.toList)
  | .bare cs =>
    if endsBare c then do
      let done ← Token.ofBare? cs.reverse
      let (state, t) := begin c
      some (state, done :: t.toList)
    else some (.bare (c :: cs), [])
  | .literal ps =>
    if c = '\"' then some (.between, [.text (Literal.ofPieces ps.reverse)])
    else if c = '\\' then some (.escape ps, [])
    else if isControl c then none
    else some (.literal (.char c :: ps), [])
  | .escape ps =>
    if c = 'u' then some (.hex ps 0 0, [])
    else (shortEscape? c).map fun e => (.literal (.char e :: ps), [])
  | .hex ps read code => do
    let v ← hexValue? c
    let code := 16 * code + v
    if read = 3 then some (.literal (.unit code :: ps), []) else some (.hex ps (read + 1) code, [])

/-- The tokens that the end of the text completes. -/
def LexState.finish? : LexState → Option (List Token)
  | .between => some []
  | .bare cs => (Token.ofBare? cs.reverse).map fun t => [t]
  | _ => none

namespace Token

/-- Runs the lexer to the end of the characters. The tokens completed so far are kept in
reverse. -/
def lexFrom? (state : LexState) (done : List Token) : List Char → Option (List Token)
  | [] => state.finish?.map fun ts => done.reverse ++ ts
  | c :: cs =>
    match state.step? c with
    | none => none
    | some (state, ts) => lexFrom? state (ts.reverse ++ done) cs

/-- The tokens of a text. -/
def lex? (text : String) : Option (List Token) := lexFrom? .between [] text.toList

end Token
end LeftDeep.Json
