import LeftDeep.Json.Token

/-!
# JSON values

A JSON value and its reading from tokens. The reader keeps the containers it is inside of on a
stack, innermost first, so it takes one step for each token.

## Main definitions

* `Value`: null, booleans, numbers, texts, arrays and objects.
* `Value.ofTokens?`: the value a list of tokens spells.
* `Value.parse?`: the value a text spells.
-/

namespace LeftDeep.Json

/-- A JSON value. An object keeps its members in the order they are written, repeated names
included. -/
inductive Value where
  | null
  | bool (b : Bool)
  | number (n : Number)
  | text (t : Literal)
  | array (items : List Value)
  | object (members : List (Literal × Value))
  deriving Repr, Inhabited

/-- A container that is still open, with what has been read of it in reverse. -/
inductive Frame where
  | array (items : List Value)
  /-- An object whose last name still waits for its value. -/
  | object (members : List (Literal × Value)) (name : Literal)

/-- What the reader may meet next. -/
inductive Expectation where
  | value
  /-- The first item of an array, or its end. -/
  | itemOrEnd
  /-- The first name of an object, or its end. -/
  | nameOrEnd
  /-- A further name of an object with the given members. -/
  | name (members : List (Literal × Value))
  | colon (members : List (Literal × Value)) (name : Literal)
  /-- What follows a value that is complete. -/
  | after (v : Value)

namespace Value

/-- What the reader expects after a token that stands where a value may begin: the value, if the
token is one, and else the first part of the container it opens. -/
def start? (stack : List Frame) : Token → Option (Expectation × List Frame)
  | .null => some (.after .null, stack)
  | .bool b => some (.after (.bool b), stack)
  | .number n => some (.after (.number n), stack)
  | .text t => some (.after (.text t), stack)
  | .openBracket => some (.itemOrEnd, .array [] :: stack)
  | .openBrace => some (.nameOrEnd, stack)
  | _ => none

/-- One step of the reader. -/
def step? (t : Token) : Expectation → List Frame → Option (Expectation × List Frame)
  | .value, stack => start? stack t
  | .itemOrEnd, stack =>
    match t, stack with
    | .closeBracket, .array [] :: outer => some (.after (.array []), outer)
    | _, _ => start? stack t
  | .nameOrEnd, stack =>
    match t with
    | .closeBrace => some (.after (.object []), stack)
    | .text n => some (.colon [] n, stack)
    | _ => none
  | .name members, stack =>
    match t with
    | .text n => some (.colon members n, stack)
    | _ => none
  | .colon members n, stack =>
    match t with
    | .colon => some (.value, .object members n :: stack)
    | _ => none
  | .after v, .array items :: outer =>
    match t with
    | .comma => some (.value, .array (v :: items) :: outer)
    | .closeBracket => some (.after (.array (v :: items).reverse), outer)
    | _ => none
  | .after v, .object members n :: outer =>
    match t with
    | .comma => some (.name ((n, v) :: members), outer)
    | .closeBrace => some (.after (.object ((n, v) :: members).reverse), outer)
    | _ => none
  | .after _, [] => none

/-- Runs the reader to the end of the tokens. -/
def run? (expected : Expectation) (stack : List Frame) : List Token → Option Value
  | [] =>
    match expected, stack with
    | .after v, [] => some v
    | _, _ => none
  | t :: ts =>
    match step? t expected stack with
    | some (expected, stack) => run? expected stack ts
    | none => none

/-- The value that the tokens spell, if they spell exactly one. -/
def ofTokens? (ts : List Token) : Option Value := run? .value [] ts

/-- The value that a text spells, if it spells exactly one. -/
def parse? (text : String) : Option Value := (Token.lex? text).bind ofTokens?

end Value
end LeftDeep.Json
