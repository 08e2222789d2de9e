import LeftDeep.Json.Value

/-!
# Writing JSON

The text of a JSON value: its tokens one after the other, without blanks. In a string literal the
quote, the backslash and the control characters are escaped, with a short escape where there is
one; every other character stands as it is.

## Main definitions

* `Token.chars`: the written form of a token.
* `Value.tokens`: the tokens that spell a value.
* `Value.render`: the text of a value.
-/

namespace LeftDeep.Json

/-- The letter of the short escape that writes a character. -/
def shortLetter? (c : Char) : Option Char :=
  if c = '\"' then some '\"'
  else if c = '\\' then some '\\'
  else if c = '\x08' then some 'b'
  else if c = '\x0c' then some 'f'
  else if c = '\n' then some 'n'
  else if c = '\r' then some 'r'
  else if c = '\t' then some 't'
  else none

/-- A hexadecimal digit, in lower case. -/
def hexChar (v : Nat) : Char :=
  if v < 10 then Char.ofNat ('0'.toNat + v) else Char.ofNat ('a'.toNat + (v - 10))

/-- The `\u` escape of a UTF-16 unit. -/
def unitEscape (code : Nat) : List Char :=
  ['\\', 'u', hexChar (code / 4096 % 16), hexChar (code / 256 % 16), hexChar (code / 16 % 16),
    hexChar (code % 16)]

/-- A character as it stands in a string literal. -/
def escapedChar (c : Char) : List Char :=
  match shortLetter? c with
  | some letter => ['\\', letter]
  | none => if isControl c then unitEscape c.toNat else [c]

/-- A string literal. One that denotes no text is written as half a surrogate pair. -/
def Literal.chars (t : Literal) : List Char :=
  let body := match t with
    | some s => s.toList.flatMap escapedChar
    | none => unitEscape 0xD800
  '\"' :: body ++ ['\"']

/-- The written form of a token. -/
def Token.chars : Token → List Char
  | .openBrace => ['\x7b']
  | .closeBrace => ['\x7d']
  | .openBracket => ['[']
  | .closeBracket => [']']
  | .colon => [':']
  | .comma => [',']
  | .null => "null".toList
  | .bool true => "true".toList
  | .bool false => "false".toList
  | .number n => n.chars
  | .text t => Literal.chars t

namespace Value

mutual

/-- The tokens that spell a value. -/
def tokens : Value → List Token
  | .null => [.null]
  | .bool b => [.bool b]
  | .number n => [.number n]
  | .text t => [.text t]
  | .array items => .openBracket :: itemTokens items ++ [.closeBracket]
  | .object members => .openBrace :: memberTokens members ++ [.closeBrace]

/-- The tokens of the items of an array, with commas between them. -/
def itemTokens : List Value → List Token
  | [] => []
  | [v] => v.tokens
  | v :: w :: vs => v.tokens ++ .comma :: itemTokens (w :: vs)

/-- The tokens of the members of an object, with commas between them. -/
def memberTokens : List (Literal × Value) → List Token
  | [] => []
  | [(n, v)] => .text n :: .colon :: v.tokens
  | (n, v) :: m :: ms => .text n :: .colon :: v.tokens ++ .comma :: memberTokens (m :: ms)

end

/-- The text of a value. -/
def render (v : Value) : String := String.ofList (v.tokens.flatMap Token.chars)

/-! ## Values of quantities -/

/-- A text. -/
def ofText (s : String) : Value := .text (some s)

/-- A text, or null for none. -/
def ofText? : Option String → Value
  | none => .null
  | some s => ofText s

/-- An unsigned quantity. -/
def ofUInt64 (n : UInt64) : Value := .number (.ofUInt64 n)

/-- A double; infinities and NaN have no number and are written as null. -/
def ofFloat (x : Float) : Value :=
  match Number.ofFloat? x with
  | some n => .number n
  | none => .null

/-- An object whose names are texts. -/
def record (fields : List (String × Value)) : Value :=
  .object (fields.map fun (n, v) => (some n, v))

end Value
end LeftDeep.Json
