import LeftDeep.Proofs.Json.Token

/-!
# Values are read back

The tokens of a value are read back from their characters, since the only tokens that need another
one to end them are followed by punctuation or stand alone. The value is read back from its tokens,
at any depth: what the reader keeps on its stack is not touched while a part of a value is read.

## Main definitions

* `Token.AreReadBack`: a list of tokens is read back from its characters.
* `Value.IsWritten`: all numbers in a value are those that some text spells.

## Main statements

* `Value.areReadBack_tokens`: the tokens of a value are read back.
* `Value.run?_tokens`: so is a value, from its tokens.
* `Value.parse?_render`: a value is read back from its text.
-/

namespace LeftDeep.Json

/-! ## Tokens -/

namespace Token

/-- The tokens are read back from their characters, if a character follows that ends them. -/
def AreReadBack (ts : List Token) : Prop :=
  ∀ done rest, (∀ c ∈ rest.head?, endsBare c = true) →
    lexFrom? .between done (ts.flatMap chars ++ rest) = lexFrom? .between (ts.reverse ++ done) rest

theorem areReadBack_nil : AreReadBack [] := fun _ _ _ => rfl

theorem areReadBack_singleton {t : Token} (written : t.IsWritten) : AreReadBack [t] := by
  intro done rest stop
  rw [List.flatMap_singleton, lexFrom?_chars written fun _ => stop]
  rfl

/-- A token that shows where it ends may stand before any others. -/
theorem AreReadBack.cons {t : Token} {ts : List Token} (written : t.IsWritten)
    (notBare : t.isBare = false) (h : AreReadBack ts) : AreReadBack (t :: ts) := by
  intro done rest stop
  have first : t.isBare = true →
      ∀ c ∈ (ts.flatMap chars ++ rest).head?, endsBare c = true := by
    intro bare
    exact absurd bare (by simp [notBare])
  rw [List.flatMap_cons, List.append_assoc, lexFrom?_chars written first, h _ rest stop,
    List.reverse_cons, List.append_assoc, List.singleton_append]

/-- Tokens that begin with punctuation may stand behind any others. -/
theorem AreReadBack.append {ts us : List Token} {t : Token} {c : Char} (h : AreReadBack ts)
    (punctuation : t.chars = [c]) (ends : endsBare c = true) (h' : AreReadBack (t :: us)) :
    AreReadBack (ts ++ t :: us) := by
  intro done rest stop
  have middle : ∀ d ∈ ((t :: us).flatMap chars ++ rest).head?, endsBare d = true := by
    intro d head
    rw [List.flatMap_cons, punctuation] at head
    exact Option.some.inj head ▸ ends
  rw [List.flatMap_append, List.append_assoc, h done _ middle, h' _ rest stop,
    List.reverse_append, List.append_assoc]

end Token

namespace Value

open Token

mutual

/-- All numbers in a value are those that some text spells. -/
def IsWritten : Value → Prop
  | .null => True
  | .bool _ => True
  | .number n => n.IsWritten
  | .text _ => True
  | .array items => AreWritten items
  | .object members => MembersAreWritten members

/-- All numbers in the items of an array are those that some text spells. -/
def AreWritten : List Value → Prop
  | [] => True
  | v :: vs => v.IsWritten ∧ AreWritten vs

/-- All numbers in the members of an object are those that some text spells. -/
def MembersAreWritten : List (Literal × Value) → Prop
  | [] => True
  | (_, v) :: ms => v.IsWritten ∧ MembersAreWritten ms

end

mutual

/-- The tokens of a value are read back. -/
theorem areReadBack_tokens : ∀ v : Value, v.IsWritten → AreReadBack v.tokens
  | .null, _ => areReadBack_singleton trivial
  | .bool _, _ => areReadBack_singleton trivial
  | .number _, written => areReadBack_singleton written
  | .text _, _ => areReadBack_singleton trivial
  | .array items, written => by
    have close := areReadBack_singleton (t := .closeBracket) trivial
    have items := (areReadBack_itemTokens items written).append rfl (by decide) close
    rw [tokens]
    exact .cons trivial rfl items
  | .object members, written => by
    have close := areReadBack_singleton (t := .closeBrace) trivial
    have members := (areReadBack_memberTokens members written).append rfl (by decide) close
    rw [tokens]
    exact .cons trivial rfl members

/-- So are those of the items of an array. -/
theorem areReadBack_itemTokens : ∀ items : List Value, AreWritten items →
    AreReadBack (itemTokens items)
  | [], _ => areReadBack_nil
  | [v], ⟨written, _⟩ => areReadBack_tokens v written
  | v :: w :: vs, ⟨written, more⟩ => by
    have more : AreReadBack (.comma :: itemTokens (w :: vs)) :=
      .cons trivial rfl (areReadBack_itemTokens (w :: vs) more)
    rw [itemTokens]
    exact (areReadBack_tokens v written).append rfl (by decide) more

/-- And those of the members of an object. -/
theorem areReadBack_memberTokens : ∀ members : List (Literal × Value), MembersAreWritten members →
    AreReadBack (memberTokens members)
  | [], _ => areReadBack_nil
  | [(_, v)], ⟨written, _⟩ => .cons trivial rfl (.cons trivial rfl (areReadBack_tokens v written))
  | (n, v) :: m :: ms, ⟨written, more⟩ => by
    have more : AreReadBack (.comma :: memberTokens (m :: ms)) :=
      .cons trivial rfl (areReadBack_memberTokens (m :: ms) more)
    rw [memberTokens]
    exact .cons trivial rfl (.cons trivial rfl
      ((areReadBack_tokens v written).append rfl (by decide) more))

end

/-- The tokens of a value are read back from its text. -/
theorem lex?_render {v : Value} (written : v.IsWritten) : lex? v.render = some v.tokens := by
  have back := areReadBack_tokens v written [] [] (by simp)
  rw [List.append_nil, List.append_nil] at back
  rw [lex?, render, String.toList_ofList, back, lexFrom?]
  simp [LexState.finish?]

/-! ## Values -/

/-- Where an array may end, a value is read all the same: it does not begin with the end. -/
theorem run?_itemOrEnd (v : Value) (stack : List Frame) (rest : List Token) :
    run? .itemOrEnd stack (v.tokens ++ rest) = run? .value stack (v.tokens ++ rest) := by
  cases v <;> rw [tokens] <;> rfl

theorem exists_itemTokens_eq (v : Value) (vs : List Value) :
    ∃ more, itemTokens (v :: vs) = v.tokens ++ more := by
  cases vs with
  | nil => exact ⟨[], by rw [itemTokens, List.append_nil]⟩
  | cons w vs => exact ⟨_, by rw [itemTokens]⟩

/-- Where an object may end, a member is read all the same. -/
theorem run?_nameOrEnd (m : Literal × Value) (ms : List (Literal × Value)) (stack : List Frame)
    (rest : List Token) :
    run? .nameOrEnd stack (memberTokens (m :: ms) ++ rest) =
      run? (.name []) stack (memberTokens (m :: ms) ++ rest) := by
  cases ms <;> rw [memberTokens] <;> rfl

mutual

/-- A value is read back from its tokens, whatever the reader is inside of. -/
theorem run?_tokens : ∀ (v : Value) (stack : List Frame) (rest : List Token),
    run? .value stack (v.tokens ++ rest) = run? (.after v) stack rest
  | .null, _, _ => by rw [tokens]; rfl
  | .bool _, _, _ => by rw [tokens]; rfl
  | .number _, _, _ => by rw [tokens]; rfl
  | .text _, _, _ => by rw [tokens]; rfl
  | .array [], _, _ => by rw [tokens]; rfl
  | .array (v :: vs), stack, rest => by
    have items := run?_itemTokens (v :: vs) (List.cons_ne_nil v vs) [] stack rest
    have opened : run? .value stack ((array (v :: vs)).tokens ++ rest) =
        run? .itemOrEnd (.array [] :: stack) (itemTokens (v :: vs) ++ .closeBracket :: rest) := by
      rw [tokens, List.cons_append, List.cons_append, List.append_assoc]
      rfl
    obtain ⟨more, eq⟩ := exists_itemTokens_eq v vs
    rw [eq, List.append_assoc] at items opened
    rw [opened, run?_itemOrEnd, items]
    rfl
  | .object [], _, _ => by rw [tokens]; rfl
  | .object (m :: ms), stack, rest => by
    have members := run?_memberTokens (m :: ms) (List.cons_ne_nil m ms) [] stack rest
    have opened : run? .value stack ((object (m :: ms)).tokens ++ rest) =
        run? .nameOrEnd stack (memberTokens (m :: ms) ++ .closeBrace :: rest) := by
      rw [tokens, List.cons_append, List.cons_append, List.append_assoc]
      rfl
    rw [opened, run?_nameOrEnd, members]
    rfl

/-- So are the items of an array. -/
theorem run?_itemTokens : ∀ vs : List Value, vs ≠ [] → ∀ (items : List Value) (outer : List Frame)
    (rest : List Token),
    run? .value (.array items :: outer) (itemTokens vs ++ .closeBracket :: rest) =
      run? (.after (.array (items.reverse ++ vs))) outer rest
  | [], ne, _, _, _ => absurd rfl ne
  | [v], _, items, outer, rest => by
    rw [itemTokens, run?_tokens v, ← List.reverse_cons]
    rfl
  | v :: w :: vs, _, items, outer, rest => by
    have more := run?_itemTokens (w :: vs) (List.cons_ne_nil w vs) (v :: items) outer rest
    rw [List.reverse_cons, List.append_assoc] at more
    rw [itemTokens, List.append_assoc, run?_tokens v]
    exact more

/-- And the members of an object. -/
theorem run?_memberTokens : ∀ ms : List (Literal × Value), ms ≠ [] →
    ∀ (members : List (Literal × Value)) (outer : List Frame) (rest : List Token),
    run? (.name members) outer (memberTokens ms ++ .closeBrace :: rest) =
      run? (.after (.object (members.reverse ++ ms))) outer rest
  | [], ne, _, _, _ => absurd rfl ne
  | [(n, v)], _, members, outer, rest => by
    have value := run?_tokens v (.object members n :: outer) (.closeBrace :: rest)
    rw [memberTokens, ← List.reverse_cons]
    exact value
  | (n, v) :: m :: ms, _, members, outer, rest => by
    have value := run?_tokens v (.object members n :: outer)
      (.comma :: (memberTokens (m :: ms) ++ .closeBrace :: rest))
    have more := run?_memberTokens (m :: ms) (List.cons_ne_nil m ms) ((n, v) :: members) outer rest
    rw [List.reverse_cons, List.append_assoc] at more
    rw [memberTokens, List.cons_append, List.cons_append, List.append_assoc]
    exact value.trans more

end

/-- A value is read back from its text. -/
theorem parse?_render {v : Value} (written : v.IsWritten) : parse? v.render = some v := by
  have back := run?_tokens v [] []
  rw [List.append_nil] at back
  rw [parse?, lex?_render written, Option.bind_some, ofTokens?, back, run?]

end Value
end LeftDeep.Json
