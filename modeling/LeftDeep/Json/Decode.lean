import LeftDeep.Json.Value

/-!
# Reading records out of JSON values

A record is written as an object, or as an array of its fields in the order they are declared.
An object may hold names the record does not know, which are passed over, but no known name
twice. An array may be shorter than the record, never longer. A field that is missing either has
a default or makes the reading fail.

## Main definitions

* `Value.text?`, `Value.uint64?`, `Value.float?` and the like: reading one quantity.
* `Value.fields?`: the known fields of a record, whichever way it is written.
* `Fields.required?` and `Fields.orDefault?`: reading one field.
* `Value.isReadable`: whether a value could be taken in whole.
-/

namespace LeftDeep.Json

namespace Value

/-- A text. -/
def text? : Value → Option String
  | .text t => t
  | _ => none

/-- A text, or null for none. -/
def optionalText? : Value → Option (Option String)
  | .null => some none
  | v => v.text?.map some

/-- A truth value. -/
def bool? : Value → Option Bool
  | .bool b => some b
  | _ => none

/-- An unsigned 64-bit quantity. -/
def uint64? : Value → Option UInt64
  | .number n => n.toUInt64?
  | _ => none

/-- An unsigned 32-bit quantity. -/
def uint32? (v : Value) : Option UInt32 :=
  v.uint64?.bind fun n => if n.toNat < UInt32.size then some n.toUInt32 else none

/-- A double; whole numbers are doubles too. -/
def float? : Value → Option Float
  | .number n => n.toFloat?
  | _ => none

/-- A list of whatever the items are read as. -/
def list? {α : Type} (item? : Value → Option α) : Value → Option (List α)
  | .array items => items.mapM item?
  | _ => none

/-- One of a set of names. A name is a text, or an object that gives it alone the value null. -/
def name? : Value → Option String
  | .text t => t
  | .object [(n, .null)] => n
  | _ => none

end Value

/-- The known fields of a record, each at most once. -/
abbrev Fields := List (String × Value)

namespace Fields

/-- A field that has to be there. -/
def required? {α : Type} (fs : Fields) (name : String) (read? : Value → Option α) : Option α :=
  (fs.lookup name).bind read?

/-- A field that may be missing. -/
def orDefault? {α : Type} (fs : Fields) (name : String) (read? : Value → Option α)
    (default : α) : Option α :=
  match fs.lookup name with
  | none => some default
  | some v => read? v

/-- The members of an object, if all their names are texts. -/
def ofMembers? (members : List (Literal × Value)) : Option Fields :=
  members.mapM fun (n, v) => n.map fun name => (name, v)

/-- The fields with one of the given names, unless one of these is repeated. -/
def known? (names : List String) (fs : Fields) : Option Fields :=
  let known := fs.filter fun (n, _) => names.contains n
  if (known.map Prod.fst).Nodup then some known else none

end Fields

namespace Value

/-- The fields of a record with the given field names. -/
def fields? (names : List String) : Value → Option Fields
  | .object members => (Fields.ofMembers? members).bind (Fields.known? names)
  | .array items => if items.length ≤ names.length then some (names.zip items) else none
  | _ => none

/-! ## Taking a value in whole

A field that a record does not know is passed over token by token, and then its literals need not
denote texts, its numbers may be out of range, and it may be nested to any depth. Where such a
field is set aside first and looked at later, all three are required of it. -/

mutual

/-- Whether a value has at most `depth` levels of containers, every literal in it denotes a text
and every number is in range. -/
def isReadable (depth : Nat) : Value → Bool
  | .null => true
  | .bool _ => true
  | .number n => n.toFloat?.isSome
  | .text t => t.isSome
  | .array items => depth != 0 && areReadable (depth - 1) items
  | .object members => depth != 0 && membersReadable (depth - 1) members

/-- Whether all items of an array are readable. -/
def areReadable (depth : Nat) : List Value → Bool
  | [] => true
  | v :: vs => v.isReadable depth && areReadable depth vs

/-- Whether all names and values of an object are readable. -/
def membersReadable (depth : Nat) : List (Literal × Value) → Bool
  | [] => true
  | (n, v) :: ms => n.isSome && v.isReadable depth && membersReadable depth ms

end

end Value
end LeftDeep.Json
