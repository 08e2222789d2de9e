import LeftDeep.Json.Decode
import LeftDeep.Proofs.Json.Quantity
import LeftDeep.Proofs.Json.Value

/-!
# What is written is read back

The writers of single quantities and of records against their readers. A record writes each of its
fields once, under the names its reader knows, so that the fields found are the fields written.

## Main definitions

* `Value.IsReadAs`: a value that can be written as a text and is read as a quantity.

## Main statements

* `Value.isReadAs_list`: a list, if its items are read back.
* `Value.fields?_record`: the fields of a record.
-/

namespace LeftDeep.Json

namespace Value

/-- The value has a text that is read back, and is itself read as the given quantity. -/
structure IsReadAs {α : Type} (v : Value) (read? : Value → Option α) (a : α) : Prop where
  written : v.IsWritten
  read : read? v = some a

/-! ## Single quantities -/

theorem isReadAs_ofText (s : String) : (ofText s).IsReadAs text? s := ⟨trivial, rfl⟩

theorem isReadAs_ofText? (s : Option String) : (ofText? s).IsReadAs optionalText? s := by
  cases s with
  | none => exact ⟨trivial, rfl⟩
  | some s => exact ⟨trivial, rfl⟩

theorem isReadAs_ofUInt64 (n : UInt64) : (ofUInt64 n).IsReadAs uint64? n :=
  ⟨Number.isWritten_ofUInt64 n, Number.toUInt64?_ofUInt64 n⟩

/-- A double that is read back from its number is written as a number. -/
theorem exists_ofFloat_eq {x : Float} (back : Number.ReadsBack x) :
    ∃ n, ofFloat x = .number n ∧ n.IsWritten ∧ n.toFloat? = some x := by
  obtain ⟨n, number, read⟩ := Option.bind_eq_some_iff.1 back
  exact ⟨n, by rw [ofFloat, number], Number.isWritten_of_readsBack back number, read⟩

theorem isReadAs_ofFloat {x : Float} (back : Number.ReadsBack x) :
    (ofFloat x).IsReadAs float? x := by
  obtain ⟨n, eq, written, read⟩ := exists_ofFloat_eq back
  rw [eq]
  exact ⟨written, read⟩

theorem isReadable_ofUInt64 (n : UInt64) (depth : Nat) : (ofUInt64 n).isReadable depth = true := by
  rw [ofUInt64, isReadable]
  exact Number.isSome_toFloat?_ofUInt64 n

theorem isReadable_ofFloat {x : Float} (back : Number.ReadsBack x) (depth : Nat) :
    (ofFloat x).isReadable depth = true := by
  obtain ⟨n, eq, -, read⟩ := exists_ofFloat_eq back
  rw [eq, isReadable, read, Option.isSome_some]

/-! ## Lists -/

theorem areWritten_of_forall {items : List Value} (h : ∀ v ∈ items, v.IsWritten) :
    AreWritten items := by
  induction items with
  | nil => trivial
  | cons v vs ih =>
    exact ⟨h v List.mem_cons_self, ih fun w mem => h w (List.mem_cons_of_mem v mem)⟩

/-- A list is read back if its items are. -/
theorem isReadAs_list {α : Type} {item? : Value → Option α} {toItem : α → Value} {items : List α}
    (h : ∀ a ∈ items, (toItem a).IsReadAs item? a) :
    (array (items.map toItem)).IsReadAs (list? item?) items := by
  constructor
  case written =>
    refine areWritten_of_forall fun v mem => ?_
    obtain ⟨a, listed, rfl⟩ := List.mem_map.1 mem
    exact (h a listed).written
  case read =>
    rw [list?]
    induction items with
    | nil => rfl
    | cons a items ih =>
      rw [List.map_cons, List.mapM_cons, (h a List.mem_cons_self).read,
        ih fun b mem => h b (List.mem_cons_of_mem a mem)]
      rfl

/-- Every element of a list that is read comes from an item. -/
theorem exists_of_list? {α : Type} {item? : Value → Option α} {v : Value} {items : List α}
    (h : v.list? item? = some items) {a : α} (mem : a ∈ items) : ∃ w, item? w = some a := by
  simp only [list?] at h
  split at h
  · next values =>
    induction values generalizing items with
    | nil =>
      obtain rfl := Option.some.inj h
      exact absurd mem (by simp)
    | cons w values ih =>
      rw [List.mapM_cons] at h
      simp only [bind, pure, Option.bind_eq_some_iff, Option.some.injEq] at h
      obtain ⟨b, first, rest, more, rfl⟩ := h
      rcases List.mem_cons.1 mem with rfl | later
      · exact ⟨w, first⟩
      · exact ih later more
  · exact absurd h (by simp)

/-! ## Records -/

theorem isWritten_record {fields : Fields} (h : ∀ f ∈ fields, f.2.IsWritten) :
    (record fields).IsWritten := by
  rw [record, IsWritten]
  induction fields with
  | nil => trivial
  | cons f fields ih =>
    exact ⟨h f List.mem_cons_self, ih fun g mem => h g (List.mem_cons_of_mem f mem)⟩

theorem ofMembers?_record (fields : Fields) :
    Fields.ofMembers? (fields.map fun (n, v) => (some n, v)) = some fields := by
  rw [Fields.ofMembers?]
  induction fields with
  | nil => rfl
  | cons f fields ih =>
    rw [List.map_cons, List.mapM_cons, ih]
    rfl

theorem known?_self {names : List String} {fields : Fields} (h : fields.map Prod.fst = names)
    (nodup : names.Nodup) : fields.known? names = some fields := by
  have all : fields.filter (fun f => names.contains f.1) = fields := by
    rw [List.filter_eq_self]
    intro f mem
    rw [List.contains_iff_mem, ← h]
    exact List.mem_map_of_mem mem
  rw [Fields.known?]
  simp only [all]
  rw [if_pos (h ▸ nodup)]

/-- The fields of a record are found again. -/
theorem fields?_record (names : List String) {fields : Fields} (h : fields.map Prod.fst = names)
    (nodup : names.Nodup) : (record fields).fields? names = some fields := by
  rw [record, fields?, ofMembers?_record, Option.bind_some, known?_self h nodup]

end Value

namespace Fields

variable {α : Type} {fs : Fields} {name : String} {v : Value} {read? : Value → Option α} {a : α}

theorem required?_of_isReadAs (back : v.IsReadAs read? a) (found : fs.lookup name = some v) :
    fs.required? name read? = some a := by
  rw [required?, found, Option.bind_some, back.read]

theorem orDefault?_of_isReadAs (back : v.IsReadAs read? a) (found : fs.lookup name = some v)
    (default : α) : fs.orDefault? name read? default = some a := by
  simp only [orDefault?, found, back.read]

end Fields
end LeftDeep.Json
