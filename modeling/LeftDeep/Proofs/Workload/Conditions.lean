import LeftDeep.Proofs.Result
import LeftDeep.Proofs.Workload.Columns

/-!
# Join conditions in writing

A join entry is a condition with its columns in writing. Reading it and writing it down again are
inverse to each other: nothing of an entry is lost in its condition, and every condition whose
columns can be written is found again.

## Main definitions

* `Condition.IsProper`: conditions whose columns are found again in their written form.
* `Condition.entry`: the condition in writing.
* `ReadsExactly`: what readers of columns and of join entries make of a text.

## Main statements

* `JoinEntry.condition_eq_ok_iff`: reading an entry undoes writing the condition.
* `Condition.equi?_eq_some_iff`: so does reading the two sides of an equality.
* `readsExactly_condition`: columns and join entries are read exactly.
-/

namespace LeftDeep

/-- The columns of the condition are found again in their written form. -/
structure Condition.IsProper (c : Condition) : Prop where
  left : c.left.IsProper
  right : ∀ ref, c.right = .column ref → ref.IsProper

/-- The written form of the right column, if there is one. -/
def Operand.columnText? (right : Operand) : Option String := right.column?.map ColumnRef.text

/-- The condition in writing. -/
def Condition.entry (c : Condition) : JoinEntry :=
  { left := c.left.text, op := c.op, right := c.right.columnText? }

/-- Readers of columns and of join entries find what was written, and nothing else. -/
structure ReadsExactly (column? : String → Option ColumnRef)
    (condition : JoinEntry → Except WorkloadError Condition) : Prop where
  /-- A text is read as the column that it is the written form of. -/
  column?_eq_some_iff : ∀ text ref, column? text = some ref ↔ ref.IsProper ∧
    text = ref.relation ++ "." ++ ref.field
  /-- A text is refused if it cannot be taken apart into an alias and a field, and only then. -/
  column?_eq_none_iff : ∀ text, column? text = none ↔
    ¬∃ ref : ColumnRef, ref.IsProper ∧ text = ref.relation ++ "." ++ ref.field
  /-- The left column of a condition is that of the entry. -/
  left_text : ∀ j c, condition j = .ok c → c.left.text = j.left
  /-- So is the right one. -/
  right_text : ∀ j c, condition j = .ok c → c.right.columnText? = j.right
  /-- Without a right side, the condition is one with a sub-query. -/
  isSubquery_iff : ∀ j c, condition j = .ok c → (c.isSubquery = true ↔ j.right = none)
  /-- The comparison is that of the entry. -/
  op : ∀ j c, condition j = .ok c → c.op = j.op
  /-- A condition is found again in its written form. -/
  condition_entry : ∀ c : Condition, c.IsProper → condition c.entry = .ok c

theorem Condition.isProper_column_iff {left right : ColumnRef} {op : Comparison} :
    Condition.IsProper ⟨left, op, .column right⟩ ↔ left.IsProper ∧ right.IsProper := by
  constructor
  · intro proper
    exact ⟨proper.left, proper.right right rfl⟩
  · rintro ⟨leftProper, rightProper⟩
    refine ⟨leftProper, ?_⟩
    intro ref same
    exact Operand.column.inj same ▸ rightProper

theorem WorkloadError.column_eq_ok_iff {text : String} {ref : ColumnRef} :
    column text = .ok ref ↔ ref.IsProper ∧ text = ref.text := by
  rw [← ColumnRef.parse?_eq_some_iff, column]
  cases ColumnRef.parse? text <;> simp

/-- Reading an entry undoes writing the condition, and nothing else is read. -/
theorem JoinEntry.condition_eq_ok_iff {j : JoinEntry} {c : Condition} :
    j.condition = .ok c ↔ c.IsProper ∧ j = c.entry := by
  obtain ⟨leftText, op, rightText⟩ := j
  constructor
  · intro read
    obtain ⟨left, readLeft, rest⟩ := bind_eq_ok_iff.1 read
    obtain ⟨leftProper, rfl⟩ := WorkloadError.column_eq_ok_iff.1 readLeft
    cases rightText with
    | none =>
      obtain rfl := Except.ok.inj rest
      exact ⟨⟨leftProper, fun ref absent => Operand.noConfusion absent⟩, rfl⟩
    | some text =>
      obtain ⟨right, readRight, rest⟩ := bind_eq_ok_iff.1 rest
      obtain ⟨rightProper, rfl⟩ := WorkloadError.column_eq_ok_iff.1 readRight
      obtain rfl := Except.ok.inj rest
      exact ⟨Condition.isProper_column_iff.2 ⟨leftProper, rightProper⟩, rfl⟩
  · rintro ⟨proper, same⟩
    obtain ⟨left, op', right⟩ := c
    obtain ⟨rfl, rfl, rfl⟩ := JoinEntry.mk.inj same
    have readLeft := WorkloadError.column_eq_ok_iff.2 ⟨proper.left, rfl⟩
    cases right with
    | subquery => exact bind_eq_ok_iff.2 ⟨left, readLeft, rfl⟩
    | column ref =>
      have rightProper := (Condition.isProper_column_iff.1 proper).2
      have readRight := WorkloadError.column_eq_ok_iff.2 ⟨rightProper, rfl⟩
      exact bind_eq_ok_iff.2 ⟨left, readLeft, bind_eq_ok_iff.2 ⟨ref, readRight, rfl⟩⟩

/-- Reading the two sides of an equality undoes writing them. -/
theorem Condition.equi?_eq_some_iff {left right : String} {c : Condition} :
    equi? left right = some c ↔
      c.IsProper ∧ c.op = .equal ∧ left = c.left.text ∧ c.right.columnText? = some right := by
  simp only [equi?, bind, Option.bind_eq_some_iff, ColumnRef.parse?_eq_some_iff, Option.some.injEq]
  constructor
  · rintro ⟨leftRef, ⟨leftProper, rfl⟩, rightRef, ⟨rightProper, rfl⟩, rfl⟩
    exact ⟨isProper_column_iff.2 ⟨leftProper, rightProper⟩, rfl, rfl, rfl⟩
  · obtain ⟨leftRef, op, operand⟩ := c
    rintro ⟨proper, rfl, rfl, written⟩
    obtain ⟨ref, column, rfl⟩ := Option.map_eq_some_iff.1 written
    cases operand with
    | subquery => exact absurd column (by simp [Operand.column?])
    | column rightRef =>
      obtain rfl := Option.some.inj column
      obtain ⟨leftProper, rightProper⟩ := isProper_column_iff.1 proper
      exact ⟨leftRef, ⟨leftProper, rfl⟩, rightRef, ⟨rightProper, rfl⟩, rfl⟩

/-- Columns and join entries are read exactly and without loss. -/
theorem readsExactly_condition : ReadsExactly ColumnRef.parse? JoinEntry.condition where
  column?_eq_some_iff := fun text ref => ColumnRef.parse?_eq_some_iff
  column?_eq_none_iff := by
    intro text
    rw [← Option.not_isSome_iff_eq_none, ← ColumnRef.isWritten_iff]
    rfl
  left_text := by
    intro j c read
    obtain ⟨-, rfl⟩ := JoinEntry.condition_eq_ok_iff.1 read
    rfl
  right_text := by
    intro j c read
    obtain ⟨-, rfl⟩ := JoinEntry.condition_eq_ok_iff.1 read
    rfl
  isSubquery_iff := by
    intro j c read
    obtain ⟨-, rfl⟩ := JoinEntry.condition_eq_ok_iff.1 read
    obtain ⟨left, op, right⟩ := c
    cases right <;> simp [Condition.entry, Condition.isSubquery, Operand.isSubquery,
      Operand.columnText?, Operand.column?]
  op := by
    intro j c read
    obtain ⟨-, rfl⟩ := JoinEntry.condition_eq_ok_iff.1 read
    rfl
  condition_entry := fun c proper => JoinEntry.condition_eq_ok_iff.2 ⟨proper, rfl⟩

/-- Dots side by side and at the end belong to the field, a dot in front leaves no alias. -/
theorem readsExactly_dots :
    ColumnRef.parse? "a..b." = some ⟨"a", ".b."⟩ ∧ ColumnRef.parse? ".a.b" = none ∧
      JoinEntry.condition { left := "a..b.", op := .less, right := some "é.b" } =
        .ok { left := ⟨"a", ".b."⟩, op := .less, right := .column ⟨"é", "b"⟩ } := by
  have reads := readsExactly_condition
  have left : ColumnRef.IsProper ⟨"a", ".b."⟩ := ⟨by decide, by decide, by decide⟩
  have right : ColumnRef.IsProper ⟨"é", "b"⟩ := ⟨by decide, by decide, by decide⟩
  refine ⟨(reads.column?_eq_some_iff _ _).2 ⟨left, by decide⟩, rfl, ?_⟩
  exact reads.condition_entry _ (Condition.isProper_column_iff.2 ⟨left, right⟩)

end LeftDeep
