import Mathlib.Logic.Basic
import LeftDeep.Workload.Prepare

/-!
# Columns in writing

The written form of a column is cut at its first dot. This finds the alias and the field again, as
long as the alias has no dot and neither is empty, and no other text is the written form of a
column.

## Main definitions

* `ColumnRef.IsProper`: columns that are found again in their written form.
* `ColumnRef.IsWritten`: the texts that are written forms of such columns.

## Main statements

* `ColumnRef.cutAtDot_eq_some_iff`: where a text is cut.
* `ColumnRef.parse?_eq_some_iff`: reading a column undoes writing it.
-/

namespace LeftDeep.ColumnRef

variable {ref : ColumnRef} {text : String} {cs before after : List Char}

/-- Neither part of the column is empty, and there is no dot in its alias. -/
structure IsProper (ref : ColumnRef) : Prop where
  relation_ne : ref.relation ≠ ""
  dotless : '.' ∉ ref.relation.toList
  field_ne : ref.field ≠ ""

/-- The text is the written form of a column. -/
def IsWritten (text : String) : Prop := ∃ ref : ColumnRef, ref.IsProper ∧ text = ref.text

theorem cutAtDot_append (dotless : '.' ∉ before) (after : List Char) :
    cutAtDot (before ++ '.' :: after) = some (before, after) := by
  induction before with
  | nil => rfl
  | cons c before ih =>
    obtain ⟨other, dotless⟩ := not_or.1 (List.mem_cons.not.1 dotless)
    rw [List.cons_append, cutAtDot, if_neg (Ne.symm other), ih dotless]
    rfl

theorem cutAtDot_eq_some_iff :
    cutAtDot cs = some (before, after) ↔ cs = before ++ '.' :: after ∧ '.' ∉ before := by
  constructor
  · intro cut
    induction cs generalizing before with
    | nil => exact absurd cut (by simp [cutAtDot])
    | cons c cs ih =>
      rw [cutAtDot] at cut
      split at cut
      · next dot =>
        obtain ⟨rfl, rfl⟩ := Prod.mk.inj (Option.some.inj cut)
        exact ⟨congrArg (· :: cs) dot, List.not_mem_nil⟩
      · next other =>
        obtain ⟨⟨before', after'⟩, rest, same⟩ := Option.map_eq_some_iff.1 cut
        obtain ⟨rfl, rfl⟩ := Prod.mk.inj same
        obtain ⟨rfl, dotless⟩ := ih rest
        exact ⟨rfl, List.mem_cons.not.2 (not_or.2 ⟨Ne.symm other, dotless⟩)⟩
  · rintro ⟨rfl, dotless⟩
    exact cutAtDot_append dotless after

theorem toList_text (ref : ColumnRef) :
    ref.text.toList = ref.relation.toList ++ '.' :: ref.field.toList := by
  simp [text]

/-- Reading a column undoes writing it, and nothing else is read. -/
theorem parse?_eq_some_iff : parse? text = some ref ↔ ref.IsProper ∧ text = ref.text := by
  constructor
  · intro read
    rw [parse?] at read
    split at read
    · next before after cut =>
      obtain ⟨split, dotless⟩ := cutAtDot_eq_some_iff.1 cut
      split at read
      · exact absurd read (by simp)
      · next full =>
        obtain rfl := Option.some.inj read
        rw [Bool.or_eq_true, List.isEmpty_iff, List.isEmpty_iff, not_or] at full
        refine ⟨⟨?_, ?_, ?_⟩, ?_⟩
        · simpa using full.1
        · simpa using dotless
        · simpa using full.2
        · rw [← String.toList_inj, toList_text, split]
          simp
    · exact absurd read (by simp)
  · rintro ⟨proper, rfl⟩
    have relation := proper.relation_ne
    have field := proper.field_ne
    rw [parse?, toList_text, cutAtDot_append proper.dotless]
    simp [relation, field]

theorem isWritten_iff : IsWritten text ↔ (parse? text).isSome := by
  rw [Option.isSome_iff_exists]
  exact exists_congr fun ref => parse?_eq_some_iff.symm

instance : DecidablePred IsWritten := fun _ => decidable_of_iff _ isWritten_iff.symm

end LeftDeep.ColumnRef
