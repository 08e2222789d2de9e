import LeftDeep.Planner
import LeftDeep.Proofs.Plan.Resolution
import LeftDeep.Proofs.Workload.Preparation

/-!
# What planning depends on

Planning looks at a table only through the aliases and columns that some join names. The ids of the
tables, the order in which they and the scans are listed, the text of the query, and all that no
join names leave the result as it is, be it a plan or an error.

## Main definitions

* `Inputs.AgreeOnJoins`: inputs that say the same of all that the joins name.
* `Inputs.PlansAs`: inputs with the same results.
* `Workload.IsExtendedBy`: a workload listed in another order and with more tables and scans.

## Main statements

* `Workload.source?_of_isExtendedBy`: the aliases that joins name stand for the same.
* `Workload.plansAs_of_agree`: neither unused inputs nor the order of the others matter.
-/

namespace LeftDeep

namespace Inputs

variable {inputs inputs' : Inputs} {p p' : Problem}

/-- The same joins, and the same scans and keys for the aliases and columns that they name. -/
structure AgreeOnJoins (inputs inputs' : Inputs) : Prop where
  joins : inputs.query.joins = inputs'.query.joins
  scan : ∀ name ∈ inputs.query.joinedAliases, ∀ r r', inputs.relation name = .ok r →
    inputs'.relation name = .ok r' → r.scan = r'.scan
  isKey : ∀ ref, inputs.IsReferenced ref → inputs.isKey ref = inputs'.isKey ref

/-- The same result of every search, and under every configuration. -/
structure PlansAs (inputs inputs' : Inputs) : Prop where
  planWith (search : Search) : inputs.planWith search = inputs'.planWith search
  plan (config : SearchConfig) : inputs.plan config = inputs'.plan config

/-- Inputs that pose the same problem have the same results. -/
theorem plansAs_of_problem (joins : inputs.query.joins = inputs'.query.joins)
    (problem : inputs.problem = inputs'.problem) : inputs.PlansAs inputs' := by
  have planWith (search : Search) : inputs.planWith search = inputs'.planWith search := by
    rw [Inputs.planWith, Inputs.planWith, problem]
  refine ⟨planWith, ?_⟩
  intro config
  rw [Inputs.plan, Inputs.plan, joins, planWith]

/-- Inputs that agree on what the joins name have the same results, if their relations are found. -/
theorem AgreeOnJoins.plansAs (agree : inputs.AgreeOnJoins inputs') (ok : inputs.problem = .ok p)
    (ok' : inputs'.problem = .ok p') : inputs.PlansAs inputs' := by
  apply plansAs_of_problem agree.joins
  refine problem_congr agree.joins ?_ agree.isKey
  intro name mem
  have mem' : name ∈ inputs'.query.joinedAliases := by
    rw [Query.joinedAliases, ← agree.joins]
    exact mem
  obtain ⟨r, -, found⟩ := relation_eq_ok_of_problem ok mem
  obtain ⟨r', -, found'⟩ := relation_eq_ok_of_problem ok' mem'
  have names := (name_of_relation found).trans (name_of_relation found').symm
  have scans := agree.scan name mem r r' found found'
  obtain ⟨name, scan⟩ := r
  obtain ⟨name', scan'⟩ := r'
  obtain rfl : name = name' := names
  obtain rfl : scan = scan' := scans
  rw [found, found']

end Inputs

/-- If at most one element is looked for, it is found in any order, and among others. -/
theorem find?_of_perm_append {α : Type} {items items' others : List α} {wanted : α → Bool}
    (perm : items'.Perm (items ++ others)) (unique : {a ∈ items | wanted a}.Subsingleton)
    (unwanted : ∀ a ∈ others, ¬wanted a = true) : items'.find? wanted = items.find? wanted := by
  have unique' : {a ∈ items ++ others | wanted a}.Subsingleton := by
    rintro a ⟨ha, wa⟩ b ⟨hb, wb⟩
    have inside {c : α} (hc : c ∈ items ++ others) (wc : wanted c = true) : c ∈ items :=
      (List.mem_append.1 hc).resolve_right fun other => unwanted c other wc
    exact unique ⟨inside ha wa, wa⟩ ⟨inside hb wb, wb⟩
  rw [← List.find?_eq_find?_of_perm perm.symm unique', List.find?_append,
    List.find?_eq_none.2 unwanted, Option.or_none]

namespace Workload

variable {w w' : Workload} {inputs inputs' : Inputs} {name : String}

/-- The same joins and configuration, with the tables and scans in any order and among others. The
further scans bind aliases that no join names. -/
structure IsExtendedBy (w w' : Workload) (newTables : List TableEntry)
    (newScans : List ScanEntry) : Prop where
  joins : w'.joins = w.joins
  config : w'.config = w.config
  tables : w'.tables.Perm (w.tables ++ newTables)
  scans : w'.scans.Perm (w.scans ++ newScans)
  unnamed : ∀ s ∈ newScans, ∀ j ∈ w.joins, ∀ c, j.condition = .ok c → s.boundName ∉ c.aliases

variable {newTables : List TableEntry} {newScans : List ScanEntry}

/-- An alias that joins name has the same scan. -/
theorem scanOf?_of_isExtendedBy (extended : w.IsExtendedBy w' newTables newScans)
    (ne : w.scans ≠ []) (nodup : (w.scans.map ScanEntry.boundName).Nodup)
    (unnamed : ∀ s ∈ newScans, s.boundName ≠ name) :
    w'.scanOf? name = w.scanOf? name := by
  have ne' : w'.scans ≠ [] := by
    intro nil
    have perm := extended.scans
    rw [nil, List.nil_perm, List.append_eq_nil_iff] at perm
    exact ne perm.1
  rw [scanOf?, scanOf?, effectiveScans_of_ne_nil ne, effectiveScans_of_ne_nil ne']
  -- The last scan of an alias counts, but no alias has two, so the order of the scans is lost.
  have unique : {s ∈ w.scans.reverse | (s.boundName == name) = true}.Subsingleton := by
    rintro s ⟨hs, eq⟩ s' ⟨hs', eq'⟩
    exact List.inj_on_of_nodup_map nodup (List.mem_reverse.1 hs) (List.mem_reverse.1 hs')
      ((eq_of_beq eq).trans (eq_of_beq eq').symm)
  have perm : w'.scans.reverse.Perm (w.scans.reverse ++ newScans) :=
    (w'.scans.reverse_perm.trans extended.scans).trans
      (w.scans.reverse_perm.symm.append_right newScans)
  apply find?_of_perm_append perm unique
  intro s mem bound
  exact unnamed s mem (eq_of_beq bound)

/-- An alias that joins name stands for the same scan and the same table. -/
theorem source?_of_isExtendedBy (extended : w.IsExtendedBy w' newTables newScans)
    (h : w.IsPrepared inputs) (h' : w'.IsPrepared inputs') (ne : w.scans ≠ [])
    (nodup : (w.scans.map ScanEntry.boundName).Nodup)
    (mem : name ∈ inputs.query.joinedAliases) : w'.source? name = w.source? name := by
  obtain ⟨c, joined, named⟩ := List.mem_flatMap.1 mem
  obtain ⟨j, listed, read⟩ := exists_of_mem_right (mapM_eq_ok_iff.1 h.joins) joined
  have scan : w'.scanOf? name = w.scanOf? name := by
    apply scanOf?_of_isExtendedBy extended ne nodup
    rintro s further rfl
    exact extended.unnamed s further j listed c read named
  cases source : w.source? name with
  | none => rw [h'.source?_eq_none_iff, scan, h.source?_eq_none_iff.1 source]
  | some st =>
    obtain ⟨s, t⟩ := st
    obtain ⟨found, mem, same⟩ := h.source?_eq_some_iff.1 source
    have mem' : t ∈ w'.tables := extended.tables.mem_iff.2 (List.mem_append_left newTables mem)
    exact h'.source?_eq_some_iff.2 ⟨scan.trans found, mem', same⟩

/-- Extending a workload leaves all results as they are. -/
theorem IsExtendedBy.plansAs (extended : w.IsExtendedBy w' newTables newScans)
    (h : w.IsPrepared inputs) (h' : w'.IsPrepared inputs') (ne : w.scans ≠ [])
    (nodup : (w.scans.map ScanEntry.boundName).Nodup) : inputs.PlansAs inputs' := by
  have joins : inputs.query.joins = inputs'.query.joins := by
    have read := h'.joins
    rw [extended.joins, h.joins] at read
    exact Except.ok.inj read
  have source (name : String) (mem : name ∈ inputs.query.joinedAliases) :=
    source?_of_isExtendedBy extended h h' ne nodup mem
  apply Inputs.plansAs_of_problem joins
  apply Inputs.problem_congr joins
  · intro name mem
    rw [h.relation_eq, h'.relation_eq, source name mem]
  · rintro ref ⟨c, joined, side⟩
    have named : ref.relation ∈ c.aliases := by
      rcases side with rfl | right
      · exact List.mem_cons_self
      · simp [Condition.aliases, right, Operand.column?]
    rw [h.isKey_eq, h'.isKey_eq, source ref.relation (List.mem_flatMap.2 ⟨c, joined, named⟩)]

/-- Inputs that say the same of all that the joins name have the same results, plans or errors. So
do the inputs of a workload whose scans bind different aliases, after its tables and scans are put
in another order, and after tables and scans are added under names that no join uses. A workload
with more tables than there are ids counts as not prepared. -/
theorem plansAs_of_agree :
    (∀ (inputs inputs' : Inputs) (p p' : Problem), inputs.problem = .ok p →
      inputs'.problem = .ok p' → inputs.AgreeOnJoins inputs' → inputs.PlansAs inputs') ∧
    ∀ (w w' : Workload) (newTables : List TableEntry) (newScans : List ScanEntry)
      (inputs inputs' : Inputs), w.inputs = .ok inputs → w'.inputs = .ok inputs' →
      w'.tables.length < 2 ^ 32 - 1 → w.scans ≠ [] →
      (w.scans.map ScanEntry.boundName).Nodup → w.IsExtendedBy w' newTables newScans →
      inputs.PlansAs inputs' ∧ inputs.plan w.config = inputs'.plan w'.config := by
  constructor
  · intro inputs inputs' p p' ok ok' agree
    exact agree.plansAs ok ok'
  · intro w w' newTables newScans inputs inputs' ok ok' small ne nodup extended
    have length := extended.tables.length_eq
    rw [List.length_append] at length
    have prepared := isPrepared_of_inputs ok (by omega)
    have prepared' := isPrepared_of_inputs ok' small
    have same := extended.plansAs prepared prepared' ne nodup
    rw [extended.config]
    exact ⟨same, same.plan w.config⟩

/-! ## An example -/

/-- The residents under other ids and table names, with an alias that no join names and whose table
is not in the catalog. -/
def renamedResidentsInputs : Inputs where
  query :=
    { scans := ((Bindings.empty.bind "p" 7).bind "x" 4).bind "city" 9
      joins := [{ left := ⟨"p", "city"⟩, op := .equal, right := .column ⟨"city", "id"⟩ }] }
  catalog := { tables := [
    { id := 9, name := "town", columns := [⟨"id", true⟩] },
    { id := 7, name := "resident", columns := [⟨"city", false⟩] }] }
  statistics := (Bindings.empty.bind "town" { tuples := 5, pages := 1, pageCost := 2 }).bind
    "resident" { tuples := 100, pages := 10 }
  selectivities := (Bindings.empty.bind "city" unfiltered).bind "p" 0.25

/-- The residents without the scan that does not count. -/
def plainResidents : Workload :=
  { residents 0.25 with
    scans := [{ table := "city" }, { table := "person", name := some "p", selectivity := 0.25 }] }

/-- A table that no join reads. -/
def river : TableEntry := { name := "river", statistics := { tuples := 3, pages := 1 } }

/-- A scan that no join reads. -/
def riverScan : ScanEntry := { table := "river", name := some "r" }

/-- The residents listed backwards, after a river and its scan. -/
def riverResidents : Workload :=
  { plainResidents with
    query := some "residents by the river"
    tables := (plainResidents.tables ++ [river]).reverse
    scans := (plainResidents.scans ++ [riverScan]).reverse }

theorem isExtendedBy_riverResidents :
    plainResidents.IsExtendedBy riverResidents [river] [riverScan] := by
  refine ⟨rfl, rfl, List.reverse_perm _, List.reverse_perm _, ?_⟩
  have joined : JoinEntry.condition { left := "p.city", right := some "city.id" } =
      .ok { left := ⟨"p", "city"⟩, op := .equal, right := .column ⟨"city", "id"⟩ } := rfl
  intro s mem j listed c read
  obtain rfl := List.mem_singleton.1 mem
  obtain rfl := List.mem_singleton.1 listed
  obtain rfl := Except.ok.inj (joined.symm.trans read)
  decide

set_option maxRecDepth 20000 in
theorem agreeOnJoins_renamedResidents :
    (residentsInputs 0.25).AgreeOnJoins renamedResidentsInputs := by
  refine ⟨rfl, ?_, ?_⟩
  · intro name mem r r' found found'
    have same : (residentsInputs 0.25).relation name = renamedResidentsInputs.relation name := by
      have listed : name ∈ ["p", "city"] := mem
      rcases List.mem_pair.1 listed with rfl | rfl
      · rfl
      · rfl
    rw [same, found'] at found
    obtain rfl := Except.ok.inj found
    rfl
  · rintro ref ⟨c, mem, side⟩
    obtain rfl := List.mem_singleton.1 mem
    rcases side with rfl | right
    · rfl
    · obtain rfl := Operand.column.inj right
      rfl

set_option maxRecDepth 20000 in
/-- The renamed residents have the results of the residents, and so have those by the river. -/
theorem residents_plansAs :
    ((residentsInputs 0.25).AgreeOnJoins renamedResidentsInputs ∧
      plainResidents.IsExtendedBy riverResidents [river] [riverScan]) ∧
    (residentsInputs 0.25).PlansAs renamedResidentsInputs ∧
    ∃ inputs inputs', plainResidents.inputs = .ok inputs ∧ riverResidents.inputs = .ok inputs' ∧
      inputs.PlansAs inputs' ∧
      inputs.plan plainResidents.config = inputs'.plan riverResidents.config := by
  have agree := agreeOnJoins_renamedResidents
  have extended := isExtendedBy_riverResidents
  obtain ⟨p, ok⟩ : ∃ p, (residentsInputs 0.25).problem = .ok p := ⟨_, rfl⟩
  obtain ⟨p', ok'⟩ : ∃ p, renamedResidentsInputs.problem = .ok p := ⟨_, rfl⟩
  obtain ⟨inputs, plain⟩ : ∃ inputs, plainResidents.inputs = .ok inputs := ⟨_, rfl⟩
  obtain ⟨inputs', withRiver⟩ : ∃ inputs, riverResidents.inputs = .ok inputs := ⟨_, rfl⟩
  have ne : plainResidents.scans ≠ [] := by simp [plainResidents]
  have distinct : (plainResidents.scans.map ScanEntry.boundName).Nodup := by decide
  have small : riverResidents.tables.length < 2 ^ 32 - 1 := by decide
  have renamed := plansAs_of_agree.1 _ _ p p' ok ok' agree
  have extra := plansAs_of_agree.2 plainResidents riverResidents [river] [riverScan] inputs inputs'
    plain withRiver small ne distinct extended
  exact ⟨⟨agree, extended⟩, renamed, inputs, inputs', plain, withRiver, extra⟩

end Workload
end LeftDeep
