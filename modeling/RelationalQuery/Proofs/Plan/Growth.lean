import Mathlib.Data.Set.Insert
import RelationalQuery.Proofs.Plan.Execution
import RelationalQuery.Proofs.Plan.Meaning
import RelationalQuery.Proofs.Record.Order

/-!
# Execution and added rows

A left outer join loses a row when its left part finds a first partner, so rows that are added on
the right of such a join can take others away. Rows that are added anywhere else take none away:
every row that a plan had before is there afterwards, the very same one with its aliases.
-/

set_option autoImplicit false

namespace RelationalQuery

/-- A join whose left rows are still there, and whose right ones are too, keeps its rows. A left
outer join must have the same right rows as before. -/
theorem JoinMode.rows_subset (mode : JoinMode) (conditions : List JoinCondition)
    {left left' right right' : Table} (hleft : left.rows ⊆ left'.rows)
    (hright : right.rows ⊆ right'.rows) (houter : mode = .leftOuter → right' = right) :
    (mode.rows left right conditions).rows ⊆ (mode.rows left' right' conditions).rows := by
  intro row hrow
  rw [mem_rows] at hrow ⊢
  cases mode with
  | cartesian =>
    obtain ⟨l, r, hl, hr, hjoin⟩ := hrow
    exact ⟨l, r, hleft hl, hright hr, hjoin⟩
  | inner =>
    obtain ⟨l, r, hl, hr, hmatch, hjoin⟩ := hrow
    exact ⟨l, r, hleft hl, hright hr, hmatch, hjoin⟩
  | leftOuter =>
    rw [houter rfl]
    rcases hrow with ⟨l, r, hl, hr, hmatch, hjoin⟩ | ⟨l, hl, hnone, honly⟩
    · exact .inl ⟨l, r, hleft hl, hr, hmatch, hjoin⟩
    · exact .inr ⟨l, hleft hl, hnone, honly⟩

namespace Plan

def OutsideOuterRights (names : Set String) : Plan → Prop
  | scan _ => True
  | join mode left right _ =>
    left.OutsideOuterRights names ∧ right.OutsideOuterRights names ∧
      (mode = .leftOuter → ∀ name ∈ right.tables, name ∉ names)

structure Grown (names : Set String) (source larger : DataSource) : Prop where
  inserted : ∀ name ∈ names, ∃ added, larger name = (source name).map (·.extend added)
  kept : ∀ name ∉ names, larger name = source name

variable {names : Set String} {source larger : DataSource}

theorem Grown.exists_extend (h : Grown names source larger) (name : String) :
    ∃ added, larger name = (source name).map (·.extend added) := by
  by_cases hname : name ∈ names
  · exact h.inserted name hname
  · refine ⟨[], ?_⟩
    rw [h.kept name hname]
    exact Option.map_id'.symm

/-- The rows of a plan depend on the tables that it scans and on no others. -/
theorem rows_congr {plan : Plan} {other : DataSource}
    (h : ∀ name ∈ plan.tables, other name = source name) : plan.rows other = plan.rows source := by
  induction plan with
  | scan name =>
    have hname : other name = source name := h name (by rw [tables_scan]; exact List.mem_cons_self)
    rw [rows, rows, hname]
  | join mode left right conditions ihLeft ihRight =>
    rw [tables_join] at h
    rw [rows, rows, ihLeft fun name hname => h name (List.mem_append_left _ hname),
      ihRight fun name hname => h name (List.mem_append_right _ hname)]

theorem rows_subset {plan : Plan} (hplan : plan.OutsideOuterRights names)
    (hgrown : Grown names source larger) {table : Table} (h : plan.rows source = .ok table) :
    ∃ table', plan.rows larger = .ok table' ∧ table.rows ⊆ table'.rows := by
  induction plan generalizing table with
  | scan name =>
    obtain ⟨added, hadded⟩ := hgrown.exists_extend name
    rw [rows_scan_ok.mp h, Option.map_some] at hadded
    exact ⟨table.extend added, rows_scan_ok.mpr hadded,
      fun row hrow => Table.mem_extend_of_mem hrow added⟩
  | join mode left right conditions ihLeft ihRight =>
    obtain ⟨hleftPlan, hrightPlan, houter⟩ := hplan
    obtain ⟨leftTable, rightTable, hleft, hright, hrows⟩ := rows_join_ok.mp h
    obtain ⟨leftTable', hleft', hleftRows⟩ := ihLeft hleftPlan hleft
    obtain ⟨rightTable', hright', hrightRows⟩ := ihRight hrightPlan hright
    have hsame : mode = .leftOuter → rightTable' = rightTable := by
      intro hmode
      have hcongr : right.rows larger = right.rows source :=
        rows_congr fun name hname => hgrown.kept name (houter hmode name hname)
      rw [hright', hright] at hcongr
      exact Except.ok.inj hcongr
    refine ⟨mode.rows leftTable' rightTable' conditions,
      rows_join_ok.mpr ⟨leftTable', rightTable', hleft', hright', rfl⟩, ?_⟩
    rw [hrows]
    exact mode.rows_subset conditions hleftRows hrightRows hsame

/-- Inserting rows into tables that are not scanned on the right of a left outer join takes no row
of the result away. -/
theorem execute_subset (plan : Plan) (names : Set String) (source larger : DataSource)
    (maxDepth : Nat) (table : Table) (hplan : plan.OutsideOuterRights names)
    (hgrown : Grown names source larger) (hexecute : plan.execute source maxDepth = .ok table) :
    ∃ table', plan.execute larger maxDepth = .ok table' ∧ table.rows ⊆ table'.rows := by
  obtain ⟨hdepth, hrows⟩ := execute_ok.mp hexecute
  obtain ⟨table', hrows', hsubset⟩ := rows_subset hplan hgrown hrows
  exact ⟨table', execute_ok.mpr ⟨hdepth, hrows'⟩, hsubset⟩

def pairedNumbers : Plan :=
  .join .inner (.join .leftOuter (.scan "numbers") (.scan "none") [⟨"id", "id"⟩])
    (.scan "numbers") [⟨"left.id", "id"⟩]

def moreNumbers : DataSource := fun name =>
  if name = "numbers" then
    (numbers.source name).map (·.extend [numbered, .ofPairs [("id", .integer 3)]])
  else numbers.source name

theorem execute_subset_more_numbers :
    pairedNumbers.OutsideOuterRights {"numbers"} ∧ Grown {"numbers"} numbers.source moreNumbers ∧
      ∃ table, pairedNumbers.execute numbers.source 3 = .ok table ∧ table.size = 2 ∧
        ∃ table', pairedNumbers.execute moreNumbers 3 = .ok table' ∧ table.rows ⊆ table'.rows := by
  have hplan : pairedNumbers.OutsideOuterRights {"numbers"} := by
    refine ⟨⟨trivial, trivial, ?_⟩, trivial, by decide⟩
    intro _ name hname
    rw [tables_scan, List.mem_singleton] at hname
    rw [hname]
    decide
  have hgrown : Grown {"numbers"} numbers.source moreNumbers :=
    ⟨fun _ hname => ⟨_, if_pos hname⟩, fun _ hname => if_neg hname⟩
  have hdepth : pairedNumbers.height ≤ 3 := by decide
  have hrows : (pairedNumbers.rows numbers.source).map Table.size = .ok 2 := by decide +kernel
  obtain ⟨table, hexecute, hsize⟩ := exists_execute pairedNumbers numbers.source hdepth hrows
  exact ⟨hplan, hgrown, table, hexecute, hsize,
    execute_subset pairedNumbers _ numbers.source moreNumbers 3 table hplan hgrown hexecute⟩

end Plan
end RelationalQuery
