import RelationalQuery.Plan.Execution
import RelationalQuery.Proofs.Plan.Traversal

/-!
# When plans are executed

A plan that is executed is no deeper than the limit, its inputs have rows of their own, and the
source holds every table that it scans.
-/

set_option autoImplicit false

namespace RelationalQuery.Plan

variable {source : DataSource}

theorem rows_scan_ok {name : String} {table : Table} :
    (scan name).rows source = .ok table ↔ source name = some table := by
  rw [rows]
  cases source name with
  | none => simp
  | some found => simp

theorem rows_join_ok {mode : JoinMode} {left right : Plan} {conditions : List JoinCondition}
    {table : Table} : (join mode left right conditions).rows source = .ok table ↔
      ∃ leftTable rightTable, left.rows source = .ok leftTable ∧
        right.rows source = .ok rightTable ∧
          table = mode.rows leftTable rightTable conditions := by
  rw [rows]
  cases left.rows source with
  | error e => simp [bind, Except.bind]
  | ok leftTable =>
    cases right.rows source with
    | error e => simp [bind, Except.bind]
    | ok rightTable => simp [bind, Except.bind, pure, Except.pure, eq_comm]

theorem is_some_of_rows_ok {plan : Plan} {table : Table} (h : plan.rows source = .ok table) :
    ∀ name ∈ plan.tables, (source name).isSome = true := by
  induction plan generalizing table with
  | scan name =>
    rw [tables_scan]
    simp [rows_scan_ok.mp h]
  | join mode left right conditions ihLeft ihRight =>
    obtain ⟨leftTable, rightTable, hleft, hright, _⟩ := rows_join_ok.mp h
    intro name hname
    rw [tables_join] at hname
    rcases List.mem_append.mp hname with hname | hname
    · exact ihLeft hleft name hname
    · exact ihRight hright name hname

theorem execute_ok {plan : Plan} {maxDepth : Nat} {table : Table} :
    plan.execute source maxDepth = .ok table ↔
      plan.height ≤ maxDepth ∧ plan.rows source = .ok table := by
  rw [execute, depth_eq_height]
  split
  · simp only [reduceCtorEq, false_iff, not_and]
    omega
  · simp only [iff_and_self]
    omega

theorem exists_execute (plan : Plan) (source : DataSource) {maxDepth size : Nat}
    (hdepth : plan.height ≤ maxDepth) (hsize : (plan.rows source).map Table.size = .ok size) :
    ∃ table, plan.execute source maxDepth = .ok table ∧ table.size = size := by
  cases hrows : plan.rows source with
  | error e =>
    rw [hrows] at hsize
    cases hsize
  | ok table =>
    rw [hrows] at hsize
    exact ⟨table, execute_ok.mpr ⟨hdepth, hrows⟩, Except.ok.inj hsize⟩

end RelationalQuery.Plan
