import RelationalQuery.Proofs.Plan.Execution
import RelationalQuery.Proofs.Plan.Meaning

/-!
# When plans are refused

Execution reports the first problem that it meets. A plan that is too deep is refused before any
table is read, so what the source holds has no part in it. Any other plan fails with the first
missing table among those it scans, from left to right, and succeeds if none is missing.
-/

set_option autoImplicit false

namespace RelationalQuery.Plan

def firstMissing? (source : DataSource) (names : List String) : Option String :=
  names.find? fun name => (source name).isNone

variable {source : DataSource}

theorem first_missing?_append (names later : List String) :
    firstMissing? source (names ++ later) =
      (firstMissing? source names).or (firstMissing? source later) := by
  rw [firstMissing?, List.find?_append, firstMissing?, firstMissing?]

theorem first_missing?_eq_none {names : List String} :
    firstMissing? source names = none ↔ ∀ name ∈ names, (source name).isSome = true := by
  simp [firstMissing?, Option.isSome_iff_ne_none]

theorem rows_scan_error {name : String} {error : ExecutionError} :
    (scan name).rows source = .error error ↔
      source name = none ∧ error = .unknownTable name := by
  rw [rows]
  cases source name with
  | none => simp [eq_comm]
  | some table => simp

theorem rows_join_error {mode : JoinMode} {left right : Plan} {conditions : List JoinCondition}
    {error : ExecutionError} : (join mode left right conditions).rows source = .error error ↔
      left.rows source = .error error ∨
        (∃ table, left.rows source = .ok table) ∧ right.rows source = .error error := by
  rw [rows]
  cases left.rows source with
  | error found => simp [bind, Except.bind]
  | ok leftTable =>
    cases right.rows source with
    | error found => simp [bind, Except.bind]
    | ok rightTable => simp [bind, Except.bind, pure, Except.pure]

theorem exists_rows_iff {plan : Plan} :
    (∃ table, plan.rows source = .ok table) ↔ firstMissing? source plan.tables = none := by
  rw [first_missing?_eq_none]
  constructor
  · rintro ⟨table, hrows⟩
    exact is_some_of_rows_ok hrows
  · intro htables
    obtain ⟨table, hrows, _⟩ := mem_rows htables
    exact ⟨table, hrows⟩

/-- A plan of any depth fails with the first missing table and with nothing else. -/
theorem rows_error_iff {plan : Plan} {error : ExecutionError} :
    plan.rows source = .error error ↔
      ∃ name, firstMissing? source plan.tables = some name ∧ error = .unknownTable name := by
  induction plan with
  | scan table =>
    rw [rows_scan_error, tables_scan]
    cases hfound : source table with
    | none => simp [firstMissing?, hfound]
    | some found => simp [firstMissing?, hfound]
  | join mode left right conditions ihLeft ihRight =>
    rw [rows_join_error, ihLeft, ihRight, exists_rows_iff, tables_join, first_missing?_append]
    cases firstMissing? source left.tables with
    | none => simp
    | some name => simp

theorem execute_error_iff {plan : Plan} {maxDepth : Nat} {error : ExecutionError} :
    plan.execute source maxDepth = .error error ↔
      (maxDepth < plan.height ∧ error = .planTooDeep plan.height maxDepth) ∨
        (plan.height ≤ maxDepth ∧ plan.rows source = .error error) := by
  rw [execute, depth_eq_height]
  split
  · rename_i hdeep
    simp [hdeep, Nat.not_le.mpr hdeep, eq_comm]
  · rename_i hdepth
    simp [hdepth, Nat.not_lt.mp hdepth]

/-- A plan is refused for its depth exactly if it is higher than the limit, whatever the source
holds. A plan within the limit fails with a table exactly if this is the first missing one, and it
is executed exactly if none is missing. -/
theorem execute_reports_first (plan : Plan) (source : DataSource) (maxDepth : Nat) :
    (∀ depth limit, plan.execute source maxDepth = .error (.planTooDeep depth limit) ↔
      maxDepth < plan.height ∧ depth = plan.height ∧ limit = maxDepth) ∧
    (∀ name, plan.execute source maxDepth = .error (.unknownTable name) ↔
      plan.height ≤ maxDepth ∧ firstMissing? source plan.tables = some name) ∧
    ((∃ table, plan.execute source maxDepth = .ok table) ↔
      plan.height ≤ maxDepth ∧ firstMissing? source plan.tables = none) := by
  refine ⟨?_, ?_, ?_⟩
  · intro depth limit
    rw [execute_error_iff, rows_error_iff]
    simp
  · intro name
    rw [execute_error_iff, rows_error_iff]
    simp
  · simp only [execute_ok, exists_and_left, exists_rows_iff]

end RelationalQuery.Plan
