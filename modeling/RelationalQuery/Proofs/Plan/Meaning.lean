import RelationalQuery.Plan.Execution
import RelationalQuery.Proofs.Plan.Traversal
import RelationalQuery.Proofs.Table.Join

/-!
# The meaning of plans

The rows that a plan stands for, by recursion over the plan: which rows a join has follows from the
rows of its inputs alone, with no regard to how it is computed. Executing a plan gives exactly those
rows.
-/

set_option autoImplicit false

namespace RelationalQuery

def JoinCondition.Match (conditions : List JoinCondition) (left right : Record) : Prop :=
  ∀ c ∈ conditions, (left.get c.left == right.get c.right) = true

theorem JoinCondition.all_hold_iff (conditions : List JoinCondition) (left right : Record) :
    allHold conditions left right = true ↔ Match conditions left right := by
  simp [allHold, holds, Match]

def JoinMode.Means (conditions : List JoinCondition) (left right : Record → Prop) :
    JoinMode → Record → Prop
  | cartesian, row => ∃ l r, left l ∧ right r ∧ row = .join l r
  | inner, row => ∃ l r, left l ∧ right r ∧ JoinCondition.Match conditions l r ∧ row = .join l r
  | leftOuter, row =>
    (∃ l r, left l ∧ right r ∧ JoinCondition.Match conditions l r ∧ row = .join l r) ∨
      ∃ l, left l ∧ (∀ r, right r → ¬ JoinCondition.Match conditions l r) ∧ row = .leftOnly l

namespace Plan

def Means (source : DataSource) : Plan → Record → Prop
  | scan name, row => ∃ table, source name = some table ∧ row ∈ table.rows
  | join mode left right conditions, row =>
    mode.Means conditions (left.Means source) (right.Means source) row

end Plan

theorem JoinMode.mem_rows (mode : JoinMode) (left right : Table)
    (conditions : List JoinCondition) (row : Record) :
    row ∈ (mode.rows left right conditions).rows ↔
      mode.Means conditions (· ∈ left.rows) (· ∈ right.rows) row := by
  cases mode with
  | cartesian =>
    show row ∈ (left.crossJoin right).rows ↔ _
    rw [Table.mem_cross_join]
    simp only [Means, exists_and_left]
  | inner =>
    show row ∈ (left.innerJoin right _).rows ↔ _
    rw [Table.mem_inner_join]
    simp only [Means, JoinCondition.all_hold_iff, exists_and_left]
  | leftOuter =>
    show row ∈ (left.leftOuterJoin right _).rows ↔ _
    rw [Table.mem_left_outer_join]
    simp only [Means, ← Bool.not_eq_true, JoinCondition.all_hold_iff, exists_and_left]

namespace Plan

/-- A plan over tables that the source holds has the rows that it stands for. -/
theorem mem_rows {source : DataSource} {plan : Plan}
    (htables : ∀ name ∈ plan.tables, (source name).isSome = true) :
    ∃ table, plan.rows source = .ok table ∧ ∀ row, row ∈ table.rows ↔ plan.Means source row := by
  induction plan with
  | scan name =>
    rw [tables_scan] at htables
    obtain ⟨table, htable⟩ := Option.isSome_iff_exists.mp (htables name List.mem_cons_self)
    refine ⟨table, by simp only [rows, htable], ?_⟩
    intro row
    simp [Means, htable]
  | join mode left right conditions ihLeft ihRight =>
    rw [tables_join] at htables
    obtain ⟨leftTable, hleft, hleftRows⟩ :=
      ihLeft fun name hname => htables name (List.mem_append_left _ hname)
    obtain ⟨rightTable, hright, hrightRows⟩ :=
      ihRight fun name hname => htables name (List.mem_append_right _ hname)
    refine ⟨mode.rows leftTable rightTable conditions, by rw [rows, hleft, hright]; rfl, ?_⟩
    intro row
    have hleftMeans : (· ∈ leftTable.rows) = left.Means source := by
      ext l
      exact hleftRows l
    have hrightMeans : (· ∈ rightTable.rows) = right.Means source := by
      ext r
      exact hrightRows r
    rw [JoinMode.mem_rows, hleftMeans, hrightMeans, Means]

/-- A plan that is no deeper than the limit, over tables that the source holds, is executed, and
the result has exactly the rows that the plan stands for, with their aliases. -/
theorem execute_means (plan : Plan) (source : DataSource) (maxDepth : Nat)
    (hdepth : plan.depth ≤ maxDepth)
    (htables : ∀ name ∈ plan.tables, (source name).isSome = true) :
    ∃ table, plan.execute source maxDepth = .ok table ∧
      ∀ row, row ∈ table.rows ↔ plan.Means source row := by
  have hexecute : plan.execute source maxDepth = plan.rows source :=
    if_neg (Nat.not_lt.mpr hdepth)
  rw [hexecute]
  exact mem_rows htables

def numbers : Catalog :=
  ((∅ : Catalog).add "numbers" (Table.ofList
    [.ofPairs [("id", .integer 1)], .ofPairs [("id", .integer 2)]])).add "none" ∅

def outerChain : Plan :=
  .join .leftOuter (.join .leftOuter (.scan "numbers") (.scan "none") [⟨"id", "id"⟩])
    (.scan "numbers") [⟨"right.id", "id"⟩, ⟨"left.id", "id"⟩]

theorem execute_means_outer_chain : outerChain.depth ≤ 3 ∧
    ∃ table, outerChain.execute numbers.source 3 = .ok table ∧
      ∀ row, row ∈ table.rows ↔ outerChain.Means numbers.source row := by
  have hdepth : outerChain.depth ≤ 3 := by
    rw [depth_eq_height]
    decide
  have htables : ∀ name ∈ outerChain.tables, (numbers.source name).isSome = true := by
    simp [outerChain, tables_join, tables_scan, numbers, Catalog.source, Catalog.add]
  exact ⟨hdepth, execute_means outerChain numbers.source 3 hdepth htables⟩

end Plan
end RelationalQuery
