import RelationalQuery.Plan.Traversal

/-!
# Walks and recursion

The walks that find the depth and the tables of a plan agree with recursion over the plan. One lemma
for each walk says what it makes of its pending subtrees.
-/

set_option autoImplicit false

namespace RelationalQuery.Plan

def height : Plan → Nat
  | scan _ => 1
  | join _ left right _ => max left.height right.height + 1

def leaves : Plan → List String
  | scan table => [table]
  | join _ left right _ => left.leaves ++ right.leaves

theorem deepest_cons (plan : Plan) (level : Nat) (pending : List (Plan × Nat)) (best : Nat) :
    deepest ((plan, level) :: pending) best =
      deepest pending (max best (level + plan.height - 1)) := by
  induction plan generalizing level pending best with
  | scan table => rw [deepest, height, Nat.add_sub_cancel]
  | join mode left right conditions ihLeft ihRight =>
    rw [deepest, ihRight, ihLeft]
    congr 1
    simp only [height]
    omega

theorem depth_eq_height (plan : Plan) : plan.depth = plan.height := by
  rw [depth, deepest_cons, deepest]
  omega

theorem scanned_append (pending later : List Plan) :
    scanned (pending ++ later) = scanned pending ++ scanned later := by
  induction pending using scanned.induct with
  | case1 => simp [scanned]
  | case2 table pending ih => simp [scanned, ih]
  | case3 mode left right conditions pending ih =>
    rw [List.cons_append, scanned, scanned]
    exact ih

theorem tables_scan (table : String) : (scan table).tables = [table] := by
  simp [tables, scanned]

theorem tables_join (mode : JoinMode) (left right : Plan) (conditions : List JoinCondition) :
    (join mode left right conditions).tables = left.tables ++ right.tables := by
  rw [tables, scanned]
  exact scanned_append [left] [right]

theorem tables_eq_leaves (plan : Plan) : plan.tables = plan.leaves := by
  induction plan with
  | scan table => exact tables_scan table
  | join mode left right conditions ihLeft ihRight => rw [tables_join, ihLeft, ihRight, leaves]

/-- Both walks find what recursion over the plan finds. -/
theorem walks_eq_recursion (plan : Plan) :
    plan.depth = plan.height ∧ plan.tables = plan.leaves :=
  ⟨depth_eq_height plan, tables_eq_leaves plan⟩

end RelationalQuery.Plan
