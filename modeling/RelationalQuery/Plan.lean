import RelationalQuery.Record

/-!
# Query plans

A plan is a tree of scans and joins. A scan reads a table by its name; a join combines the rows of
its two inputs under conditions that compare a column of the left row with one of the right row.
-/

set_option autoImplicit false

namespace RelationalQuery

inductive JoinMode
  | cartesian
  | inner
  | leftOuter
  deriving DecidableEq

structure JoinCondition where
  left : String
  right : String
  deriving DecidableEq

inductive Plan
  | scan (table : String)
  | join (mode : JoinMode) (left right : Plan) (conditions : List JoinCondition)
  deriving DecidableEq

namespace JoinCondition

def holds (c : JoinCondition) (left right : Record) : Bool := left.get c.left == right.get c.right

def allHold (conditions : List JoinCondition) (left right : Record) : Bool :=
  conditions.all fun c => c.holds left right

def display (c : JoinCondition) : String := c.left ++ " = " ++ c.right

end JoinCondition

def JoinMode.display : JoinMode → String
  | cartesian => "cartesian_join"
  | inner => "inner_join"
  | leftOuter => "left_outer_join"

namespace Plan

def inputs? : Plan → Option (Plan × Plan)
  | scan _ => none
  | join _ left right _ => some (left, right)

def displayNode : Plan → String
  | scan table => "Scan(table=\"" ++ table ++ "\")"
  | join mode left right conditions =>
    "Join(type=" ++ mode.display ++ ", left=" ++ left.displayNode ++ ", right=" ++
      right.displayNode ++ ", on=\"" ++
      String.intercalate " AND " (conditions.map JoinCondition.display) ++ "\")"

def display (plan : Plan) : String := "QueryPlan(node=" ++ plan.displayNode ++ ")"

end Plan
end RelationalQuery
