/-!
# Select statements

The tree of a select statement. Names and operands are kept as they were written. A filter is
shown with parentheses around every connective, so that its text reads the same whatever stands
next to it.
-/

set_option autoImplicit false

namespace RelationalQuery

structure Condition where
  left : String
  operator : String
  right : String
  deriving DecidableEq

inductive Filter
  | condition (content : Condition)
  | and (left right : Filter)
  | or (left right : Filter)
  deriving DecidableEq

inductive JoinKind
  | leftOuter
  | inner
  | plain
  deriving DecidableEq

structure JoinClause where
  kind : JoinKind
  table : String
  on : Filter
  deriving DecidableEq

structure Statement where
  columns : List String
  tables : List String
  joins : List JoinClause
  condition? : Option Filter
  deriving DecidableEq

def Condition.display (c : Condition) : String := c.left ++ " " ++ c.operator ++ " " ++ c.right

namespace Filter

def conditions : Filter → List Condition
  | condition content => [content]
  | and left right => left.conditions ++ right.conditions
  | or left right => left.conditions ++ right.conditions

def depth : Filter → Nat
  | condition _ => 1
  | and left right => max left.depth right.depth + 1
  | or left right => max left.depth right.depth + 1

def display : Filter → String
  | condition content => content.display
  | and left right => "(" ++ left.display ++ " and " ++ right.display ++ ")"
  | or left right => "(" ++ left.display ++ " or " ++ right.display ++ ")"

end Filter

def JoinKind.display : JoinKind → String
  | leftOuter => "left outer join"
  | inner => "inner join"
  | plain => "join"

def JoinClause.display (j : JoinClause) : String :=
  j.kind.display ++ " " ++ j.table ++ " on " ++ j.on.display

def Statement.display (s : Statement) : String :=
  "select " ++ String.intercalate ", " s.columns ++ " from " ++ String.intercalate ", " s.tables ++
    String.join (s.joins.map fun j => " " ++ j.display) ++
    match s.condition? with
    | some filter => " where " ++ filter.display
    | none => ""

end RelationalQuery
