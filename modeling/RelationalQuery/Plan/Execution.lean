import RelationalQuery.Plan.Traversal
import RelationalQuery.Table.Join

/-!
# Executing plans

A plan is executed against a source of tables. A plan deeper than a limit is refused before any
table is read; then the first scanned table that the source does not hold is an error.
-/

set_option autoImplicit false

namespace RelationalQuery

abbrev DataSource := String → Option Table

structure Catalog where
  tables : Dictionary Table

namespace Catalog

instance : EmptyCollection Catalog := ⟨⟨∅⟩⟩

def add (c : Catalog) (name : String) (table : Table) : Catalog := ⟨c.tables.insert name table⟩

def size (c : Catalog) : Nat := c.tables.size

def isEmpty (c : Catalog) : Bool := c.tables.isEmpty

def source (c : Catalog) : DataSource := c.tables.find?

end Catalog

inductive ExecutionError
  | unknownTable (name : String)
  | planTooDeep (depth limit : Nat)
  deriving DecidableEq

def ExecutionError.message : ExecutionError → String
  | unknownTable name => "unknown table: " ++ name
  | planTooDeep depth limit =>
    "plan depth " ++ toString depth ++ " exceeds the limit of " ++ toString limit

def JoinMode.rows (mode : JoinMode) (left right : Table) (conditions : List JoinCondition) :
    Table :=
  match mode with
  | cartesian => left.crossJoin right
  | inner => left.innerJoin right (JoinCondition.allHold conditions)
  | leftOuter => left.leftOuterJoin right (JoinCondition.allHold conditions)

namespace Plan

def rows (source : DataSource) : Plan → Except ExecutionError Table
  | scan name =>
    match source name with
    | some table => .ok table
    | none => .error (.unknownTable name)
  | join mode left right conditions => do
    let leftRows ← left.rows source
    let rightRows ← right.rows source
    return mode.rows leftRows rightRows conditions

def defaultMaxDepth : Nat := 64

def execute (plan : Plan) (source : DataSource) (maxDepth : Nat) : Except ExecutionError Table :=
  if plan.depth > maxDepth then .error (.planTooDeep plan.depth maxDepth) else plan.rows source

end Plan
end RelationalQuery
