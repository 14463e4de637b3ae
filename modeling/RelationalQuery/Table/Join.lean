import RelationalQuery.Table.Operators

/-!
# Joins

A join of two tables has a row for each pair of rows that match, with the left row under `left`
and the right one under `right`. A left outer join also has a row for each left row that matches
no right row, with nothing under `right`.
-/

set_option autoImplicit false

namespace RelationalQuery.Table

def joinedRows (left right : List Record) (test : Record → Record → Bool) : List Record :=
  left.flatMap fun l => (right.filter (test l)).map (Record.join l)

theorem joined_rows_distinct (left right : Table) (test : Record → Record → Bool) :
    (joinedRows left.rows right.rows test).Pairwise fun a b => (a == b) = false := by
  rw [joinedRows, List.pairwise_flatMap]
  refine ⟨fun l _ => ?_, ?_⟩
  · rw [List.pairwise_map]
    exact (right.distinct.filter _).imp fun h => by simp [Record.join_beq, h]
  · refine left.distinct.imp fun h => ?_
    intro x hx y hy
    obtain ⟨_, _, rfl⟩ := List.mem_map.mp hx
    obtain ⟨_, _, rfl⟩ := List.mem_map.mp hy
    simp [Record.join_beq, h]

def innerJoin (left right : Table) (test : Record → Record → Bool) : Table :=
  ⟨joinedRows left.rows right.rows test, joined_rows_distinct left right test⟩

def crossJoin (left right : Table) : Table := left.innerJoin right fun _ _ => true

/-- The left rows without a match: all left rows, less the left parts of the inner join. -/
def unmatchedLeft (left right : Table) (test : Record → Record → Bool) : Table :=
  (left.mapRows Record.leftOnly Record.left_only_beq).difference
    ((left.innerJoin right test).projection ["left"])

def leftOuterJoin (left right : Table) (test : Record → Record → Bool) : Table :=
  (left.innerJoin right test).union (left.unmatchedLeft right test)

end RelationalQuery.Table
