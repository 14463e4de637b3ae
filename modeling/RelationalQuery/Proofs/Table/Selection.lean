import RelationalQuery.Plan
import RelationalQuery.Proofs.Record.Projection
import RelationalQuery.Proofs.Table.OuterJoin

/-!
# Joins as selections

Selecting from all pairs of rows is joining the pairs whose joined row passes the test
(`select_cross_join`). So an inner join is a selection for every test that can be made on the joined
rows instead of the pairs. Any test can: a joined row still has both rows with their aliases as its
parts. A test of conditions can also look up the longer names `left.…` and `right.…`, provided that
the rows have no aliases, which are not used for names below `left` and `right`.
-/

set_option autoImplicit false

namespace RelationalQuery

namespace Record

/-- Below a column that holds a record, names lead to what is stored in that record. Its aliases
have no part in it. -/
theorem lookup?_below {row inner : Record} {column : String} (haliases : row.aliases = ∅)
    (hcolumn : '.' ∉ column.toList) (hfound : row.columns.find? column = some (.record inner))
    (name : String) : row.lookup? (column ++ "." ++ name) = inner.stored? (Path.segments name) := by
  rw [lookup?_of_aliases haliases, Path.segments_append, Path.segments_eq_singleton hcolumn,
    List.singleton_append, stored?_cons, hfound, Option.bind_some,
    Value.stored?_record (Path.segments_ne_nil name)]

theorem get_below {row inner : Record} {column : String} (haliases : row.aliases = ∅)
    (hcolumn : '.' ∉ column.toList) (hfound : row.columns.find? column = some (.record inner))
    (hinner : inner.aliases = ∅) (name : String) :
    row.get (column ++ "." ++ name) = inner.get name := by
  rw [get, get, lookup?_below haliases hcolumn hfound, lookup?_of_aliases hinner]

theorem get_join_left {l : Record} (hl : l.aliases = ∅) (r : Record) (name : String) :
    (join l r).get ("left." ++ name) = l.get name :=
  get_below (aliases_join l r) (by decide) (find?_join_left l r) hl name

theorem get_join_right (l : Record) {r : Record} (hr : r.aliases = ∅) (name : String) :
    (join l r).get ("right." ++ name) = r.get name :=
  get_below (aliases_join l r) (by decide) (find?_join_right l r) hr name

def parts? (row : Record) : Option (Record × Record) := do
  let left ← (row.get "left").record?
  let right ← (row.get "right").record?
  return (left, right)

theorem get_right_join (l r : Record) : (join l r).get "right" = .record r :=
  get_column (aliases_join l r) (by decide) (find?_join_right l r)

theorem parts?_join (l r : Record) : (join l r).parts? = some (l, r) := by
  rw [parts?, get_left_join, get_right_join]
  rfl

end Record

namespace Table

variable (left right : Table)

theorem inner_join_congr {test test' : Record → Record → Bool}
    (h : ∀ l ∈ left.rows, ∀ r ∈ right.rows, test l r = test' l r) :
    left.innerJoin right test = left.innerJoin right test' := by
  apply eq_of_rows
  show joinedRows left.rows right.rows test = joinedRows left.rows right.rows test'
  rw [joinedRows, joinedRows]
  apply List.flatMap_congr
  intro l hl
  rw [List.filter_congr (h l hl)]

/-- A test of joined rows can be made before the rows are joined. -/
theorem select_cross_join (test : Record → Bool) : (left.crossJoin right).select test =
    left.innerJoin right fun l r => test (.join l r) := by
  apply eq_of_rows
  show (joinedRows left.rows right.rows fun _ _ => true).filter test = joinedRows left.rows _ _
  rw [joinedRows, joinedRows, List.filter_flatMap]
  apply List.flatMap_congr
  intro l _
  rw [List.filter_true, List.filter_map]
  rfl

/-- Filling a table with the joined rows of all matches drops none of them. -/
theorem inner_join_eq_of_list (test : Record → Record → Bool) :
    left.innerJoin right test = ofList (joinedRows left.rows right.rows test) :=
  eq_of_rows (rows_of_list (joined_rows_distinct left right test)).symm

/-- For any test of pairs, whether it looks at aliases or not, an inner join selects from all pairs
those whose parts pass the test. The parts of the joined rows are the very rows that were joined,
each pair of them once. -/
theorem inner_join_eq_select_parts (test : Record → Record → Bool) :
    left.innerJoin right test = (left.crossJoin right).select
        (fun row => row.parts?.any fun parts => test parts.1 parts.2) ∧
      left.innerJoin right test = ofList (joinedRows left.rows right.rows test) ∧
      ((left.crossJoin right).rows.map Record.parts?).Perm
        ((left.rows ×ˢ right.rows).map some) ∧
      (left.crossJoin right).size = left.size * right.size := by
  refine ⟨?_, inner_join_eq_of_list left right test, ?_, size_cross_join left right⟩
  · rw [select_cross_join]
    apply inner_join_congr
    intro l _ r _
    rw [Record.parts?_join, Option.any_some]
  · rw [rows_cross_join, List.map_map]
    apply List.Perm.of_eq
    apply List.map_congr_left
    intro pair _
    exact Record.parts?_join pair.1 pair.2

/-- On rows without aliases, the conditions of an inner join can be looked up in the joined rows,
below `left` and below `right`. This is so whatever the names lead to, and also where they lead
nowhere. -/
theorem inner_join_eq_select_conditions (hleft : ∀ l ∈ left.rows, l.aliases = ∅)
    (hright : ∀ r ∈ right.rows, r.aliases = ∅) (conditions : List JoinCondition) :
    left.innerJoin right (JoinCondition.allHold conditions) =
      (left.crossJoin right).select fun row => conditions.all fun c =>
        row.get ("left." ++ c.left) == row.get ("right." ++ c.right) := by
  rw [select_cross_join]
  apply inner_join_congr
  intro l hl r hr
  simp only [Record.get_join_left (hleft l hl), Record.get_join_right l (hright r hr)]
  rfl

def employee (id : Int64) : Record :=
  (Record.ofPairs [("id", .integer id), ("name", .text "James Halpert")]).withAliases
    (Dictionary.ofList [("id", "name")])

def seated : Table := ofList [.join (employee 1) (employee 2), .leftOnly (employee 2)]

def chairs : Table :=
  ofList
    [.ofPairs [("id", .integer 1), ("of", .record (employee 2))], .ofPairs [("id", .integer 2)]]

def seatConditions : List JoinCondition :=
  [⟨"left.id", "id"⟩, ⟨"right", "of"⟩, ⟨"left.id.part", "missing"⟩, ⟨"", "..id"⟩]

theorem inner_join_eq_select_conditions_seated :
    (∀ l ∈ seated.rows, l.aliases = ∅) ∧ (∀ r ∈ chairs.rows, r.aliases = ∅) ∧
      seated.innerJoin chairs (JoinCondition.allHold seatConditions) =
        (seated.crossJoin chairs).select (fun row => seatConditions.all fun c =>
          row.get ("left." ++ c.left) == row.get ("right." ++ c.right)) ∧
      (seated.innerJoin chairs (JoinCondition.allHold seatConditions)).size = 2 := by
  have hleft : ∀ l ∈ seated.rows, l.aliases = ∅ := by
    intro l hl
    rcases List.mem_pair.mp (mem_of_mem_of_list hl) with rfl | rfl
    · exact Record.aliases_join _ _
    · rw [Record.left_only_eq]
  have hright : ∀ r ∈ chairs.rows, r.aliases = ∅ := by
    intro r hr
    rcases List.mem_pair.mp (mem_of_mem_of_list hr) with rfl | rfl
    · rfl
    · rfl
  exact ⟨hleft, hright, inner_join_eq_select_conditions seated chairs hleft hright seatConditions,
    by decide +kernel⟩

end Table
end RelationalQuery
