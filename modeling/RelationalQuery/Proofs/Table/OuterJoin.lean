import Mathlib.Data.List.ProdSigma
import Mathlib.Data.Set.Card
import RelationalQuery.Proofs.Table.Join

/-!
# Counting the rows of joins

A left outer join has one row for each pair of rows that match and one for each left row without a
match. So its size is known from the two tables alone, and its left parts are all the left rows.
-/

set_option autoImplicit false

namespace RelationalQuery

namespace Record

theorem get_left_left_only (l : Record) : (leftOnly l).get "left" = .record l := by
  rw [left_only_eq]
  exact get_column rfl (by decide) rfl

theorem projection_left_left_only (l : Record) : (leftOnly l).projection ["left"] = leftOnly l := by
  rw [projection, List.map_singleton, get_left_left_only, of_paths_left]
  rfl

inductive HasLeft (l : Record) : Record → Prop
  | join (r : Record) : HasLeft l (join l r)
  | leftOnly : HasLeft l (leftOnly l)

theorem HasLeft.projection_left {l row : Record} (h : HasLeft l row) :
    row.projection ["left"] = Record.leftOnly l := by
  cases h with
  | join r => exact projection_left_join l r
  | leftOnly => exact projection_left_left_only l

end Record

namespace Table

theorem ncard_rows (t : Table) : {row | row ∈ t.rows}.ncard = t.size := by
  classical
  have hnodup : t.rows.Nodup := by
    refine t.distinct.imp ?_
    rintro a _ hne rfl
    rw [BEq.rfl] at hne
    contradiction
  rw [← List.coe_toFinset, Set.ncard_coe_finset, List.toFinset_card_of_nodup hnodup, size]

variable (left right : Table) (test : Record → Record → Bool)

def matchingPairs : List (Record × Record) :=
  (left.rows ×ˢ right.rows).filter fun pair => test pair.1 pair.2

def rowsWithoutMatch : List Record := left.rows.filter fun l => right.rows.all fun r => !test l r

theorem rows_inner_join : (left.innerJoin right test).rows =
    (left.matchingPairs right test).map fun pair => .join pair.1 pair.2 := by
  show joinedRows left.rows right.rows test = _
  rw [joinedRows, matchingPairs]
  induction left.rows with
  | nil => rfl
  | cons l rows ih =>
    rw [List.flatMap_cons, ih, List.product_cons, List.filter_append, List.map_append,
      List.filter_map, List.map_map]
    rfl

theorem rows_unmatched_left : (left.unmatchedLeft right test).rows =
    (left.rowsWithoutMatch right test).map .leftOnly := by
  show (left.rows.map Record.leftOnly).filter _ = _
  rw [List.filter_map, rowsWithoutMatch]
  congr 1
  apply List.filter_congr
  intro l hl
  rw [Function.comp_apply, Bool.not_eq_eq_eq_not, Bool.eq_iff_iff,
    contains_matched_left left right test hl]
  simp

theorem rows_cross_join : (left.crossJoin right).rows =
    (left.rows ×ˢ right.rows).map fun pair => .join pair.1 pair.2 := by
  have hall : left.matchingPairs right (fun _ _ => true) = left.rows ×ˢ right.rows :=
    List.filter_eq_self.mpr fun _ _ => rfl
  rw [crossJoin, rows_inner_join, hall]

theorem size_cross_join : (left.crossJoin right).size = left.size * right.size := by
  rw [size, rows_cross_join, List.length_map, List.length_product]
  rfl

/-- Every match and every left row without one has its own row. -/
theorem rows_left_outer_join_perm : (left.leftOuterJoin right test).rows.Perm
    ((left.matchingPairs right test).map (fun pair => .join pair.1 pair.2) ++
      (left.rowsWithoutMatch right test).map .leftOnly) := by
  rw [← rows_inner_join, ← rows_unmatched_left]
  exact rows_union_perm (inner_join_ne_unmatched_left left right test)

theorem size_left_outer_join : (left.leftOuterJoin right test).size =
    (left.matchingPairs right test).length + (left.rowsWithoutMatch right test).length := by
  rw [size, (rows_left_outer_join_perm left right test).length_eq, List.length_append,
    List.length_map, List.length_map]

theorem exists_left_of_mem {row : Record} (h : row ∈ (left.leftOuterJoin right test).rows) :
    ∃ l ∈ left.rows, Record.HasLeft l row := by
  rcases (mem_left_outer_join left right test row).mp h with
    ⟨l, hl, r, _, _, rfl⟩ | ⟨l, hl, _, rfl⟩
  · exact ⟨l, hl, .join r⟩
  · exact ⟨l, hl, .leftOnly⟩

/-- No left row is lost, whether it has a match or not. -/
theorem exists_row_of_left {l : Record} (hl : l ∈ left.rows) :
    ∃ row ∈ (left.leftOuterJoin right test).rows, Record.HasLeft l row := by
  by_cases hmatch : ∃ r ∈ right.rows, test l r = true
  · obtain ⟨r, hr, htest⟩ := hmatch
    exact ⟨.join l r, (mem_left_outer_join left right test _).mpr (.inl ⟨l, hl, r, hr, htest, rfl⟩),
      .join r⟩
  · have hnone : ∀ r ∈ right.rows, test l r = false := by simpa using hmatch
    exact ⟨.leftOnly l, (mem_left_outer_join left right test _).mpr (.inr ⟨l, hl, hnone, rfl⟩),
      .leftOnly⟩

theorem projection_left_outer_join : ((left.leftOuterJoin right test).projection ["left"] ==
    ofList (left.rows.map .leftOnly)) = true := by
  apply beq_of_contains
  intro x
  rw [contains_projection, contains_of_list]
  constructor
  · rintro ⟨row, hrow, hsame⟩
    obtain ⟨l, hl, hleft⟩ := exists_left_of_mem left right test hrow
    exact ⟨.leftOnly l, List.mem_map_of_mem hl, hleft.projection_left ▸ hsame⟩
  · rintro ⟨part, hpart, hsame⟩
    obtain ⟨l, hl, rfl⟩ := List.mem_map.mp hpart
    obtain ⟨row, hrow, hleft⟩ := exists_row_of_left left right test hl
    exact ⟨row, hrow, hleft.projection_left.symm ▸ hsame⟩

/-- A left outer join consists of the joined rows of all matches and of the left rows without a
match, which by themselves are what is unmatched. Each of them counts once, and the left parts of
all rows are the left rows. The test may look at aliases. -/
theorem left_outer_join_decomposes :
    (∀ row, row ∈ (left.leftOuterJoin right test).rows ↔
      (∃ l ∈ left.rows, ∃ r ∈ right.rows, test l r = true ∧ row = .join l r) ∨
        ∃ l ∈ left.rows, (∀ r ∈ right.rows, test l r = false) ∧ row = .leftOnly l) ∧
    (∀ row, row ∈ (left.unmatchedLeft right test).rows ↔
      ∃ l ∈ left.rows, (∀ r ∈ right.rows, test l r = false) ∧ row = .leftOnly l) ∧
    (left.leftOuterJoin right test).size =
      (left.matchingPairs right test).length + (left.rowsWithoutMatch right test).length ∧
    ((left.leftOuterJoin right test).projection ["left"] ==
      ofList (left.rows.map .leftOnly)) = true :=
  ⟨mem_left_outer_join left right test, mem_unmatched_left left right test,
    size_left_outer_join left right test, projection_left_outer_join left right test⟩

end Table
end RelationalQuery
