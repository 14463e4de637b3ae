import RelationalQuery.Proofs.Record.Drafts
import RelationalQuery.Proofs.Table.Rows
import RelationalQuery.Table.Join

/-!
# The rows of joins

A left outer join is computed without looking for the rows that have no partner: it takes the left
parts of all matches away from the left rows. Here its rows are described by partners alone.
-/

set_option autoImplicit false

namespace RelationalQuery

namespace Record

theorem join_beq_left_only (l r l' : Record) : (join l r == leftOnly l') = false := by
  simp [join_eq, left_only_eq, beq_eq, sameColumns]

theorem get_left_join (l r : Record) : (join l r).get "left" = .record l :=
  get_column (aliases_join l r) (by decide) (find?_join_left l r)

theorem of_paths_left (value : Value) : ofPaths [("left", value)] = ofPairs [("left", value)] := by
  have hsegments : Path.segments "left" = ["left"] := Path.segments_eq_singleton (by decide)
  simp [of_paths_eq_write_all, writeAll, hsegments, write, ofPairs, Dictionary.ofList]

theorem projection_left_join (l r : Record) : (join l r).projection ["left"] = leftOnly l := by
  rw [projection, List.map_singleton, get_left_join, of_paths_left]
  rfl

end Record

namespace Table

variable (left right : Table) (test : Record → Record → Bool)

theorem mem_inner_join (row : Record) : row ∈ (left.innerJoin right test).rows ↔
    ∃ l ∈ left.rows, ∃ r ∈ right.rows, test l r = true ∧ row = .join l r := by
  simp only [innerJoin, joinedRows, List.mem_flatMap, List.mem_map, List.mem_filter]
  constructor
  · intro h
    obtain ⟨l, hl, r, ⟨hr, htest⟩, hrow⟩ := h
    exact ⟨l, hl, r, hr, htest, hrow.symm⟩
  · intro h
    obtain ⟨l, hl, r, hr, htest, hrow⟩ := h
    exact ⟨l, hl, r, ⟨hr, htest⟩, hrow.symm⟩

theorem mem_cross_join (row : Record) : row ∈ (left.crossJoin right).rows ↔
    ∃ l ∈ left.rows, ∃ r ∈ right.rows, row = .join l r := by
  simp [crossJoin, mem_inner_join]

/-- The left part of some match is the left row of that match, which has a partner. -/
theorem contains_matched_left {l : Record} (hl : l ∈ left.rows) :
    ((left.innerJoin right test).projection ["left"]).contains (.leftOnly l) = true ↔
      ∃ r ∈ right.rows, test l r = true := by
  rw [contains_projection]
  constructor
  · intro h
    obtain ⟨row, hrow, hsame⟩ := h
    obtain ⟨l', hl', r, hr, htest, hjoin⟩ := (mem_inner_join left right test row).mp hrow
    rw [hjoin, Record.projection_left_join, Record.left_only_beq] at hsame
    -- Equal rows of one table are one row, so the test is about `l` and not about a copy.
    rw [eq_of_mem_of_beq hl' hl hsame] at htest
    exact ⟨r, hr, htest⟩
  · intro h
    obtain ⟨r, hr, htest⟩ := h
    have hrow := (mem_inner_join left right test _).mpr ⟨l, hl, r, hr, htest, rfl⟩
    refine ⟨_, hrow, ?_⟩
    rw [Record.projection_left_join]
    exact BEq.rfl

theorem mem_unmatched_left (row : Record) : row ∈ (left.unmatchedLeft right test).rows ↔
    ∃ l ∈ left.rows, (∀ r ∈ right.rows, test l r = false) ∧ row = .leftOnly l := by
  have hpartner {l : Record} (hl : l ∈ left.rows) :
      ((left.innerJoin right test).projection ["left"]).contains (.leftOnly l) = false ↔
        ∀ r ∈ right.rows, test l r = false := by
    rw [← Bool.not_eq_true, contains_matched_left left right test hl]
    simp
  rw [unmatchedLeft, mem_difference]
  show row ∈ left.rows.map Record.leftOnly ∧ _ ↔ _
  rw [List.mem_map]
  constructor
  · intro h
    obtain ⟨⟨l, hl, hrow⟩, hnone⟩ := h
    rw [← hrow] at hnone
    exact ⟨l, hl, (hpartner hl).mp hnone, hrow.symm⟩
  · intro h
    obtain ⟨l, hl, hnone, hrow⟩ := h
    rw [hrow]
    exact ⟨⟨l, hl, rfl⟩, (hpartner hl).mpr hnone⟩

theorem inner_join_ne_unmatched_left : ∀ x ∈ (left.innerJoin right test).rows,
    ∀ y ∈ (left.unmatchedLeft right test).rows, (x == y) = false := by
  intro x hx y hy
  obtain ⟨l, _, r, _, _, hjoin⟩ := (mem_inner_join left right test x).mp hx
  obtain ⟨l', _, _, hleft⟩ := (mem_unmatched_left left right test y).mp hy
  rw [hjoin, hleft]
  exact Record.join_beq_left_only l r l'

theorem mem_left_outer_join (row : Record) : row ∈ (left.leftOuterJoin right test).rows ↔
    (∃ l ∈ left.rows, ∃ r ∈ right.rows, test l r = true ∧ row = .join l r) ∨
      ∃ l ∈ left.rows, (∀ r ∈ right.rows, test l r = false) ∧ row = .leftOnly l := by
  rw [leftOuterJoin, mem_union (inner_join_ne_unmatched_left left right test), mem_inner_join,
    mem_unmatched_left]

end Table
end RelationalQuery
