import RelationalQuery.Proofs.Plan.Execution
import RelationalQuery.Proofs.Plan.Meaning
import RelationalQuery.Proofs.Record.Projection
import RelationalQuery.Proofs.Table.OuterJoin

/-!
# Chains of left outer joins

A left outer join keeps its left rows under `left`. If all joins on the way from the root of a plan
to its leftmost scan are of this kind, each of them nests these rows one level deeper and loses
none. So at the end of the path through `left`, once for each join, stand the rows of the leftmost
table and nothing else, whatever the right inputs are.
-/

set_option autoImplicit false

namespace RelationalQuery

namespace Record

/-- What a row has under `left.left…left`, a name of so many segments. Without any segment it is the
row itself. -/
def leftPart (row : Record) : Nat → Value
  | 0 => .record row
  | depth + 1 => row.get (Path.dotted (List.replicate (depth + 1) "left"))

theorem segments_left_path (depth : Nat) :
    Path.segments (Path.dotted (List.replicate (depth + 1) "left")) =
      List.replicate (depth + 1) "left" := by
  apply Path.segments_dotted
  · simp
  · intro segment hsegment
    rw [List.eq_of_mem_replicate hsegment]
    decide

/-- Where no aliases stand in the way, the part is found by following the columns `left`. -/
theorem left_part_eq {row : Record} {depth : Nat} (h : depth ≠ 0 → row.aliases = ∅) :
    row.leftPart depth = .ofOption ((Value.record row).stored? (List.replicate depth "left")) := by
  cases depth with
  | zero => rfl
  | succ depth =>
    rw [leftPart, get, lookup?_of_aliases (h (Nat.succ_ne_zero depth)), segments_left_path,
      Value.stored?_record (by simp)]

theorem HasLeft.aliases_eq {l row : Record} (h : HasLeft l row) : row.aliases = ∅ := by
  cases h with
  | join r => exact aliases_join l r
  | leftOnly => rw [left_only_eq]

theorem HasLeft.stored?_left {l row : Record} (h : HasLeft l row) (path : List String) :
    (Value.record row).stored? ("left" :: path) = (Value.record l).stored? path := by
  have hleft : row.columns.find? "left" = some (.record l) := by
    cases h with
    | join r => exact find?_join_left l r
    | leftOnly => rw [left_only_eq]; rfl
  rw [Value.stored?_record (List.cons_ne_nil _ _), stored?_cons, hleft, Option.bind_some]

end Record

namespace Plan

def leftmost : Plan → String
  | scan name => name
  | join _ left _ _ => left.leftmost

def leftDepth : Plan → Nat
  | scan _ => 0
  | join _ left _ _ => left.leftDepth + 1

def LeftOuterChain : Plan → Prop
  | scan _ => True
  | join mode left _ _ => mode = .leftOuter ∧ left.LeftOuterChain

variable {source : DataSource} {plan : Plan} {table : Table}

theorem aliases_of_left_outer_chain (hplan : plan.LeftOuterChain) (h : plan.rows source = .ok table)
    (hdepth : plan.leftDepth ≠ 0) : ∀ row ∈ table.rows, row.aliases = ∅ := by
  cases plan with
  | scan name => exact absurd rfl hdepth
  | join mode left right conditions =>
    obtain ⟨leftTable, rightTable, _, _, hrows⟩ := rows_join_ok.mp h
    rw [hplan.1] at hrows
    intro row hrow
    rw [hrows] at hrow
    obtain ⟨l, _, hleft⟩ := Table.exists_left_of_mem leftTable rightTable _ hrow
    exact hleft.aliases_eq

/-- The columns `left` lead from each row to a row of the leftmost table, and to each of these from
some row. -/
theorem rows_of_left_outer_chain (hplan : plan.LeftOuterChain) (h : plan.rows source = .ok table) :
    ∃ base, source plan.leftmost = some base ∧
      (∀ row ∈ table.rows, ∃ l ∈ base.rows,
        (Value.record row).stored? (List.replicate plan.leftDepth "left") = some (.record l)) ∧
      ∀ l ∈ base.rows, ∃ row ∈ table.rows,
        (Value.record row).stored? (List.replicate plan.leftDepth "left") = some (.record l) := by
  induction plan generalizing table with
  | scan name =>
    exact ⟨table, rows_scan_ok.mp h, fun row hrow => ⟨row, hrow, rfl⟩, fun l hl => ⟨l, hl, rfl⟩⟩
  | join mode left right conditions ihLeft ihRight =>
    obtain ⟨leftTable, rightTable, hleft, _, hrows⟩ := rows_join_ok.mp h
    obtain ⟨base, hbase, hdown, hup⟩ := ihLeft hplan.2 hleft
    rw [hplan.1] at hrows
    rw [hrows]
    refine ⟨base, hbase, ?_, ?_⟩
    · intro row hrow
      obtain ⟨l, hl, hrowLeft⟩ := Table.exists_left_of_mem leftTable rightTable _ hrow
      obtain ⟨b, hb, hpath⟩ := hdown l hl
      exact ⟨b, hb, (hrowLeft.stored?_left _).trans hpath⟩
    · intro b hb
      obtain ⟨l, hl, hpath⟩ := hup b hb
      obtain ⟨row, hrow, hrowLeft⟩ := Table.exists_row_of_left leftTable rightTable _ hl
      exact ⟨row, hrow, (hrowLeft.stored?_left _).trans hpath⟩

/-- The left parts of all rows of a chain of left outer joins are the rows of the leftmost table, so
there are at least as many rows as in that table. -/
theorem execute_left_part (plan : Plan) (source : DataSource) (maxDepth : Nat) (table : Table)
    (hplan : plan.LeftOuterChain) (hexecute : plan.execute source maxDepth = .ok table) :
    ∃ base, source plan.leftmost = some base ∧
      (fun row => row.leftPart plan.leftDepth) '' {row | row ∈ table.rows} =
        Value.record '' {l | l ∈ base.rows} ∧
      base.size ≤ table.size := by
  obtain ⟨_, hrows⟩ := execute_ok.mp hexecute
  obtain ⟨base, hbase, hdown, hup⟩ := rows_of_left_outer_chain hplan hrows
  -- A name is looked up among the aliases first, but below a join the rows have none.
  have hpart {row l : Record} (hrow : row ∈ table.rows)
      (hpath : (Value.record row).stored? (List.replicate plan.leftDepth "left") =
        some (.record l)) : row.leftPart plan.leftDepth = .record l := by
    have haliases : plan.leftDepth ≠ 0 → row.aliases = ∅ :=
      fun hdepth => aliases_of_left_outer_chain hplan hrows hdepth row hrow
    rw [Record.left_part_eq haliases, hpath]
    rfl
  have himage : (fun row => row.leftPart plan.leftDepth) '' {row | row ∈ table.rows} =
      Value.record '' {l | l ∈ base.rows} := by
    ext value
    constructor
    · rintro ⟨row, hrow, rfl⟩
      obtain ⟨l, hl, hpath⟩ := hdown row hrow
      exact ⟨l, hl, (hpart hrow hpath).symm⟩
    · rintro ⟨l, hl, rfl⟩
      obtain ⟨row, hrow, hpath⟩ := hup l hl
      exact ⟨row, hrow, hpart hrow hpath⟩
  have hinjective : Function.Injective Value.record := fun _ _ h => Value.record.inj h
  have hsize : base.size ≤ table.size := by
    calc base.size
      _ = (Value.record '' {l | l ∈ base.rows}).ncard := by
        rw [Set.ncard_image_of_injective _ hinjective, Table.ncard_rows]
      _ = ((fun row => row.leftPart plan.leftDepth) '' {row | row ∈ table.rows}).ncard := by
        rw [himage]
      _ ≤ {row | row ∈ table.rows}.ncard := Set.ncard_image_le table.rows.finite_toSet
      _ = table.size := table.ncard_rows
  exact ⟨base, hbase, himage, hsize⟩

def partneredNumbers : Plan :=
  .join .leftOuter (.join .leftOuter (.scan "numbers") (.scan "none") [⟨"id", "id"⟩])
    (.join .inner (.scan "numbers") (.scan "numbers") []) [⟨"left.id", "left.id"⟩]

theorem execute_left_part_partnered_numbers :
    partneredNumbers.LeftOuterChain ∧
      ∃ table, partneredNumbers.execute numbers.source 3 = .ok table ∧ table.size = 4 ∧
        ∃ base, numbers.source "numbers" = some base ∧
          (fun row => row.leftPart 2) '' {row | row ∈ table.rows} =
            Value.record '' {l | l ∈ base.rows} ∧
          base.size ≤ table.size := by
  have hplan : partneredNumbers.LeftOuterChain := ⟨rfl, rfl, trivial⟩
  have hdepth : partneredNumbers.height ≤ 3 := by decide
  have hrows : (partneredNumbers.rows numbers.source).map Table.size = .ok 4 := by decide +kernel
  obtain ⟨table, hexecute, hsize⟩ := exists_execute partneredNumbers numbers.source hdepth hrows
  exact ⟨hplan, table, hexecute, hsize,
    execute_left_part partneredNumbers numbers.source 3 table hplan hexecute⟩

end Plan
end RelationalQuery
