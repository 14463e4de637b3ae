import RelationalQuery.Proofs.Plan.Execution
import RelationalQuery.Proofs.Plan.Meaning
import RelationalQuery.Proofs.Table.OuterJoin

/-!
# Plans and choices of rows

A plan without outer joins stands for the ways to choose one row for each of its scans. The rows of
a choice are nested along the plan, and the choice counts if the conditions of every inner join
hold of what is nested at its two inputs. Each choice that counts has one row of the result, and
each row comes from one choice.
-/

set_option autoImplicit false

namespace RelationalQuery

namespace Plan

def OuterFree : Plan → Prop
  | scan _ => True
  | join mode left right _ => mode ≠ .leftOuter ∧ left.OuterFree ∧ right.OuterFree

def Unconditional : Plan → Prop
  | scan _ => True
  | join mode left right conditions =>
    (mode = .inner → conditions = []) ∧ left.Unconditional ∧ right.Unconditional

def Chosen (source : DataSource) (choice : List Record) (names : List String) : Prop :=
  List.Forall₂ (fun row name => ∃ table, source name = some table ∧ row ∈ table.rows) choice names

def assemble : Plan → List Record → Record
  | scan _, choice => choice.headD ∅
  | join _ left right _, choice =>
    .join (left.assemble (choice.take left.tables.length))
      (right.assemble (choice.drop left.tables.length))

def ConditionsHold : Plan → List Record → Prop
  | scan _, _ => True
  | join mode left right conditions, choice =>
    left.ConditionsHold (choice.take left.tables.length) ∧
      right.ConditionsHold (choice.drop left.tables.length) ∧
        (mode = .inner → JoinCondition.Match conditions
          (left.assemble (choice.take left.tables.length))
          (right.assemble (choice.drop left.tables.length)))

def Valid (source : DataSource) (plan : Plan) (choice : List Record) : Prop :=
  Chosen source choice plan.tables ∧ plan.ConditionsHold choice

variable {source : DataSource}

theorem chosen_append {names later : List String} {choice : List Record} :
    Chosen source choice (names ++ later) ↔
      Chosen source (choice.take names.length) names ∧
        Chosen source (choice.drop names.length) later := by
  constructor
  · intro h
    exact ⟨List.forall₂_take_append _ _ _ h, List.forall₂_drop_append _ _ _ h⟩
  · rintro ⟨hleft, hright⟩
    have happend : Chosen source (choice.take names.length ++ choice.drop names.length)
        (names ++ later) := List.rel_append hleft hright
    rwa [List.take_append_drop] at happend

theorem chosen_scan {name : String} {choice : List Record} :
    Chosen source choice [name] ↔
      ∃ table row, source name = some table ∧ row ∈ table.rows ∧ choice = [row] := by
  simp only [Chosen, List.forall₂_cons_right_iff, List.forall₂_nil_right_iff]
  constructor
  · rintro ⟨row, _, ⟨table, htable, hrow⟩, rfl, rfl⟩
    exact ⟨table, row, htable, hrow, rfl⟩
  · rintro ⟨table, row, htable, hrow, rfl⟩
    exact ⟨row, [], ⟨table, htable, hrow⟩, rfl, rfl⟩

theorem valid_join {mode : JoinMode} {left right : Plan} {conditions : List JoinCondition}
    {choice : List Record} : (join mode left right conditions).Valid source choice ↔
      left.Valid source (choice.take left.tables.length) ∧
        right.Valid source (choice.drop left.tables.length) ∧
          (mode = .inner → JoinCondition.Match conditions
            (left.assemble (choice.take left.tables.length))
            (right.assemble (choice.drop left.tables.length))) := by
  rw [Valid, tables_join, chosen_append, ConditionsHold, Valid, Valid]
  tauto

theorem Valid.length_eq {plan : Plan} {choice : List Record} (h : plan.Valid source choice) :
    choice.length = plan.tables.length :=
  List.Forall₂.length_eq h.1

theorem means_join {mode : JoinMode} (hmode : mode ≠ .leftOuter) {left right : Plan}
    {conditions : List JoinCondition} {row : Record} :
    (join mode left right conditions).Means source row ↔
      ∃ l r, left.Means source l ∧ right.Means source r ∧
        (mode = .inner → JoinCondition.Match conditions l r) ∧ row = .join l r := by
  cases mode with
  | cartesian => simp [Means, JoinMode.Means]
  | inner => simp [Means, JoinMode.Means]
  | leftOuter => contradiction

/-- The rows of a plan are those that can be assembled. -/
theorem means_iff_assemble {plan : Plan} (houter : plan.OuterFree) {row : Record} :
    plan.Means source row ↔ ∃ choice, plan.Valid source choice ∧ plan.assemble choice = row := by
  induction plan generalizing row with
  | scan name =>
    simp only [Valid, ConditionsHold, tables_scan, chosen_scan, and_true]
    constructor
    · rintro ⟨table, htable, hrow⟩
      exact ⟨[row], ⟨table, row, htable, hrow, rfl⟩, rfl⟩
    · rintro ⟨_, ⟨table, row, htable, hrow, rfl⟩, rfl⟩
      exact ⟨table, htable, hrow⟩
  | join mode left right conditions ihLeft ihRight =>
    obtain ⟨hmode, hleft, hright⟩ := houter
    rw [means_join hmode]
    constructor
    · rintro ⟨l, r, hl, hr, hmatch, rfl⟩
      obtain ⟨a, ha, rfl⟩ := (ihLeft hleft).mp hl
      obtain ⟨b, hb, rfl⟩ := (ihRight hright).mp hr
      have htake : (a ++ b).take left.tables.length = a := List.take_left' ha.length_eq
      have hdrop : (a ++ b).drop left.tables.length = b := List.drop_left' ha.length_eq
      refine ⟨a ++ b, ?_, ?_⟩
      · rw [valid_join, htake, hdrop]
        exact ⟨ha, hb, hmatch⟩
      · rw [assemble, htake, hdrop]
    · rintro ⟨choice, hvalid, rfl⟩
      obtain ⟨ha, hb, hmatch⟩ := valid_join.mp hvalid
      exact ⟨_, _, (ihLeft hleft).mpr ⟨_, ha, rfl⟩, (ihRight hright).mpr ⟨_, hb, rfl⟩, hmatch, rfl⟩

/-- Equal records are assembled from the same choice. -/
theorem assemble_inj {plan : Plan} {a b : List Record} (ha : Chosen source a plan.tables)
    (hb : Chosen source b plan.tables) (h : (plan.assemble a == plan.assemble b) = true) :
    a = b := by
  induction plan generalizing a b with
  | scan name =>
    rw [tables_scan, chosen_scan] at ha hb
    obtain ⟨table, row, htable, hrow, rfl⟩ := ha
    obtain ⟨table', row', htable', hrow', rfl⟩ := hb
    cases htable.symm.trans htable'
    rw [Table.eq_of_mem_of_beq hrow hrow' h]
  | join mode left right conditions ihLeft ihRight =>
    rw [tables_join, chosen_append] at ha hb
    rw [assemble, assemble, Record.join_beq, Bool.and_eq_true] at h
    have hleft := ihLeft ha.1 hb.1 h.1
    have hright := ihRight ha.2 hb.2 h.2
    rw [← List.take_append_drop left.tables.length a, hleft, hright, List.take_append_drop]

theorem mem_iff_assemble {plan : Plan} (houter : plan.OuterFree) {table : Table}
    (h : plan.rows source = .ok table) {row : Record} :
    row ∈ table.rows ↔ ∃ choice, plan.Valid source choice ∧ plan.assemble choice = row := by
  obtain ⟨table', hrows, hmem⟩ := mem_rows (is_some_of_rows_ok h)
  cases h.symm.trans hrows
  rw [hmem, means_iff_assemble houter]

theorem assemble_bij_on {plan : Plan} (houter : plan.OuterFree) {table : Table}
    (h : plan.rows source = .ok table) :
    Set.BijOn plan.assemble {choice | plan.Valid source choice} {row | row ∈ table.rows} := by
  refine ⟨?_, ?_, ?_⟩
  · intro choice hchoice
    exact (mem_iff_assemble houter h).mpr ⟨choice, hchoice, rfl⟩
  · intro a ha b hb hab
    exact assemble_inj ha.1 hb.1 (hab ▸ BEq.rfl)
  · intro row hrow
    exact (mem_iff_assemble houter h).mp hrow

theorem size_of_unconditional {plan : Plan} (houter : plan.OuterFree)
    (hconditions : plan.Unconditional) {table : Table} (h : plan.rows source = .ok table) :
    table.size = ((plan.tables.filterMap source).map Table.size).prod := by
  induction plan generalizing table with
  | scan name =>
    rw [tables_scan]
    simp [rows_scan_ok.mp h]
  | join mode left right conditions ihLeft ihRight =>
    obtain ⟨hmode, hleft, hright⟩ := houter
    obtain ⟨hinner, hleftConditions, hrightConditions⟩ := hconditions
    obtain ⟨leftTable, rightTable, hleftRows, hrightRows, rfl⟩ := rows_join_ok.mp h
    have hcross : mode.rows leftTable rightTable conditions = leftTable.crossJoin rightTable := by
      cases mode with
      | cartesian => rfl
      | inner =>
        rw [hinner rfl]
        rfl
      | leftOuter => contradiction
    rw [hcross, Table.size_cross_join, ihLeft hleft hleftConditions hleftRows,
      ihRight hright hrightConditions hrightRows, tables_join, List.filterMap_append,
      List.map_append, List.prod_append]

/-- A plan without outer joins has one row for each choice of rows that counts, assembled from it.
Equal rows come from the same choice. So the result has as many rows as there are choices, and
without conditions their number is the product of the sizes of the scanned tables. -/
theorem execute_enumerates (plan : Plan) (source : DataSource) (maxDepth : Nat) (table : Table)
    (houter : plan.OuterFree) (hexecute : plan.execute source maxDepth = .ok table) :
    Set.BijOn plan.assemble {choice | plan.Valid source choice} {row | row ∈ table.rows} ∧
      (∀ a b, plan.Valid source a → plan.Valid source b →
        (plan.assemble a == plan.assemble b) = true → a = b) ∧
      table.size = {choice | plan.Valid source choice}.ncard ∧
      (plan.Unconditional →
        table.size = ((plan.tables.filterMap source).map Table.size).prod) := by
  obtain ⟨_, hrows⟩ := execute_ok.mp hexecute
  have hbij := assemble_bij_on houter hrows
  refine ⟨hbij, ?_, ?_, ?_⟩
  · intro a b ha hb h
    exact assemble_inj ha.1 hb.1 h
  · rw [hbij.ncard_eq, Table.ncard_rows]
  · intro hconditions
    exact size_of_unconditional houter hconditions hrows

def selfJoins : Plan :=
  .join .inner (.join .cartesian (.scan "numbers") (.scan "numbers") [⟨"id", "id"⟩])
    (.scan "numbers") [⟨"left.id", "id"⟩]

def triples : Plan :=
  .join .inner (.join .cartesian (.scan "numbers") (.scan "numbers") [⟨"id", "id"⟩])
    (.scan "numbers") []

theorem execute_enumerates_self_joins :
    (selfJoins.OuterFree ∧ ∃ table, selfJoins.execute numbers.source 3 = .ok table ∧
      Set.BijOn selfJoins.assemble {choice | selfJoins.Valid numbers.source choice}
        {row | row ∈ table.rows} ∧
      {choice | selfJoins.Valid numbers.source choice}.ncard = 4) ∧
    (triples.OuterFree ∧ triples.Unconditional ∧
      ∃ table, triples.execute numbers.source 3 = .ok table ∧ table.size = 8 ∧
        table.size = ((triples.tables.filterMap numbers.source).map Table.size).prod) := by
  constructor
  · have houter : selfJoins.OuterFree := ⟨by decide, ⟨by decide, trivial, trivial⟩, trivial⟩
    have hdepth : selfJoins.height ≤ 3 := by decide
    have hrows : (selfJoins.rows numbers.source).map Table.size = .ok 4 := by decide +kernel
    obtain ⟨table, hexecute, hsize⟩ :=
      exists_execute selfJoins numbers.source hdepth hrows
    obtain ⟨hbij, _, hncard, _⟩ :=
      execute_enumerates selfJoins numbers.source 3 table houter hexecute
    exact ⟨houter, table, hexecute, hbij, hncard.symm.trans hsize⟩
  · have houter : triples.OuterFree := ⟨by decide, ⟨by decide, trivial, trivial⟩, trivial⟩
    have hdepth : triples.height ≤ 3 := by decide
    have hrows : (triples.rows numbers.source).map Table.size = .ok 8 := by decide +kernel
    have hconditions : triples.Unconditional :=
      ⟨by decide, ⟨by decide, trivial, trivial⟩, trivial⟩
    obtain ⟨table, hexecute, hsize⟩ :=
      exists_execute triples numbers.source hdepth hrows
    obtain ⟨_, _, _, hproduct⟩ := execute_enumerates triples numbers.source 3 table houter hexecute
    exact ⟨houter, hconditions, table, hexecute, hsize, hproduct hconditions⟩

end Plan
end RelationalQuery
