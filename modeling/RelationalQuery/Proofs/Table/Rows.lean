import Mathlib.Data.List.Pairwise
import RelationalQuery.Proofs.Record.Equality
import RelationalQuery.Table.Operators

/-!
# The rows of a table

Which rows a table holds after rows are added, projected, joined to those of another table or taken
away.
Membership in `rows` is about the very rows with their aliases; `contains` is about rows up to
equality.
-/

set_option autoImplicit false

namespace RelationalQuery.Table

theorem contains_iff {t : Table} {row : Record} :
    t.contains row = true ↔ ∃ r ∈ t.rows, (r == row) = true := by
  simp [contains]

theorem eq_of_rows {a b : Table} (h : a.rows = b.rows) : a = b := by
  cases a
  cases b
  congr

theorem eq_of_mem_of_beq {t : Table} {a b : Record} (ha : a ∈ t.rows) (hb : b ∈ t.rows)
    (hab : (a == b) = true) : a = b := by
  by_contra hne
  have hsymm : Std.Symm fun a b : Record => (a == b) = false := ⟨fun _ _ h => by rwa [BEq.comm]⟩
  have hfalse := t.distinct.forall ha hb hne
  rw [hab] at hfalse
  contradiction

theorem rows_insert {t : Table} {row : Record} (h : t.contains row = false) :
    (t.insert row).rows = t.rows ++ [row] := by
  simp [insert, h]

theorem contains_insert (t : Table) (row x : Record) :
    (t.insert row).contains x = true ↔ t.contains x = true ∨ (row == x) = true := by
  by_cases h : t.contains row = true
  · simp only [insert, h, dite_true]
    constructor
    · exact Or.inl
    · intro hx
      rcases hx with hx | hx
      · exact hx
      · obtain ⟨r, hr, hrow⟩ := contains_iff.mp h
        exact contains_iff.mpr ⟨r, hr, BEq.trans hrow hx⟩
  · rw [Bool.not_eq_true] at h
    simp [contains, rows_insert h]

theorem contains_extend (t : Table) (rows : List Record) (x : Record) :
    (t.extend rows).contains x = true ↔ t.contains x = true ∨ ∃ r ∈ rows, (r == x) = true := by
  induction rows generalizing t with
  | nil => simp [extend]
  | cons row rows ih =>
    show ((t.insert row).extend rows).contains x = true ↔ _
    rw [ih, contains_insert]
    simp [or_assoc]

theorem contains_of_list (rows : List Record) (x : Record) :
    (ofList rows).contains x = true ↔ ∃ r ∈ rows, (r == x) = true := by
  have hempty : (∅ : Table).contains x = false := rfl
  rw [ofList, contains_extend, hempty]
  simp

theorem mem_insert_of_mem {t : Table} {row : Record} (h : row ∈ t.rows) (added : Record) :
    row ∈ (t.insert added).rows := by
  by_cases hold : t.contains added = true
  · rwa [insert, dif_pos hold]
  · rw [Bool.not_eq_true] at hold
    rw [rows_insert hold]
    exact List.mem_append_left _ h

theorem mem_extend_of_mem {t : Table} {row : Record} (h : row ∈ t.rows) (added : List Record) :
    row ∈ (t.extend added).rows := by
  induction added generalizing t with
  | nil => exact h
  | cons next added ih => exact ih (mem_insert_of_mem h next)

theorem mem_of_mem_insert {t : Table} {row added : Record} (h : row ∈ (t.insert added).rows) :
    row ∈ t.rows ∨ row = added := by
  by_cases hold : t.contains added = true
  · rw [insert, dif_pos hold] at h
    exact .inl h
  · rw [Bool.not_eq_true] at hold
    rwa [rows_insert hold, List.mem_append, List.mem_singleton] at h

theorem mem_of_mem_extend {t : Table} {row : Record} {added : List Record}
    (h : row ∈ (t.extend added).rows) : row ∈ t.rows ∨ row ∈ added := by
  induction added generalizing t with
  | nil => exact .inl h
  | cons next added ih =>
    rw [List.mem_cons, ← or_assoc]
    exact (ih h).imp_left mem_of_mem_insert

theorem mem_of_mem_of_list {rows : List Record} {row : Record} (h : row ∈ (ofList rows).rows) :
    row ∈ rows :=
  (mem_of_mem_extend h).resolve_left List.not_mem_nil

theorem rows_extend {t : Table} {rows : List Record}
    (h : (t.rows ++ rows).Pairwise fun a b => (a == b) = false) :
    (t.extend rows).rows = t.rows ++ rows := by
  induction rows generalizing t with
  | nil => simp [extend]
  | cons row rows ih =>
    have hnew : t.contains row = false := by
      rw [← Bool.not_eq_true, contains_iff]
      intro hold
      obtain ⟨r, hr, hrow⟩ := hold
      have hfalse := (List.pairwise_append.mp h).2.2 r hr row List.mem_cons_self
      rw [hrow] at hfalse
      contradiction
    show ((t.insert row).extend rows).rows = _
    rw [ih, rows_insert hnew, List.append_assoc, List.singleton_append]
    rw [rows_insert hnew, List.append_assoc]
    exact h

theorem rows_of_list {rows : List Record} (h : rows.Pairwise fun a b => (a == b) = false) :
    (ofList rows).rows = rows := by
  have hempty : (∅ : Table).rows = [] := rfl
  rw [ofList, rows_extend, hempty, List.nil_append]
  rwa [hempty, List.nil_append]

theorem contains_projection (t : Table) (names : List String) (row : Record) :
    (t.projection names).contains row = true ↔
      ∃ r ∈ t.rows, (r.projection names == row) = true := by
  rw [projection, contains_of_list]
  simp only [List.mem_map, exists_exists_and_eq_and]

theorem mem_of_mem_projection {t : Table} {names : List String} {row : Record}
    (h : row ∈ (t.projection names).rows) : ∃ r ∈ t.rows, r.projection names = row :=
  List.mem_map.mp (mem_of_mem_of_list h)

/-- Tables without equal rows keep all their rows in a union. -/
theorem rows_union_perm {a b : Table} (h : ∀ x ∈ a.rows, ∀ y ∈ b.rows, (x == y) = false) :
    (a.union b).rows.Perm (a.rows ++ b.rows) := by
  by_cases hsize : a.size ≤ b.size
  · have hrows : (b.extend a.rows).rows = b.rows ++ a.rows := by
      apply rows_extend
      rw [List.pairwise_append]
      refine ⟨b.distinct, a.distinct, ?_⟩
      intro y hy x hx
      rw [BEq.comm]
      exact h x hx y hy
    rw [union, if_pos hsize, hrows]
    exact List.perm_append_comm
  · have hrows : (a.extend b.rows).rows = a.rows ++ b.rows :=
      rows_extend (List.pairwise_append.mpr ⟨a.distinct, b.distinct, h⟩)
    rw [union, if_neg hsize, hrows]

theorem mem_union {a b : Table} (h : ∀ x ∈ a.rows, ∀ y ∈ b.rows, (x == y) = false) (row : Record) :
    row ∈ (a.union b).rows ↔ row ∈ a.rows ∨ row ∈ b.rows := by
  rw [(rows_union_perm h).mem_iff, List.mem_append]

theorem mem_difference (a b : Table) (row : Record) :
    row ∈ (a.difference b).rows ↔ row ∈ a.rows ∧ b.contains row = false := by
  simp [difference, select]

/-- Different rows that all have an equal among some others are no more than those. -/
theorem length_le_of_equals {rows others : List Record}
    (hdistinct : rows.Pairwise fun a b => (a == b) = false)
    (h : ∀ a ∈ rows, ∃ b ∈ others, (b == a) = true) : rows.length ≤ others.length := by
  induction rows generalizing others with
  | nil => exact Nat.zero_le _
  | cons row rows ih =>
    obtain ⟨hrow, hrows⟩ := List.pairwise_cons.mp hdistinct
    obtain ⟨b, hb, hsame⟩ := h row List.mem_cons_self
    obtain ⟨before, after, rfl⟩ := List.append_of_mem hb
    have hother : ∀ a ∈ rows, ∃ c ∈ before ++ after, (c == a) = true := by
      intro a ha
      obtain ⟨c, hc, hca⟩ := h a (List.mem_cons_of_mem _ ha)
      rcases List.mem_append.mp hc with hc | hc
      · exact ⟨c, List.mem_append_left _ hc, hca⟩
      · rcases List.mem_cons.mp hc with rfl | hc
        · have hfalse := hrow a ha
          rw [BEq.trans (BEq.symm hsame) hca] at hfalse
          contradiction
        · exact ⟨c, List.mem_append_right _ hc, hca⟩
    have hlength := ih hrows hother
    simp only [List.length_append, List.length_cons] at hlength ⊢
    omega

/-- Different rows that are as many as some others, and all have an equal among them, leave none of
the others without an equal. -/
theorem exists_equal_of_length_le {rows others : List Record}
    (hdistinct : rows.Pairwise fun a b => (a == b) = false)
    (h : ∀ a ∈ rows, ∃ b ∈ others, (b == a) = true) (hlength : others.length ≤ rows.length)
    {other : Record} (hother : other ∈ others) : ∃ a ∈ rows, (a == other) = true := by
  by_contra hnone
  obtain ⟨before, after, rfl⟩ := List.append_of_mem hother
  have hfewer : rows.length ≤ (before ++ after).length := by
    apply length_le_of_equals hdistinct
    intro a ha
    obtain ⟨b, hb, hsame⟩ := h a ha
    have hne : b ≠ other := by
      intro heq
      exact hnone ⟨a, ha, BEq.symm (heq ▸ hsame)⟩
    simp only [List.mem_append, List.mem_cons, hne, false_or] at hb
    exact ⟨b, List.mem_append.mpr hb, hsame⟩
  simp only [List.length_append, List.length_cons] at hlength hfewer
  omega

theorem contains_of_mem {t : Table} {row : Record} (h : row ∈ t.rows) : t.contains row = true :=
  contains_iff.mpr ⟨row, h, BEq.rfl⟩

theorem beq_of_contains {a b : Table}
    (h : ∀ row, a.contains row = true ↔ b.contains row = true) : (a == b) = true := by
  have hle : a.size ≤ b.size :=
    length_le_of_equals a.distinct fun row hrow =>
      contains_iff.mp ((h row).mp (contains_of_mem hrow))
  have hge : b.size ≤ a.size :=
    length_le_of_equals b.distinct fun row hrow =>
      contains_iff.mp ((h row).mpr (contains_of_mem hrow))
  show (a.size == b.size && a.rows.all b.contains) = true
  rw [Bool.and_eq_true, beq_iff_eq, List.all_eq_true]
  exact ⟨Nat.le_antisymm hle hge, fun row hrow => (h row).mp (contains_of_mem hrow)⟩

theorem contains_of_forall {a b : Table} (h : ∀ x ∈ a.rows, b.contains x = true) {row : Record}
    (hrow : a.contains row = true) : b.contains row = true := by
  obtain ⟨x, hx, hsame⟩ := contains_iff.mp hrow
  obtain ⟨y, hy, hyx⟩ := contains_iff.mp (h x hx)
  exact contains_iff.mpr ⟨y, hy, BEq.trans hyx hsame⟩

/-- Equality looks for the rows of the first table alone; as the sizes agree, nothing is left over
in the second. -/
theorem contains_of_beq {a b : Table} (h : (a == b) = true) (row : Record) :
    a.contains row = true ↔ b.contains row = true := by
  have hparts : (a.size == b.size && a.rows.all b.contains) = true := h
  rw [Bool.and_eq_true, beq_iff_eq, List.all_eq_true] at hparts
  obtain ⟨hsize, hrows⟩ := hparts
  have hback : ∀ y ∈ b.rows, a.contains y = true := by
    intro y hy
    rw [contains_iff]
    exact exists_equal_of_length_le a.distinct (fun x hx => contains_iff.mp (hrows x hx))
      (Nat.le_of_eq hsize.symm) hy
  exact ⟨contains_of_forall hrows, contains_of_forall hback⟩

end RelationalQuery.Table
