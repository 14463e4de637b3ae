import RelationalQuery.Proofs.Record.Order
import RelationalQuery.Proofs.Sorting
import RelationalQuery.Proofs.Table.Rows
import RelationalQuery.Table.Ordering

/-!
# Ordered rows

The rows of a table differ, so in the order of records each stands strictly before the next. A
stable sort by any comparison that ranks all records keeps this order in ties, and then there is
only one list that the rows can form (`arranges_iff_eq_order_by`), whatever the order in which the
table holds them. Ordering by a further key before the other ones is the same as sorting the ordered
rows once more, by that key alone (`order_by_columns_successive`).
-/

set_option autoImplicit false

namespace RelationalQuery

namespace Record

def compareKey (name : String) (direction : Direction) (a b : Record) : Ordering :=
  direction.apply (compare (a.get name) (b.get name))

instance (name : String) (direction : Direction) : Std.TransCmp (compareKey name direction) := by
  cases direction with
  | ascending => exact inferInstanceAs (Std.TransCmp (compareOn (get · name)))
  | descending =>
    have hswap : compareKey name .descending = fun a b => compareOn (get · name) b a := by
      funext a b
      exact Std.OrientedOrd.eq_swap.symm
    rw [hswap]
    exact Std.TransCmp.opposite

theorem compare_by_cons (name : String) (direction : Direction)
    (keys : List (String × Direction)) : compareBy ((name, direction) :: keys) =
      compareLex (compareKey name direction) (compareBy keys) := rfl

instance trans_cmp_compare_by (keys : List (String × Direction)) :
    Std.TransCmp (compareBy keys) := by
  induction keys with
  | nil => exact { eq_swap := rfl, isLE_trans := fun _ _ => rfl }
  | cons key keys ih =>
    rw [compare_by_cons]
    infer_instance

end Record

namespace Table

theorem sorted_rows_perm (t : Table) : t.sortedRows.Perm t.rows := List.mergeSort_perm _ _

theorem distinct_of_perm {t : Table} {list : List Record} (h : list.Perm t.rows) :
    list.Pairwise fun a b => (a == b) = false :=
  h.symm.pairwise t.distinct fun hab => by rwa [BEq.comm]

theorem ascending_of_perm {t : Table} {list : List Record} (h : list.Perm t.rows)
    (hsorted : list.Pairwise fun a b => (compare a b).isLE = true) :
    list.Pairwise fun a b => compare a b = .lt := by
  refine hsorted.imp₂ (fun a b hle hne => ?_) (distinct_of_perm h)
  rcases Ordering.isLE_iff_eq_lt_or_eq_eq.mp hle with hlt | heq
  · exact hlt
  · rw [Std.LawfulBEqOrd.compare_eq_iff_beq.mp heq] at hne
    contradiction

theorem ascending_sorted_rows (t : Table) : t.sortedRows.Pairwise fun a b => compare a b = .lt :=
  ascending_of_perm t.sorted_rows_perm (pairwise_merge_sort_is_le t.rows)

/-- A list has each row of a table once, ranks them by a comparison, and has those that the
comparison calls equal in the order of records. -/
structure Arranges (order : Record → Record → Ordering) (t : Table) (list : List Record) :
    Prop where
  perm : list.Perm t.rows
  distinct : list.Pairwise fun a b => (a == b) = false
  ranked : list.Pairwise fun a b => (order a b).isLE = true
  ties : list.Pairwise fun a b => order a b = .eq → compare a b = .lt

variable {order : Record → Record → Ordering} {t : Table} {list : List Record}

theorem Arranges.ascending (h : Arranges order t list) :
    list.Pairwise fun a b => compareLex order compare a b = .lt := by
  refine h.ranked.imp₂ (fun a b hle htie => ?_) h.ties
  rw [compareLex, Ordering.then_eq_lt]
  rcases Ordering.isLE_iff_eq_lt_or_eq_eq.mp hle with hlt | heq
  · exact .inl hlt
  · exact .inr ⟨heq, htie heq⟩

theorem order_by_perm (t : Table) (order : Record → Record → Ordering) :
    (t.orderBy order).Perm t.rows :=
  (List.mergeSort_perm _ _).trans t.sorted_rows_perm

variable [Std.TransCmp order]

theorem ascending_order_by (t : Table) :
    (t.orderBy order).Pairwise fun a b => compareLex order compare a b = .lt :=
  pairwise_merge_sort_lex t.ascending_sorted_rows

theorem arranges_order_by (t : Table) : Arranges order t (t.orderBy order) where
  perm := t.order_by_perm order
  distinct := distinct_of_perm (t.order_by_perm order)
  ranked := pairwise_merge_sort_is_le t.sortedRows
  ties := by
    refine t.ascending_order_by.imp fun {a b} hlt heq => ?_
    rw [compareLex, heq] at hlt
    exact hlt

theorem eq_order_by (hperm : list.Perm t.rows)
    (h : list.Pairwise fun a b => compareLex order compare a b = .lt) : list = t.orderBy order :=
  eq_of_ascending (hperm.trans (t.order_by_perm order).symm) h t.ascending_order_by

/-- It does not matter in which way the rows are put into the order of records at first. -/
theorem merge_sort_eq_order_by (hperm : list.Perm t.rows)
    (hsorted : list.Pairwise fun a b => (compare a b).isLE = true) :
    (list.mergeSort fun a b => (order a b).isLE) = t.orderBy order :=
  eq_order_by ((List.mergeSort_perm _ _).trans hperm)
    (pairwise_merge_sort_lex (ascending_of_perm hperm hsorted))

/-- There is one list that arranges the rows of a table, and ordering gives it. It is the same for
every table that holds these rows, in whatever order. -/
theorem arranges_iff_eq_order_by (t : Table) (order : Record → Record → Ordering)
    [Std.TransCmp order] :
    (∀ list, Arranges order t list ↔ list = t.orderBy order) ∧
      ∀ other : Table, other.rows.Perm t.rows → other.orderBy order = t.orderBy order := by
  refine ⟨fun list => ⟨fun h => eq_order_by h.perm h.ascending, ?_⟩, ?_⟩
  · rintro rfl
    exact t.arranges_order_by
  · intro other hrows
    exact merge_sort_eq_order_by (other.sorted_rows_perm.trans hrows)
      (pairwise_merge_sort_is_le other.rows)

def plainRow (number : Int64) : Record := .ofPairs [("id", .integer number)]

def notedRow (number : Int64) : Record := .ofPairs [("id", .integer number), ("a", .text "note")]

theorem arranges_iff_eq_order_by_size :
    Std.TransCmp (compareOn Record.size) ∧
      (ofList [plainRow 2, notedRow 1, plainRow 1]).rows.Perm
        (ofList [notedRow 1, plainRow 1, plainRow 2]).rows ∧
      (ofList [notedRow 1, plainRow 1, plainRow 2]).orderBy (compareOn Record.size) =
        [plainRow 1, plainRow 2, notedRow 1] ∧
      (ofList [plainRow 2, notedRow 1, plainRow 1]).orderBy (compareOn Record.size) =
        (ofList [notedRow 1, plainRow 1, plainRow 2]).orderBy (compareOn Record.size) := by
  have hfirst : (ofList [notedRow 1, plainRow 1, plainRow 2]).rows =
      [notedRow 1, plainRow 1, plainRow 2] := rfl
  have hsecond : (ofList [plainRow 2, notedRow 1, plainRow 1]).rows =
      [plainRow 2, notedRow 1, plainRow 1] := rfl
  have hperm : (ofList [plainRow 2, notedRow 1, plainRow 1]).rows.Perm
      (ofList [notedRow 1, plainRow 1, plainRow 2]).rows := by
    rw [hfirst, hsecond]
    exact (List.perm_append_singleton (plainRow 2) [notedRow 1, plainRow 1]).symm
  have hdetermined := arranges_iff_eq_order_by (ofList [notedRow 1, plainRow 1, plainRow 2])
    (compareOn Record.size)
  refine ⟨inferInstance, hperm, ((hdetermined.1 _).mp ?_).symm, hdetermined.2 _ hperm⟩
  refine ⟨?_, by decide +kernel, by decide +kernel, by decide +kernel⟩
  rw [hfirst]
  exact List.perm_append_singleton (notedRow 1) [plainRow 1, plainRow 2]

def keyLE (name : String) : Direction → Record → Record → Bool
  | .ascending, a, b => (compare (a.get name) (b.get name)).isLE
  | .descending, a, b => (compare (b.get name) (a.get name)).isLE

theorem key_le_eq (name : String) (direction : Direction) :
    keyLE name direction = fun a b => (Record.compareKey name direction a b).isLE := by
  funext a b
  cases direction with
  | ascending => rfl
  | descending =>
    show (compare (b.get name) (a.get name)).isLE = (compare (a.get name) (b.get name)).swap.isLE
    rw [Std.OrientedOrd.eq_swap (a := b.get name)]

/-- Comparison by any keys ranks all records. To order rows by a key and then by further ones is to
order them by the further ones and then to sort the list by that key alone, and without keys the
rows stand in the order of records. -/
theorem order_by_columns_successive :
    (∀ keys, Std.TransCmp (Record.compareBy keys)) ∧
      (∀ (t : Table) (name : String) (direction : Direction) (keys : List (String × Direction)),
        t.orderByColumns ((name, direction) :: keys) =
          (t.orderByColumns keys).mergeSort (keyLE name direction)) ∧
      ∀ t : Table, (t.orderByColumns []).Perm t.rows ∧
        (t.orderByColumns []).Pairwise fun a b => compare a b = .lt := by
  refine ⟨Record.trans_cmp_compare_by, fun t name direction keys => ?_, fun t => ⟨?_, ?_⟩⟩
  · have hascending : ((t.orderByColumns keys).mergeSort (keyLE name direction)).Pairwise
        fun a b => compareLex (Record.compareKey name direction)
          (compareLex (Record.compareBy keys) compare) a b = .lt := by
      rw [key_le_eq]
      exact pairwise_merge_sort_lex t.ascending_order_by
    rw [orderByColumns, Record.compare_by_cons]
    refine (eq_order_by ((List.mergeSort_perm _ _).trans (t.order_by_perm _)) ?_).symm
    refine hascending.imp fun {a b} h => ?_
    rwa [compareLex, compareLex, Ordering.then_assoc]
  · exact t.order_by_perm _
  · have hascending : (t.orderBy (Record.compareBy [])).Pairwise
        fun a b => compareLex (Record.compareBy []) compare a b = .lt := t.ascending_order_by
    exact hascending

end Table
end RelationalQuery
