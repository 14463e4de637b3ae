import RelationalQuery.Proofs.Record.Aliases

/-!
# The order of values and of records

The order is total, and its ties are the equal values. Columns are compared one after another, so
what holds of a record follows from what holds of its names and of its values; scalars and records
never meet, as every scalar comes first. Since equal values differ in aliases alone, the order does
not depend on aliases.
-/

set_option autoImplicit false

namespace RelationalQuery

namespace Scalar

instance : Std.OrientedOrd Scalar where
  eq_swap {a b} := by
    show order a b = (order b a).swap
    cases a <;> cases b <;> simp only [order]
    case boolean.boolean => exact Std.OrientedOrd.eq_swap
    case integer.integer => exact Std.OrientedOrd.eq_swap
    case text.text => exact Std.OrientedOrd.eq_swap
    all_goals rfl

instance : Std.TransOrd Scalar where
  isLE_trans {a b c} := by
    show (order a b).isLE = true → (order b c).isLE = true → (order a c).isLE = true
    cases a <;> cases b <;> cases c <;> simp only [order]
    case boolean.boolean.boolean => exact Std.TransOrd.isLE_trans
    case integer.integer.integer => exact Std.TransOrd.isLE_trans
    case text.text.text => exact Std.TransOrd.isLE_trans
    all_goals simp [rank, Nat.isLE_compare]

instance : Std.LawfulEqOrd Scalar where
  eq_of_compare {a b} := by
    show order a b = .eq → a = b
    cases a <;> cases b <;> simp [order, rank]
  compare_self {a} := by
    show order a a = .eq
    cases a <;> simp [order]

end Scalar

def Composes (ab bc ac : Ordering) : Prop := ab.isLE = true → bc.isLE = true → ac = ab.then bc

namespace Composes

variable {ab bc ac ab' bc' ac' : Ordering}

theorem greater_first : Composes .gt bc ac := by simp [Composes]

theorem greater_second : Composes ab .gt ac := by simp [Composes]

theorem less_first : Composes .lt bc .lt := by simp [Composes]

theorem less_second : Composes ab .lt .lt := by
  cases ab <;> simp [Composes]

/-- Where two comparisons follow one another, those that compose do so together. -/
theorem lex (h : Composes ab bc ac) (h' : Composes ab' bc' ac') :
    Composes (ab.then ab') (bc.then bc') (ac.then ac') := by
  cases ab with
  | gt => exact greater_first
  | lt =>
    cases bc with
    | gt => exact greater_second
    | lt => rw [h rfl rfl]; exact less_first
    | eq => rw [h rfl rfl]; exact less_first
  | eq =>
    cases bc with
    | gt => exact greater_second
    | lt => rw [h rfl rfl]; exact less_second
    | eq => rw [h rfl rfl]; exact h'

theorem is_le (h : Composes ab bc ac) (hab : ab.isLE = true) (hbc : bc.isLE = true) :
    ac.isLE = true := by
  rw [h hab hbc, Ordering.isLE_then_iff_and]
  exact ⟨hab, Or.inr hbc⟩

end Composes

theorem composes_compare {α : Type} [Ord α] [Std.TransOrd α] (a b c : α) :
    Composes (compare a b) (compare b c) (compare a c) := by
  intro hab hbc
  cases h : compare a b with
  | lt => exact Std.TransCmp.lt_of_lt_of_isLE h hbc
  | eq => exact Std.TransCmp.congr_left h
  | gt => rw [h] at hab; contradiction

mutual

theorem Value.order_swap (a b : Value) : Value.order a b = (Value.order b a).swap := by
  match a, b with
  | .scalar a, .scalar b => exact Std.OrientedOrd.eq_swap
  | .record a, .record b => exact Record.order_swap a b
  | .scalar _, .record _ => rfl
  | .record _, .scalar _ => rfl

theorem Record.order_swap (a b : Record) : Record.order a b = (Record.order b a).swap := by
  match a, b with
  | ⟨columns, _⟩, ⟨columns', _⟩ => exact Record.order_columns_swap columns columns'

theorem Record.order_columns_swap {low low' : Option String} (d : Dictionary Value low)
    (e : Dictionary Value low') : Record.orderColumns d e = (Record.orderColumns e d).swap := by
  match d, e with
  | .nil, .nil => rfl
  | .nil, .cons .. => rfl
  | .cons .., .nil => rfl
  | .cons name _ value rest, .cons name' _ value' rest' =>
    simp only [Record.orderColumns, Ordering.swap_then]
    rw [Std.OrientedOrd.eq_swap (a := name), Value.order_swap value value',
      Record.order_columns_swap rest rest']

end

mutual

theorem Value.order_eq_iff (a b : Value) : Value.order a b = .eq ↔ Value.same a b = true := by
  match a, b with
  | .scalar a, .scalar b => simp [Value.order, Value.same]
  | .record a, .record b => exact Record.order_eq_iff a b
  | .scalar _, .record _ => simp [Value.order, Value.same]
  | .record _, .scalar _ => simp [Value.order, Value.same]

theorem Record.order_eq_iff (a b : Record) : Record.order a b = .eq ↔ Record.same a b = true := by
  match a, b with
  | ⟨columns, _⟩, ⟨columns', _⟩ => exact Record.order_columns_eq_iff columns columns'

theorem Record.order_columns_eq_iff {low low' : Option String} (d : Dictionary Value low)
    (e : Dictionary Value low') :
    Record.orderColumns d e = .eq ↔ Record.sameColumns d e = true := by
  match d, e with
  | .nil, .nil => simp [Record.orderColumns, Record.sameColumns]
  | .nil, .cons .. => simp [Record.orderColumns, Record.sameColumns]
  | .cons .., .nil => simp [Record.orderColumns, Record.sameColumns]
  | .cons name _ value rest, .cons name' _ value' rest' =>
    rw [Record.orderColumns, Record.sameColumns, Ordering.then_eq_eq, Ordering.then_eq_eq,
      Value.order_eq_iff value value', Record.order_columns_eq_iff rest rest']
    simp [and_assoc]

end

mutual

theorem Value.order_composes (a b c : Value) :
    Composes (Value.order a b) (Value.order b c) (Value.order a c) := by
  match a, b, c with
  | .scalar a, .scalar b, .scalar c => exact composes_compare a b c
  | .record a, .record b, .record c => exact Record.order_composes a b c
  | .scalar _, .scalar _, .record _ => exact Composes.less_second
  | .scalar _, .record _, .scalar _ => exact Composes.greater_second
  | .scalar _, .record _, .record _ => exact Composes.less_first
  | .record _, .scalar _, .scalar _ => exact Composes.greater_first
  | .record _, .scalar _, .record _ => exact Composes.greater_first
  | .record _, .record _, .scalar _ => exact Composes.greater_second

theorem Record.order_composes (a b c : Record) :
    Composes (Record.order a b) (Record.order b c) (Record.order a c) := by
  match a, b, c with
  | ⟨columns, _⟩, ⟨columns', _⟩, ⟨columns'', _⟩ =>
    exact Record.order_columns_composes columns columns' columns''

theorem Record.order_columns_composes {low low' low'' : Option String} (d : Dictionary Value low)
    (e : Dictionary Value low') (f : Dictionary Value low'') :
    Composes (Record.orderColumns d e) (Record.orderColumns e f) (Record.orderColumns d f) := by
  match d, e, f with
  | .nil, .nil, .nil => exact fun _ _ => rfl
  | .nil, .nil, .cons .. => exact Composes.less_second
  | .nil, .cons .., .nil => exact Composes.greater_second
  | .nil, .cons .., .cons .. => exact Composes.less_first
  | .cons .., .nil, .nil => exact Composes.greater_first
  | .cons .., .nil, .cons .. => exact Composes.greater_first
  | .cons .., .cons .., .nil => exact Composes.greater_second
  | .cons name _ value rest, .cons name' _ value' rest', .cons name'' _ value'' rest'' =>
    exact (composes_compare name name' name'').lex
      ((Value.order_composes value value' value'').lex
        (Record.order_columns_composes rest rest' rest''))

end

instance : Std.OrientedOrd Value where
  eq_swap := Value.order_swap _ _

instance : Std.TransOrd Value where
  isLE_trans hab hbc := (Value.order_composes _ _ _).is_le hab hbc

instance : Std.LawfulBEqOrd Value where
  compare_eq_iff_beq := Value.order_eq_iff _ _

instance : Std.OrientedOrd Record where
  eq_swap := Record.order_swap _ _

instance : Std.TransOrd Record where
  isLE_trans hab hbc := (Record.order_composes _ _ _).is_le hab hbc

instance : Std.LawfulBEqOrd Record where
  compare_eq_iff_beq := Record.order_eq_iff _ _

/-- Comparison puts all elements into one order, its ties are the equal elements, and these are the
elements that nothing but aliases tells apart. -/
structure OrderedUpToAliases {α : Type} [BEq α] [Ord α] (withoutAliases : α → α) : Prop where
  compare_swap (a b : α) : compare a b = (compare b a).swap
  compare_trans (a b c : α) :
    (compare a b).isLE = true → (compare b c).isLE = true → (compare a c).isLE = true
  compare_eq_iff (a b : α) : compare a b = .eq ↔ (a == b) = true
  beq_iff (a b : α) : (a == b) = true ↔ withoutAliases a = withoutAliases b
  compare_congr (a a' b b' : α) : withoutAliases a = withoutAliases a' →
    withoutAliases b = withoutAliases b' → compare a b = compare a' b'

theorem ordered_up_to_aliases {α : Type} [BEq α] [Ord α] [Std.TransOrd α] [Std.LawfulBEqOrd α]
    {withoutAliases : α → α}
    (h : ∀ a b : α, (a == b) = true ↔ withoutAliases a = withoutAliases b) :
    OrderedUpToAliases withoutAliases where
  compare_swap _ _ := Std.OrientedOrd.eq_swap
  compare_trans _ _ _ := Std.TransOrd.isLE_trans
  compare_eq_iff _ _ := Std.LawfulBEqOrd.compare_eq_iff_beq
  beq_iff := h
  compare_congr a a' b b' ha hb := by
    have hfirst : compare a a' = .eq := Std.LawfulBEqOrd.compare_eq_iff_beq.mpr ((h a a').mpr ha)
    have hsecond : compare b b' = .eq := Std.LawfulBEqOrd.compare_eq_iff_beq.mpr ((h b b').mpr hb)
    rw [Std.TransCmp.congr_left hfirst, Std.TransCmp.congr_right hsecond]

/-- Values and records of any depth stand in one total order, up to equality. The aliases of a
record, at the top or inside, decide neither about its place nor about what it equals. -/
theorem compare_ordered_up_to_aliases :
    OrderedUpToAliases Value.withoutAliases ∧ OrderedUpToAliases Record.withoutAliases :=
  ⟨ordered_up_to_aliases Value.beq_iff_without_aliases,
    ordered_up_to_aliases Record.beq_iff_without_aliases⟩

def numbered : Record :=
  (Record.ofPairs [("id", .integer 1)]).withAliases (Dictionary.ofList [("number", "id")])

theorem compare_ordered_up_to_aliases_numbered :
    (compare (Record.leftOnly (numbered.withAliases ∅)) (.leftOnly numbered)).isLE = true ∧
      (compare (Record.leftOnly numbered) (.join numbered numbered)).isLE = true ∧
      (compare (Record.leftOnly (numbered.withAliases ∅)) (.join numbered numbered)).isLE = true ∧
      (Record.leftOnly (numbered.withAliases ∅)).withoutAliases =
        (Record.leftOnly numbered).withoutAliases ∧
      compare (Record.leftOnly (numbered.withAliases ∅)) (.join numbered numbered) =
        compare (Record.leftOnly numbered) (.join numbered numbered) := by
  have hfirst : (compare (Record.leftOnly (numbered.withAliases ∅)) (.leftOnly numbered)).isLE =
    true := by decide +kernel
  have hsecond : (compare (Record.leftOnly numbered) (.join numbered numbered)).isLE = true := by
    decide +kernel
  have hcopy : (Record.leftOnly (numbered.withAliases ∅)).withoutAliases =
      (Record.leftOnly numbered).withoutAliases := by
    rw [Record.left_only_eq, Record.left_only_eq]
    rfl
  exact ⟨hfirst, hsecond, compare_ordered_up_to_aliases.2.compare_trans _ _ _ hfirst hsecond, hcopy,
    compare_ordered_up_to_aliases.2.compare_congr _ _ _ _ hcopy rfl⟩

end RelationalQuery
