import RelationalQuery.Proofs.Record.Aliases
import RelationalQuery.Proofs.Record.Leaves

/-!
# Equality by places

Values are equal exactly if the same stands at every place inside them: the same scalar, a record in
both, or nothing in either. In contrast to equality by scalars this takes in records without
columns. So what is known about places is known up to equality.
-/

set_option autoImplicit false

namespace RelationalQuery

theorem Value.node_without_aliases (value : Value) : value.withoutAliases.node = value.node := by
  cases value <;> rfl

theorem Record.node?_without_aliases (r : Record) (path : List String) :
    r.withoutAliases.node? path = r.node? path := by
  rw [node?, stored?_without_aliases, Option.map_map, node?]
  congr 1
  funext value
  exact value.node_without_aliases

theorem Value.node?_without_aliases (value : Value) (path : List String) :
    value.withoutAliases.node? path = value.node? path := by
  by_cases hpath : path = []
  · rw [hpath, node?_nil, node?_nil, node_without_aliases]
  · cases value with
    | scalar content => rfl
    | record content =>
      rw [withoutAliases, node?_record hpath, node?_record hpath, Record.node?_without_aliases]

mutual

theorem Value.beq_of_node? (v w : Value) (h : ∀ path, v.node? path = w.node? path) :
    (v == w) = true := by
  have htop := h []
  rw [Value.node?_nil, Value.node?_nil, Option.some.injEq] at htop
  match v, w with
  | .scalar a, .scalar b =>
    cases htop
    exact BEq.rfl
  | .scalar _, .record _ => cases htop
  | .record _, .scalar _ => cases htop
  | .record r, .record s =>
    apply Record.beq_of_node? r s
    intro path
    by_cases hpath : path = []
    · rw [hpath, Record.node?_nil, Record.node?_nil]
    · rw [← Value.node?_record hpath, ← Value.node?_record hpath, h]
termination_by sizeOf v

theorem Record.beq_of_node? (r s : Record) (h : ∀ path, r.node? path = s.node? path) :
    (r == s) = true := by
  rw [Record.beq_eq]
  apply Record.same_columns_of_find?
  intro name
  have hname (path : List String) := h (name :: path)
  simp only [Record.node?_cons] at hname
  have htop := hname []
  cases hv : r.columns.find? name with
  | none =>
    cases hw : s.columns.find? name with
    | none => exact Option.Rel.none
    | some w => simp [hv, hw, Value.node?_nil] at htop
  | some v =>
    cases hw : s.columns.find? name with
    | none => simp [hv, hw, Value.node?_nil] at htop
    | some w =>
      have hsize := Nat.lt_trans (Dictionary.size_of_find?_lt hv) r.size_of_columns_lt
      apply Option.Rel.some
      apply Value.beq_of_node? v w
      intro path
      simpa only [hv, hw, Option.bind_some] using hname path
termination_by sizeOf r

end

theorem Value.beq_iff_node? {v w : Value} :
    (v == w) = true ↔ ∀ path, v.node? path = w.node? path := by
  constructor
  · intro h path
    rw [← v.node?_without_aliases, (beq_iff_without_aliases v w).mp h, w.node?_without_aliases]
  · exact beq_of_node? v w

end RelationalQuery
