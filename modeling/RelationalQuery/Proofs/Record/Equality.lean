import RelationalQuery.Record

/-!
# Equality of records

Equality of values and of records is an equivalence. It compares columns and passes over aliases at
every level, so equal records need not be the same record.
-/

set_option autoImplicit false

namespace RelationalQuery

mutual

theorem Value.same_refl (a : Value) : Value.same a a = true := by
  match a with
  | .scalar content => simp [Value.same]
  | .record content => exact Record.same_refl content

theorem Record.same_refl (a : Record) : Record.same a a = true := by
  match a with
  | ⟨columns, _⟩ => exact Record.same_columns_refl columns

theorem Record.same_columns_refl {low : Option String} (d : Dictionary Value low) :
    Record.sameColumns d d = true := by
  match d with
  | .nil => rfl
  | .cons name _ value rest =>
    simp [Record.sameColumns, Value.same_refl value, Record.same_columns_refl rest]

end

mutual

/-- Values that equal a third one equal each other, which is symmetry and transitivity in one. -/
theorem Value.same_of_same {a b c : Value} (hb : Value.same a b = true)
    (hc : Value.same a c = true) : Value.same b c = true := by
  match a, b, c with
  | .scalar _, .scalar _, .scalar _ =>
    simp only [Value.same, decide_eq_true_eq] at hb hc ⊢
    exact hb.symm.trans hc
  | .record _, .record _, .record _ => exact Record.same_of_same hb hc

theorem Record.same_of_same {a b c : Record} (hb : Record.same a b = true)
    (hc : Record.same a c = true) : Record.same b c = true := by
  match a, b, c with
  | ⟨_, _⟩, ⟨_, _⟩, ⟨_, _⟩ => exact Record.same_columns_of_same hb hc

theorem Record.same_columns_of_same {low low₁ low₂ : Option String} {d : Dictionary Value low}
    {d₁ : Dictionary Value low₁} {d₂ : Dictionary Value low₂}
    (h₁ : Record.sameColumns d d₁ = true) (h₂ : Record.sameColumns d d₂ = true) :
    Record.sameColumns d₁ d₂ = true := by
  match d, d₁, d₂ with
  | .nil, .nil, .nil => rfl
  | .cons _ _ _ _, .cons _ _ _ _, .cons _ _ _ _ =>
    simp only [Record.sameColumns, Bool.and_eq_true, decide_eq_true_eq] at h₁ h₂ ⊢
    exact ⟨⟨h₁.1.1.symm.trans h₂.1.1, Value.same_of_same h₁.1.2 h₂.1.2⟩,
      Record.same_columns_of_same h₁.2 h₂.2⟩

end

instance : EquivBEq Value where
  rfl := Value.same_refl _
  symm h := Value.same_of_same h (Value.same_refl _)
  trans hab hbc := Value.same_of_same (Value.same_of_same hab (Value.same_refl _)) hbc

instance : EquivBEq Record where
  rfl := Record.same_refl _
  symm h := Record.same_of_same h (Record.same_refl _)
  trans hab hbc := Record.same_of_same (Record.same_of_same hab (Record.same_refl _)) hbc

end RelationalQuery
