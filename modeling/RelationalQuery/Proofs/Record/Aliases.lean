import RelationalQuery.Proofs.Record.Paths
import RelationalQuery.Proofs.Record.Equality

/-!
# Records without their aliases

Values are equal exactly if nothing but aliases tells them apart, which is to say that they have the
same copy without aliases. A lookup uses the aliases of the record at the top alone, so equal
records with the same aliases at the top have equal values under every name.
-/

set_option autoImplicit false

namespace RelationalQuery

mutual

def Value.withoutAliases : Value → Value
  | .scalar content => .scalar content
  | .record content => .record content.withoutAliases

def Record.withoutAliases : Record → Record
  | ⟨columns, _⟩ => ⟨Record.columnsWithoutAliases columns, ∅⟩

def Record.columnsWithoutAliases {low : Option String} : Dictionary Value low → Dictionary Value low
  | .nil => .nil
  | .cons name above value rest =>
    .cons name above value.withoutAliases (Record.columnsWithoutAliases rest)

end

mutual

theorem Value.same_iff_without_aliases (a b : Value) :
    Value.same a b = true ↔ a.withoutAliases = b.withoutAliases := by
  match a, b with
  | .scalar a, .scalar b => simp [Value.same, Value.withoutAliases]
  | .record a, .record b =>
    rw [Value.same, Record.same_iff_without_aliases a b, Value.withoutAliases, Value.withoutAliases,
      Value.record.injEq]
  | .scalar _, .record _ => simp [Value.same, Value.withoutAliases]
  | .record _, .scalar _ => simp [Value.same, Value.withoutAliases]

theorem Record.same_iff_without_aliases (a b : Record) :
    Record.same a b = true ↔ a.withoutAliases = b.withoutAliases := by
  match a, b with
  | ⟨columns, _⟩, ⟨columns', _⟩ =>
    rw [Record.same, Record.same_columns_iff_without_aliases columns columns',
      Record.withoutAliases, Record.withoutAliases, Record.mk.injEq, and_iff_left rfl]

theorem Record.same_columns_iff_without_aliases {low : Option String} (d e : Dictionary Value low) :
    Record.sameColumns d e = true ↔
      Record.columnsWithoutAliases d = Record.columnsWithoutAliases e := by
  match d, e with
  | .nil, .nil => simp [Record.sameColumns]
  | .nil, .cons .. => simp [Record.sameColumns, Record.columnsWithoutAliases]
  | .cons .., .nil => simp [Record.sameColumns, Record.columnsWithoutAliases]
  | .cons name _ value rest, .cons name' _ value' rest' =>
    rw [Record.sameColumns, Record.columnsWithoutAliases, Record.columnsWithoutAliases]
    by_cases hname : name = name'
    · subst hname
      rw [Bool.and_eq_true, Bool.and_eq_true, Value.same_iff_without_aliases value value',
        Record.same_columns_iff_without_aliases rest rest']
      simp
    · simp [hname]

end

theorem Value.beq_iff_without_aliases (a b : Value) :
    (a == b) = true ↔ a.withoutAliases = b.withoutAliases :=
  Value.same_iff_without_aliases a b

theorem Value.without_aliases_of_option (value : Option Value) :
    (ofOption value).withoutAliases = ofOption (value.map withoutAliases) := by
  cases value <;> rfl

namespace Record

theorem beq_iff_without_aliases (a b : Record) :
    (a == b) = true ↔ a.withoutAliases = b.withoutAliases :=
  same_iff_without_aliases a b

theorem find?_columns_without_aliases {low : Option String} (d : Dictionary Value low)
    (name : String) :
    (columnsWithoutAliases d).find? name = (d.find? name).map Value.withoutAliases := by
  induction d with
  | nil => rfl
  | cons key above value rest ih =>
    rw [columnsWithoutAliases, Dictionary.find?, Dictionary.find?, ih]
    split <;> rfl

theorem columns_without_aliases (r : Record) :
    r.withoutAliases.columns = columnsWithoutAliases r.columns := by
  cases r
  rfl

theorem stored?_without_aliases (r : Record) (path : List String) :
    r.withoutAliases.stored? path = (r.stored? path).map Value.withoutAliases := by
  induction path generalizing r with
  | nil => rfl
  | cons name path ih =>
    rw [stored?_cons, stored?_cons, columns_without_aliases, find?_columns_without_aliases]
    cases r.columns.find? name with
    | none => rfl
    | some value =>
      show value.withoutAliases.stored? path = (value.stored? path).map Value.withoutAliases
      by_cases hpath : path = []
      · rw [hpath]
        rfl
      · cases value with
        | scalar content =>
          rw [Value.withoutAliases, Value.stored?_scalar hpath, Option.map_none]
        | record content =>
          rw [Value.withoutAliases, Value.stored?_record hpath, Value.stored?_record hpath, ih]

/-- Under every name, equal records with the same aliases have equal values. -/
theorem get_beq {a b : Record} (hsame : (a == b) = true) (haliases : a.aliases = b.aliases)
    (name : String) : (a.get name == b.get name) = true := by
  have hstored (path : List String) :
      (a.stored? path).map Value.withoutAliases = (b.stored? path).map Value.withoutAliases := by
    rw [← stored?_without_aliases, ← stored?_without_aliases,
      (beq_iff_without_aliases a b).mp hsame]
  have hresolve : a.resolve name = b.resolve name := by rw [resolve, resolve, haliases]
  rw [Value.beq_iff_without_aliases, get, get, Value.without_aliases_of_option,
    Value.without_aliases_of_option, lookup?, lookup?, hresolve, hstored]

end Record
end RelationalQuery
