import RelationalQuery.Proofs.Record.Paths

/-!
# Lookups

What a record stores under a dotted name is said here without splitting the name: a name without
dots is stored as a column, and `column.rest` where the column holds a record that stores `rest`
(`Stores`). No alias has a part in this, at any level. Looking a name up finds what is stored under
it, and looking up a longer name goes on from what the first part of the name finds.
-/

set_option autoImplicit false

namespace RelationalQuery.Record

inductive Stores : Record → String → Value → Prop
  | column {r : Record} {name : String} {value : Value} :
      '.' ∉ name.toList → r.columns.find? name = some value → Stores r name value
  | nested {r inner : Record} {column rest : String} {value : Value} :
      '.' ∉ column.toList → r.columns.find? column = some (.record inner) →
      Stores inner rest value → Stores r (column ++ "." ++ rest) value

def Yields (r : Record) (name : String) (value : Value) : Prop :=
  r.Stores name value ∨ value = .null ∧ ∀ other, ¬ r.Stores name other

variable {r inner : Record} {name rest : String} {value : Value}

theorem stored?_of_stores (h : r.Stores name value) :
    r.stored? (Path.segments name) = some value := by
  induction h with
  | column hdot hfound => rw [Path.segments_eq_singleton hdot, stored?, hfound]
  | @nested r inner column rest value hdot hfound _ ih =>
    rw [Path.segments_append, Path.segments_eq_singleton hdot, List.singleton_append, stored?_cons,
      hfound, Option.bind_some, Value.stored?_record (Path.segments_ne_nil rest), ih]

theorem stores_of_stored? {path : List String} (hpath : Path.segments name = path)
    (h : r.stored? path = some value) : r.Stores name value := by
  induction path generalizing r name with
  | nil => exact absurd hpath (Path.segments_ne_nil name)
  | cons column path ih =>
    have hdot : '.' ∉ column.toList :=
      Path.not_mem_of_mem_segments (hpath ▸ List.mem_cons_self)
    by_cases hlast : path = []
    · subst hlast
      have hname : name = column := by
        apply Path.segments_injective
        rw [hpath, Path.segments_eq_singleton hdot]
      exact hname ▸ .column hdot h
    · obtain ⟨rest, rfl, hrest⟩ := Path.exists_rest hpath hlast
      rw [stored?_cons] at h
      obtain ⟨found, hfound, hbelow⟩ := Option.bind_eq_some_iff.mp h
      cases found with
      | scalar content =>
        rw [Value.stored?_scalar hlast] at hbelow
        contradiction
      | record inner =>
        rw [Value.stored?_record hlast] at hbelow
        exact .nested hdot hfound (ih hrest hbelow)

theorem stores_iff : r.Stores name value ↔ r.stored? (Path.segments name) = some value :=
  ⟨stored?_of_stores, stores_of_stored? rfl⟩

theorem yields_iff : r.Yields name value ↔ value = .ofOption (r.stored? (Path.segments name)) := by
  simp only [Yields, stores_iff]
  cases r.stored? (Path.segments name) with
  | none => simp [Value.ofOption]
  | some stored => simp [Value.ofOption, eq_comm]

theorem get_of_unaliased (h : r.aliases.find? name = none) :
    r.get name = .ofOption (r.stored? (Path.segments name)) := by
  rw [get, lookup?, resolve, h, Option.getD_none]

theorem get_of_alias {path : String} (h : r.aliases.find? name = some path) :
    r.get name = .ofOption (r.stored? (Path.segments path)) := by
  rw [get, lookup?, resolve, h, Option.getD_some]

/-- A longer name goes on from the value under its first part, if there is one. -/
theorem get_append (h : r.aliases.find? (name ++ "." ++ rest) = none) :
    r.get (name ++ "." ++ rest) =
      .ofOption ((r.stored? (Path.segments name)).bind (·.stored? (Path.segments rest))) := by
  rw [get_of_unaliased h, Path.segments_append, stored?_append (Path.segments_ne_nil name)]

theorem get_append_of_scalar {content : Scalar} (hname : r.aliases.find? name = none)
    (h : r.aliases.find? (name ++ "." ++ rest) = none) (hscalar : r.get name = .scalar content) :
    r.get (name ++ "." ++ rest) = .null := by
  rw [get_append h]
  rw [get_of_unaliased hname] at hscalar
  cases hstored : r.stored? (Path.segments name) with
  | none => rfl
  | some value =>
    rw [hstored] at hscalar
    obtain rfl : value = .scalar content := hscalar
    rw [Option.bind_some, Value.stored?_scalar (Path.segments_ne_nil rest)]
    rfl

theorem get_append_of_record (hname : r.aliases.find? name = none)
    (h : r.aliases.find? (name ++ "." ++ rest) = none) (hrecord : r.get name = .record inner) :
    r.get (name ++ "." ++ rest) = .ofOption (inner.stored? (Path.segments rest)) := by
  rw [get_append h]
  rw [get_of_unaliased hname] at hrecord
  cases hstored : r.stored? (Path.segments name) with
  | none =>
    rw [hstored] at hrecord
    contradiction
  | some value =>
    rw [hstored] at hrecord
    obtain rfl : value = .record inner := hrecord
    rw [Option.bind_some, Value.stored?_record (Path.segments_ne_nil rest)]

/-- Let neither a name nor a longer one below it be an alias. If a scalar is found under the name,
the longer one gives null; if a record is found, it gives what this record stores under the rest,
whatever aliases it has. An alias gives what is stored under the name for which it stands. -/
theorem get_yields (r : Record) :
    (∀ name rest, r.aliases.find? name = none → r.aliases.find? (name ++ "." ++ rest) = none →
      (∀ content, r.get name = .scalar content → r.get (name ++ "." ++ rest) = .null) ∧
      ∀ inner, r.get name = .record inner → inner.Yields rest (r.get (name ++ "." ++ rest))) ∧
    ∀ nickname path, r.aliases.find? nickname = some path → r.Yields path (r.get nickname) := by
  refine ⟨fun name rest hname hrest => ⟨?_, ?_⟩, ?_⟩
  · intro content
    exact get_append_of_scalar hname hrest
  · intro inner hrecord
    exact yields_iff.mpr (get_append_of_record hname hrest hrecord)
  · intro nickname path hnickname
    exact yields_iff.mpr (get_of_alias hnickname)

def nicknamedRow : Record :=
  (Record.ofPairs
    [("left", .record ((Record.ofPairs [("", .integer 1), ("id", .integer 2)]).withAliases
        (Dictionary.ofList [("key", "id")]))),
      ("size", .integer 3)]).withAliases (Dictionary.ofList [("first", "key"), ("key", "left.id")])

theorem get_yields_nicknamed_row :
    ∃ inner, nicknamedRow.get "left" = .record inner ∧ inner.get "key" = .integer 2 ∧
      inner.Yields "key" (nicknamedRow.get "left.key") ∧
      inner.Yields "" (nicknamedRow.get "left.") ∧
      nicknamedRow.get "size.id" = .null ∧
      nicknamedRow.Yields "key" (nicknamedRow.get "first") ∧
      nicknamedRow.Yields "left.id" (nicknamedRow.get "key") := by
  obtain ⟨hlonger, halias⟩ := get_yields nicknamedRow
  refine ⟨_, rfl, rfl, ?_, ?_, ?_, halias _ _ rfl, halias _ _ rfl⟩
  · exact (hlonger "left" "key" rfl rfl).2 _ rfl
  · exact (hlonger "left" "" rfl rfl).2 _ rfl
  · exact (hlonger "size" "id" rfl rfl).1 _ rfl

end RelationalQuery.Record
