import RelationalQuery.Proofs.Record.Paths
import RelationalQuery.Record.Writing

/-!
# What a write changes

A write takes effect unless its path leads through a scalar. Then the value stands at the end of
the path, all places on the way are records, and every place beside the path is what it was.
-/

set_option autoImplicit false

namespace RelationalQuery

def placeIn (columns : Dictionary Value) (path : List String) : Option Node :=
  Record.node? ⟨columns, ∅⟩ path

def Blocked (columns : Dictionary Value) (path : List String) : Prop :=
  ∃ before, before <+: path ∧ before ≠ path ∧
    ∃ content, placeIn columns before = some (.scalar content)

theorem place_in_nil (columns : Dictionary Value) : placeIn columns [] = none := rfl

theorem place_in_cons (columns : Dictionary Value) (name : String) (path : List String) :
    placeIn columns (name :: path) = (columns.find? name).bind (·.node? path) :=
  Record.node?_cons _ _ _

theorem place_in_empty (path : List String) : placeIn ∅ path = none := by
  cases path with
  | nil => rfl
  | cons name path =>
    rw [place_in_cons]
    rfl

theorem Record.node?_eq_place_in (r : Record) (path : List String) :
    r.node? path = placeIn r.columns path := by
  cases path with
  | nil => rfl
  | cons name path => rw [node?_cons, place_in_cons]

theorem place_in_insert (columns : Dictionary Value) (name key : String) (value : Value)
    (path : List String) : placeIn (columns.insert name value) (key :: path) =
      if key = name then value.node? path else placeIn columns (key :: path) := by
  rw [place_in_cons, place_in_cons, Dictionary.find?_insert]
  split
  · rfl
  · rfl

def columnsBelow (columns : Dictionary Value) (name : String) : Option (Dictionary Value) :=
  match columns.find? name with
  | none => some ∅
  | some (.record inner) => some inner.columns
  | some (.scalar _) => none

section
variable {columns inner : Dictionary Value} {name : String} {path : List String}

theorem write_cons (hpath : path ≠ []) (value : Value) :
    Record.write columns (name :: path) value =
      match columnsBelow columns name with
      | some inner => columns.insert name (.record ⟨Record.write inner path value, ∅⟩)
      | none => columns := by
  cases path with
  | nil => contradiction
  | cons next path =>
    rw [columnsBelow]
    cases h : columns.find? name with
    | none => simp [Record.write, h]
    | some found => cases found <;> simp [Record.write, h]

theorem place_in_cons_of_below (h : columnsBelow columns name = some inner) (hpath : path ≠ []) :
    placeIn columns (name :: path) = placeIn inner path := by
  rw [place_in_cons]
  rw [columnsBelow] at h
  split at h
  · rename_i hnone
    cases h
    rw [hnone, place_in_empty, Option.bind_none]
  · rename_i content hrecord
    cases h
    rw [hrecord, Option.bind_some, Value.node?_record hpath, Record.node?_eq_place_in]
  · cases h

theorem columns_below_eq_none : columnsBelow columns name = none ↔
    ∃ content, placeIn columns [name] = some (.scalar content) := by
  rw [place_in_cons, columnsBelow]
  cases columns.find? name with
  | none => simp
  | some found => cases found <;> simp [Value.node?_nil, Value.node]

theorem not_blocked_singleton : ¬ Blocked columns [name] := by
  rintro ⟨before, hpre, hne, content, hscalar⟩
  cases before with
  | nil =>
    rw [place_in_nil] at hscalar
    contradiction
  | cons key before =>
    obtain ⟨rfl, hbefore⟩ := List.cons_prefix_cons.mp hpre
    exact hne (by rw [List.prefix_nil.mp hbefore])

theorem blocked_of_none (h : columnsBelow columns name = none) (hpath : path ≠ []) :
    Blocked columns (name :: path) := by
  refine ⟨[name], by simp, ?_, columns_below_eq_none.mp h⟩
  intro heq
  exact hpath (List.cons.inj heq).2.symm

theorem blocked_cons (h : columnsBelow columns name = some inner) :
    Blocked columns (name :: path) ↔ Blocked inner path := by
  constructor
  · rintro ⟨before, hpre, hne, content, hscalar⟩
    cases before with
    | nil =>
      rw [place_in_nil] at hscalar
      contradiction
    | cons key before =>
      obtain ⟨rfl, hinner⟩ := List.cons_prefix_cons.mp hpre
      by_cases hbefore : before = []
      · subst hbefore
        rw [columns_below_eq_none.mpr ⟨content, hscalar⟩] at h
        contradiction
      · rw [place_in_cons_of_below h hbefore] at hscalar
        exact ⟨before, hinner, fun heq => hne (by rw [heq]), content, hscalar⟩
  · rintro ⟨before, hpre, hne, content, hscalar⟩
    have hbefore : before ≠ [] := by
      rintro rfl
      rw [place_in_nil] at hscalar
      contradiction
    refine ⟨name :: before, List.cons_prefix_cons.mpr ⟨rfl, hpre⟩, ?_, content, ?_⟩
    · intro heq
      exact hne (List.cons.inj heq).2
    · rw [place_in_cons_of_below h hbefore, hscalar]

theorem not_blocked_empty : ¬ Blocked ∅ path := by
  rintro ⟨before, _, _, content, hscalar⟩
  rw [place_in_empty] at hscalar
  contradiction

theorem place_in_singleton_of_blocked (h : columnsBelow columns name = some inner)
    (hblocked : Blocked inner path) : placeIn columns [name] = some .record := by
  rw [place_in_cons]
  rw [columnsBelow] at h
  split at h
  · cases h
    exact absurd hblocked not_blocked_empty
  · rename_i content hrecord
    rw [hrecord]
    rfl
  · cases h

end

section
variable {columns : Dictionary Value} {path place : List String}

theorem place_in_append (hpath : path ≠ []) (rest : List String) :
    placeIn columns (path ++ rest) =
      (Record.stored? ⟨columns, ∅⟩ path).bind (·.node? rest) :=
  Record.node?_append hpath rest

theorem place_in_eq_none_of_blocked (h : Blocked columns path) : placeIn columns path = none := by
  obtain ⟨before, ⟨rest, rfl⟩, hne, content, hscalar⟩ := h
  have hrest : rest ≠ [] := by
    rintro rfl
    exact hne (List.append_nil before).symm
  have hbefore : before ≠ [] := by
    rintro rfl
    rw [place_in_nil] at hscalar
    contradiction
  rw [place_in_append hbefore, Record.node?_eq_some_scalar.mp hscalar, Option.bind_some,
    Value.node?_scalar hrest]

theorem place_in_eq_none_below (h : placeIn columns path = none) (hpath : path ≠ [])
    (hplace : path <+: place) : placeIn columns place = none := by
  obtain ⟨rest, rfl⟩ := hplace
  rw [place_in_append hpath, Option.map_eq_none_iff.mp h, Option.bind_none]

theorem place_in_eq_record (hstored : placeIn columns path ≠ none) (hplace : place <+: path)
    (hne : place ≠ path) (hnil : place ≠ []) : placeIn columns place = some .record := by
  cases hnode : placeIn columns place with
  | none => exact absurd (place_in_eq_none_below hnode hnil hplace) hstored
  | some node =>
    cases node with
    | scalar content =>
      exact absurd (place_in_eq_none_of_blocked ⟨place, hplace, hne, content, hnode⟩) hstored
    | record => rfl

end

section
variable {columns : Dictionary Value} {path : List String} {value : Value}

/-- A write through a scalar rebuilds the records before the scalar and changes nothing. -/
theorem place_in_write_of_blocked (h : Blocked columns path) (place : List String) :
    placeIn (Record.write columns path value) place = placeIn columns place := by
  induction path generalizing columns place with
  | nil => rfl
  | cons name path ih =>
    by_cases hpath : path = []
    · subst hpath
      exact absurd h not_blocked_singleton
    · rw [write_cons hpath]
      cases hbelow : columnsBelow columns name with
      | none => rfl
      | some inner =>
        have hinner : Blocked inner path := (blocked_cons hbelow).mp h
        cases place with
        | nil => rfl
        | cons key place =>
          dsimp only
          rw [place_in_insert]
          split
          · rename_i hkey
            rw [hkey]
            by_cases hplace : place = []
            · rw [hplace, place_in_singleton_of_blocked hbelow hinner]
              rfl
            · rw [Value.node?_record hplace, Record.node?_eq_place_in, ih hinner,
                place_in_cons_of_below hbelow hplace]
          · rfl

/-- What stands where after a write that takes effect. -/
theorem place_in_write (hpath : path ≠ []) (h : ¬ Blocked columns path) (place : List String) :
    placeIn (Record.write columns path value) place =
      if path <+: place then value.node? (place.drop path.length)
      else if place <+: path ∧ place ≠ [] then some .record
      else placeIn columns place := by
  induction path generalizing columns place with
  | nil => contradiction
  | cons name path ih =>
    cases place with
    | nil => simp [place_in_nil]
    | cons key place =>
      by_cases hlast : path = []
      · subst hlast
        rw [Record.write, place_in_insert]
        by_cases hkey : key = name
        · simp [hkey]
        · simp [hkey, Ne.symm hkey]
      · cases hbelow : columnsBelow columns name with
        | none => exact absurd (blocked_of_none hbelow hlast) h
        | some inner =>
          have hinner : ¬ Blocked inner path := fun hb => h ((blocked_cons hbelow).mpr hb)
          rw [write_cons hlast, hbelow]
          dsimp only
          rw [place_in_insert]
          by_cases hkey : key = name
          · subst hkey
            by_cases hplace : place = []
            · simp [hplace, hlast, Value.node?_nil, Value.node]
            · rw [if_pos rfl, Value.node?_record hplace, Record.node?_eq_place_in,
                ih hlast hinner, place_in_cons_of_below hbelow hplace]
              simp [List.cons_prefix_cons, hplace]
          · simp [List.cons_prefix_cons, hkey, Ne.symm hkey]

/-- A write that takes effect moves no scalar except those at or below the end of its path. -/
theorem place_in_write_eq_scalar (hpath : path ≠ []) (h : ¬ Blocked columns path)
    {place : List String} (hplace : ¬ path <+: place) (content : Scalar) :
    placeIn (Record.write columns path value) place = some (.scalar content) ↔
      placeIn columns place = some (.scalar content) := by
  rw [place_in_write hpath h, if_neg hplace]
  split
  · rename_i hway
    constructor
    · intro hrecord
      simp at hrecord
    · intro hscalar
      have hne : place ≠ path := fun heq => hplace (heq ▸ List.prefix_rfl)
      exact absurd ⟨place, hway.1, hne, content, hscalar⟩ h
  · rfl

theorem place_in_write_ne_none (hpath : path ≠ []) (hopen : ¬ Blocked columns path)
    {place : List String} (hplace : placeIn columns place ≠ none)
    (hlength : place.length ≤ path.length) :
    placeIn (Record.write columns path value) place ≠ none := by
  rw [place_in_write hpath hopen]
  split
  · rename_i hpre
    rw [hpre.eq_of_length_le hlength, List.drop_length, Value.node?_nil]
    simp
  · split
    · simp
    · exact hplace

end
end RelationalQuery
