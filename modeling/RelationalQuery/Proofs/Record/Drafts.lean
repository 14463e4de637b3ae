import RelationalQuery.Record.Writing

/-!
# What a draft becomes

To place a value in a draft is to write it into the record that the draft becomes. A record at a
leaf has the same columns when it is opened, so it makes no difference when that happens, and a
record that is given by values at names comes of plain writes.
-/

set_option autoImplicit false

namespace RelationalQuery

namespace Draft

theorem finished_map_leaf {low : Option String} (columns : Dictionary Value low) :
    finished (columns.map .leaf) = columns := by
  induction columns with
  | nil => rfl
  | cons name above value rest ih => rw [Dictionary.map, finished, Draft.value, ih]

theorem find?_finished {low : Option String} (columns : Dictionary Draft low) (name : String) :
    (finished columns).find? name = (columns.find? name).map Draft.value := by
  induction columns with
  | nil => rfl
  | cons key above draft rest ih =>
    rw [finished, Dictionary.find?, Dictionary.find?, ih]
    split <;> rfl

theorem finished_insert (columns : Dictionary Draft) (name : String) (draft : Draft) :
    finished (columns.insert name draft) = (finished columns).insert name draft.value := by
  apply Dictionary.ext_find?
  intro key
  rw [find?_finished, Dictionary.find?_insert, Dictionary.find?_insert, find?_finished]
  split <;> rfl

/-- Placing a value and finishing the draft is finishing it and writing the value. -/
theorem finished_place (columns : Dictionary Draft) (path : List String) (value : Value) :
    finished (place columns path value) = Record.write (finished columns) path value := by
  induction path generalizing columns with
  | nil => rfl
  | cons name path ih =>
    cases path with
    | nil => exact finished_insert columns name (.leaf value)
    | cons next path =>
      simp only [place, Record.write, find?_finished]
      cases columns.find? name with
      | none => simp [opened, finished_insert, Draft.value, ih, finished]
      | some draft =>
        cases draft with
        | branch inner => simp [opened, finished_insert, Draft.value, ih]
        | leaf found =>
          cases found with
          | scalar content => simp [opened, Draft.value]
          | record content => simp [opened, finished_insert, Draft.value, ih, finished_map_leaf]

end Draft

namespace Record

def writeAll (pairs : List (String × Value)) : Record :=
  ⟨pairs.foldl (fun columns pair => write columns (Path.segments pair.1) pair.2) ∅, ∅⟩

theorem of_paths_eq_write_all (pairs : List (String × Value)) :
    ofPaths pairs = writeAll (pairs.mergeSort fun a b => (Path.order a.1 b.1).isLE) := by
  rw [ofPaths, writeAll]
  congr 1
  exact (List.foldl_hom Draft.finished fun columns pair =>
    (Draft.finished_place columns _ _).symm).symm

end Record
end RelationalQuery
