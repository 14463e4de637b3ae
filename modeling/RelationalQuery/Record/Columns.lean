import RelationalQuery.Record

/-!
# Column names

The columns of a record, flattened: the dotted names of all its values that are not records
themselves. A nested record without columns lends no name.
-/

set_option autoImplicit false

namespace RelationalQuery

mutual

def Value.leafNames (name : String) : Value → List String
  | .scalar _ => [name]
  | .record content => Record.leafNames name content

def Record.leafNames (base : String) : Record → List String
  | ⟨columns, _⟩ => Record.leafNamesOf base columns

def Record.leafNamesOf (base : String) {low : Option String} : Dictionary Value low → List String
  | .nil => []
  | .cons name _ value rest =>
    Value.leafNames (Path.below base name) value ++ Record.leafNamesOf base rest

end

def Record.columnNames (r : Record) : List String :=
  (r.leafNames "").mergeSort fun a b => decide (a ≤ b)

end RelationalQuery
