import RelationalQuery.Record.Columns
import RelationalQuery.Text.Quoted

/-!
# Display of values and records

A record is shown as the list of its flattened columns, each with the value found under its name.
A column that an alias stands for is shown under that alias. As the value is looked up by name, an
alias spelled like a column takes that column's place; the value found then lies elsewhere in the
record, but always inside it, and this is why the display ends.
-/

set_option autoImplicit false

namespace RelationalQuery

theorem Dictionary.size_of_find?_lt {low : Option String} {d : Dictionary Value low} {name : String}
    {value : Value} (h : d.find? name = some value) : sizeOf value < sizeOf d := by
  induction d with
  | nil => simp at h
  | cons key above content rest ih =>
    simp only [Dictionary.find?] at h
    split at h
    · obtain rfl := Option.some.inj h
      simp only [Dictionary.cons.sizeOf_spec]
      omega
    · have := ih h
      simp only [Dictionary.cons.sizeOf_spec]
      omega

namespace Record

theorem size_of_columns_lt (r : Record) : sizeOf r.columns < sizeOf r := by
  cases r
  simp only [Record.mk.sizeOf_spec]
  omega

theorem size_of_stored?_lt {r : Record} {path : List String} {value : Value}
    (h : r.stored? path = some value) : sizeOf value < sizeOf r := by
  fun_induction stored? r path with
  | case1 => simp at h
  | case2 r name => exact Nat.lt_trans (Dictionary.size_of_find?_lt h) r.size_of_columns_lt
  | case3 r name path _ inner hinner ih =>
    have hvalue := ih h
    have hsize := Dictionary.size_of_find?_lt hinner
    have hcolumns := r.size_of_columns_lt
    simp only [Value.record.sizeOf_spec] at hsize
    omega
  | case4 => simp at h

theorem size_of_lookup?_lt {r : Record} {name : String} {value : Value}
    (h : r.lookup? name = some value) : sizeOf value < sizeOf r :=
  size_of_stored?_lt h

def displayName (r : Record) (column : String) : String :=
  let standing := r.aliases.toList.filter fun entry => entry.2 = column
  (standing.getLast?.map Prod.fst).getD column

end Record

def Scalar.display : Scalar → String
  | null => "null"
  | boolean truth => if truth then "true" else "false"
  | integer number => toString number.toInt
  | text characters => Text.quote characters

mutual

def Value.display : Value → String
  | .scalar content => content.display
  | .record content => content.display
termination_by value => sizeOf value

def Record.display (r : Record) : String :=
  "\x7b" ++ String.intercalate ", " (r.columnNames.map fun column =>
    r.displayName column ++ ": " ++
      match _found : r.lookup? column with
      | some value => value.display
      | none => Scalar.null.display) ++ "\x7d"
termination_by sizeOf r
decreasing_by exact Record.size_of_lookup?_lt _found

end

end RelationalQuery
