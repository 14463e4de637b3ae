import RelationalQuery.Record

/-!
# Building records column by column

A record never changes. While it is being built each column may be set once, and the first column
that is set again is reported; afterwards every attempt to set a column is.
-/

set_option autoImplicit false

namespace RelationalQuery

inductive RecordError
  | immutable (column : String)
  deriving DecidableEq

def RecordError.message : RecordError → String
  | .immutable column => "record is immutable: cannot set column `" ++ column ++ "`"

namespace Record

def addColumn (columns : Dictionary Value) (name : String) (value : Value) :
    Except RecordError (Dictionary Value) :=
  if columns.contains name then .error (.immutable name) else .ok (columns.insert name value)

def build (pairs : List (String × Value)) : Except RecordError Record := do
  let columns ← pairs.foldlM (fun columns pair => addColumn columns pair.1 pair.2) ∅
  return ⟨columns, ∅⟩

def set (_ : Record) (column : String) (_ : Value) : Except RecordError Record :=
  .error (.immutable column)

end Record
end RelationalQuery
