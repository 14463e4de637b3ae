import RelationalQuery.Record
import RelationalQuery.Record.Draft

/-!
# Writing at paths

A record can be given by values at dotted names. They are placed in a draft one after another, names
with fewer segments first, so that a value at `left` is in place when one at `left.id` is written
into it. The order of the list matters only among values at the same name.

What becomes of the record when a value is placed in its draft is told by `write`, which changes the
columns of a record that is there already.
-/

set_option autoImplicit false

namespace RelationalQuery

namespace Path

def order (a b : String) : Ordering := (compare (dots a) (dots b)).then (compare a b)

end Path

namespace Record

/-- Writes a value at the end of a path. A record on the way is kept, without its aliases, a
missing one is made; below a scalar nothing is written. -/
def write (columns : Dictionary Value) : List String → Value → Dictionary Value
  | [], _ => columns
  | [name], value => columns.insert name value
  | name :: path, value =>
    match columns.find? name with
    | none => columns.insert name (.record ⟨write ∅ path value, ∅⟩)
    | some (.record inner) => columns.insert name (.record ⟨write inner.columns path value, ∅⟩)
    | some (.scalar _) => columns

def ofPaths (pairs : List (String × Value)) : Record :=
  let ordered := pairs.mergeSort fun a b => (Path.order a.1 b.1).isLE
  let draft := ordered.foldl
    (fun columns pair => Draft.place columns (Path.segments pair.1) pair.2) ∅
  ⟨Draft.finished draft, ∅⟩

def projection (r : Record) (names : List String) : Record :=
  ofPaths (names.map fun name => (name, r.get name))

end Record
end RelationalQuery
