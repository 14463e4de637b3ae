import RelationalQuery.Table

/-!
# Ordering

The rows of a table as a list. They are first put into the order of records, so that the list does
not depend on the order in which the table holds them; a stable sort then keeps that order among
rows that the given comparison calls equal.
-/

set_option autoImplicit false

namespace RelationalQuery

inductive Direction
  | ascending
  | descending
  deriving DecidableEq

def Direction.apply : Direction → Ordering → Ordering
  | ascending, o => o
  | descending, o => o.swap

def Record.compareBy : List (String × Direction) → Record → Record → Ordering
  | [], _, _ => .eq
  | (name, direction) :: keys, a, b =>
    (direction.apply (compare (a.get name) (b.get name))).then (compareBy keys a b)

namespace Table

def sortedRows (t : Table) : List Record := t.rows.mergeSort fun a b => (compare a b).isLE

def orderBy (t : Table) (order : Record → Record → Ordering) : List Record :=
  t.sortedRows.mergeSort fun a b => (order a b).isLE

def orderByColumns (t : Table) (keys : List (String × Direction)) : List Record :=
  t.orderBy (Record.compareBy keys)

end Table
end RelationalQuery
