import RelationalQuery.Record.Writing
import RelationalQuery.Table

/-!
# Projection and renaming

The operators that replace every row of a table. Rows that a projection makes equal become one;
renaming leaves the rows equal to what they were.
-/

set_option autoImplicit false

namespace RelationalQuery.Table

def projection (t : Table) (names : List String) : Table :=
  ofList (t.rows.map fun row => row.projection names)

def rename (t : Table) (mapping : Dictionary String) : Table :=
  t.mapRows (fun row => row.renamed mapping) (Record.renamed_beq mapping)

end RelationalQuery.Table
