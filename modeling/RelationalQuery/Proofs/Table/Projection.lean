import RelationalQuery.Proofs.Record.Refilling
import RelationalQuery.Proofs.Table.Rows

/-!
# Projections of projections

A projected table holds the projections of its rows, one of each kind. Projecting it again does the
same to each of these, so what holds of the projections of every single row holds of the tables:
projecting twice on the same names is projecting once, and names that are apart from one another can
be taken from a projection on more such names.
-/

set_option autoImplicit false

namespace RelationalQuery.Table

/-- A second projection of a table is a projection of it if this is so of every row. -/
theorem projection_projection_beq (t : Table) {names wanted direct : List String}
    (h : ∀ r ∈ t.rows,
      ((r.projection names).projection wanted == r.projection direct) = true) :
    ((t.projection names).projection wanted == t.projection direct) = true := by
  apply beq_of_contains
  intro row
  rw [contains_projection, contains_projection]
  constructor
  · rintro ⟨first, hfirst, hrow⟩
    obtain ⟨r, hr, rfl⟩ := mem_of_mem_projection hfirst
    exact ⟨r, hr, BEq.trans (BEq.symm (h r hr)) hrow⟩
  · rintro ⟨r, hr, hrow⟩
    obtain ⟨first, hfirst, hsame⟩ := contains_iff.mp
      ((contains_projection t names (r.projection names)).mpr ⟨r, hr, BEq.rfl⟩)
    -- Of the rows whose projections are equal the table has kept one, perhaps not this one.
    obtain ⟨kept, _, rfl⟩ := mem_of_mem_projection hfirst
    refine ⟨_, hfirst, BEq.trans ?_ (BEq.trans (h r hr) hrow)⟩
    exact Record.projection_congr fun name _ => Record.get_beq hsame rfl name

/-- Projecting a record or a table once more on the same names changes nothing. -/
theorem projection_idempotent (names : List String) :
    (∀ r : Record, ((r.projection names).projection names == r.projection names) = true) ∧
      ∀ t : Table, ((t.projection names).projection names == t.projection names) = true :=
  ⟨fun r => r.projection_beq_self names,
    fun t => t.projection_projection_beq fun r _ => r.projection_beq_self names⟩

/-- Names of which none goes on below another one are projected with the values that the rows have
under them, so a further projection on some of them could have been the first one. -/
theorem projection_cascade (t : Table) (names wanted : List String)
    (hapart : ∀ a ∈ names, ∀ b ∈ names, ¬ Path.Below a b) (hwanted : wanted ⊆ names) :
    ((t.projection names).projection wanted == t.projection wanted) = true :=
  t.projection_projection_beq fun r _ => r.projection_beq_of_subset hapart hwanted

def task (number : Int64) (addressee : String) : Record :=
  (Record.join (.ofPairs [("id", .integer 0), ("name", .text "Michael Scott")])
    (.ofPairs [("id", .integer number)])).withAliases
      (Dictionary.ofList [("who", addressee), ("left.whole", "left")])

def tasks : Table := ofList [task 1 "left.name", task 2 "left.name", task 1 "left.id"]

def apartNames : List String := ["left.id", "who", "left.whole", "left.missing.part"]

theorem projection_cascade_tasks :
    (∀ a ∈ apartNames, ∀ b ∈ apartNames, ¬ Path.Below a b) ∧
    ["left.whole", "who", "left.whole"] ⊆ apartNames ∧
    ((tasks.projection apartNames).projection ["left.whole", "who", "left.whole"] ==
      tasks.projection ["left.whole", "who", "left.whole"]) = true := by
  have hapart : ∀ a ∈ apartNames, ∀ b ∈ apartNames, ¬ Path.Below a b := by
    simp only [Path.below_iff]
    decide +kernel
  have hwanted : ["left.whole", "who", "left.whole"] ⊆ apartNames := by decide
  exact ⟨hapart, hwanted, projection_cascade tasks apartNames _ hapart hwanted⟩

end RelationalQuery.Table
