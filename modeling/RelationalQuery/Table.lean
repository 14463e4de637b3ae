import RelationalQuery.Record

/-!
# Tables

A table is a set of records. Two of its rows are never equal, and of equal rows the one that came
first stays, which shows in its aliases. The order of the rows has no meaning.
-/

set_option autoImplicit false

namespace RelationalQuery

structure Table where
  rows : List Record
  distinct : rows.Pairwise fun a b => (a == b) = false

namespace Table

instance : EmptyCollection Table := ⟨⟨[], .nil⟩⟩
instance : Inhabited Table := ⟨∅⟩

def size (t : Table) : Nat := t.rows.length

def isEmpty (t : Table) : Bool := t.rows.isEmpty

def contains (t : Table) (row : Record) : Bool := t.rows.any (· == row)

theorem distinct_append {t : Table} {row : Record} (h : ¬ t.contains row) :
    (t.rows ++ [row]).Pairwise fun a b => (a == b) = false := by
  simp only [contains, List.any_eq_true, not_exists, not_and, Bool.not_eq_true] at h
  simpa [List.pairwise_append] using ⟨t.distinct, h⟩

def insert (t : Table) (row : Record) : Table :=
  if h : t.contains row then t else ⟨t.rows ++ [row], distinct_append h⟩

def insertNew (t : Table) (row : Record) : Bool × Table := (!t.contains row, t.insert row)

def extend (t : Table) (rows : List Record) : Table := rows.foldl insert t

def ofList (rows : List Record) : Table := extend ∅ rows

def select (t : Table) (test : Record → Bool) : Table :=
  ⟨t.rows.filter test, t.distinct.filter test⟩

/-- The rows of both tables. Of equal rows the one from the larger table stays, or the one from
the second if both have the same size. -/
def union (a b : Table) : Table :=
  if a.size ≤ b.size then b.extend a.rows else a.extend b.rows

def difference (a b : Table) : Table := a.select fun row => !b.contains row

def mapRows (t : Table) (f : Record → Record) (h : ∀ a b, (f a == f b) = (a == b)) : Table :=
  ⟨t.rows.map f, by simpa [List.pairwise_map, h] using t.distinct⟩

instance : BEq Table := ⟨fun a b => a.size == b.size && a.rows.all b.contains⟩

end Table
end RelationalQuery
