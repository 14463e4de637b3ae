import Mathlib.Data.Set.Card
import RelationalQuery.Proofs.Table.OuterJoin

/-!
# Filling a table

A table is made of a list of records, and then further records are added, one at a time or several
at once. What matters of all this is the list of the records supplied so far: the table holds the
first copy of each of them and nothing else (`Holds`). Every change keeps this, and so does a run of
changes, in which each insertion of a single record tells whether it was new.
-/

set_option autoImplicit false

namespace RelationalQuery

def Record.sameKind : Setoid Record where
  r a b := (a == b) = true
  iseqv := ⟨fun _ => BEq.rfl, BEq.symm, BEq.trans⟩

theorem Record.find?_concat_eq_some {supplied : List Record} {added row : Record} :
    (supplied ++ [added]).find? (· == row) = some row ↔
      supplied.find? (· == row) = some row ∨
        (row = added ∧ ∀ r ∈ supplied, (r == added) = false) := by
  rw [List.find?_append]
  cases hfound : supplied.find? (· == row) with
  | some first =>
    have hold : ¬ (row = added ∧ ∀ r ∈ supplied, (r == added) = false) := by
      rintro ⟨rfl, hnew⟩
      have hsame : (first == row) = true := by simpa using List.find?_some hfound
      rw [hnew first (List.mem_of_find?_eq_some hfound)] at hsame
      contradiction
    rw [Option.some_or, or_iff_left hold]
  | none =>
    have hnew : ∀ r ∈ supplied, (r == row) = false := by
      simpa using List.find?_eq_none.mp hfound
    rw [Option.none_or, List.find?_singleton]
    by_cases hrow : row = added
    · subst hrow
      simpa using hnew
    · have hother : added ≠ row := Ne.symm hrow
      simp [hrow, hother]

namespace Table

inductive Change
  | insert (row : Record)
  | extend (rows : List Record)

def Change.supplied : Change → List Record
  | insert row => [row]
  | extend rows => rows

def change (t : Table) : Change → Option Bool × Table
  | .insert row => (t.insertNew row).map some id
  | .extend rows => (none, t.extend rows)

def changes (t : Table) : List Change → List (Option Bool) × Table
  | [] => ([], t)
  | first :: later =>
    let (told, next) := t.change first
    let (others, last) := next.changes later
    (told :: others, last)

theorem changes_append (t : Table) (before after : List Change) :
    t.changes (before ++ after) =
      ((t.changes before).1 ++ ((t.changes before).2.changes after).1,
        ((t.changes before).2.changes after).2) := by
  induction before generalizing t with
  | nil => rfl
  | cons first later ih => simp only [List.cons_append, changes, ih]

theorem length_changes (t : Table) (cs : List Change) : (t.changes cs).1.length = cs.length := by
  induction cs generalizing t with
  | nil => rfl
  | cons first later ih => simp only [changes, List.length_cons, ih]

/-- A row is in the table exactly if the first of the supplied records that equal it is this very
row. -/
def Holds (t : Table) (supplied : List Record) : Prop :=
  ∀ row, row ∈ t.rows ↔ supplied.find? (· == row) = some row

variable {t : Table} {supplied : List Record}

theorem Holds.contains_iff (h : t.Holds supplied) (x : Record) :
    t.contains x = true ↔ ∃ r ∈ supplied, (r == x) = true := by
  rw [Table.contains_iff]
  constructor
  · rintro ⟨row, hrow, hsame⟩
    exact ⟨row, List.mem_of_find?_eq_some ((h row).mp hrow), hsame⟩
  · rintro ⟨r, hr, hsame⟩
    obtain ⟨first, hfirst⟩ := Option.isSome_iff_exists.mp
      (List.find?_isSome (p := (· == x)) |>.mpr ⟨r, hr, hsame⟩)
    have hkind : (first == x) = true := by simpa using List.find?_some hfirst
    refine ⟨first, (h first).mpr ?_, hkind⟩
    rw [← hfirst]
    congr 1
    funext r
    exact BEq.congr_right hkind

theorem Holds.contains_eq (h : t.Holds supplied) (x : Record) :
    t.contains x = supplied.any (· == x) := by
  rw [Bool.eq_iff_iff, h.contains_iff, List.any_eq_true]

/-- The size of a table is the number of kinds of the records supplied. -/
theorem Holds.size_eq (h : t.Holds supplied) :
    t.size = (Quotient.mk Record.sameKind '' {r | r ∈ supplied}).ncard := by
  have hkinds : Quotient.mk Record.sameKind '' {r | r ∈ supplied} =
      Quotient.mk Record.sameKind '' {row | row ∈ t.rows} := by
    apply Set.Subset.antisymm
    · rintro _ ⟨r, hr, rfl⟩
      obtain ⟨row, hrow, hsame⟩ :=
        Table.contains_iff.mp ((h.contains_iff r).mpr ⟨r, hr, BEq.rfl⟩)
      exact ⟨row, hrow, Quotient.sound hsame⟩
    · rintro _ ⟨row, hrow, rfl⟩
      exact ⟨row, List.mem_of_find?_eq_some ((h row).mp hrow), rfl⟩
  have hinjective : Set.InjOn (Quotient.mk Record.sameKind) {row | row ∈ t.rows} :=
    fun _ ha _ hb hsame => eq_of_mem_of_beq ha hb (Quotient.exact hsame)
  rw [hkinds, hinjective.ncard_image, ncard_rows]

theorem mem_insert_iff (t : Table) (added row : Record) :
    row ∈ (t.insert added).rows ↔ row ∈ t.rows ∨ (row = added ∧ t.contains added = false) := by
  cases hold : t.contains added with
  | true => simp [insert, hold]
  | false => simp [rows_insert hold]

theorem holds_empty : (∅ : Table).Holds [] :=
  fun _ => iff_of_false List.not_mem_nil (Option.some_ne_none _).symm

theorem Holds.insert (h : t.Holds supplied) (added : Record) :
    (t.insert added).Holds (supplied ++ [added]) := by
  intro row
  rw [mem_insert_iff, Record.find?_concat_eq_some, h row, h.contains_eq]
  simp

theorem Holds.extend (h : t.Holds supplied) (rows : List Record) :
    (t.extend rows).Holds (supplied ++ rows) := by
  induction rows generalizing t supplied with
  | nil => rwa [List.append_nil]
  | cons row rows ih =>
    rw [List.append_cons]
    exact ih (h.insert row)

theorem holds_of_list (records : List Record) : (ofList records).Holds records :=
  holds_empty.extend records

theorem Holds.change (h : t.Holds supplied) (c : Change) :
    (t.change c).2.Holds (supplied ++ c.supplied) := by
  cases c with
  | insert row => exact h.insert row
  | extend rows => exact h.extend rows

theorem Holds.changes (h : t.Holds supplied) (cs : List Change) :
    (t.changes cs).2.Holds (supplied ++ cs.flatMap Change.supplied) := by
  induction cs generalizing t supplied with
  | nil => rwa [List.flatMap_nil, List.append_nil]
  | cons first later ih =>
    rw [List.flatMap_cons, ← List.append_assoc]
    exact ih (h.change first)

def suppliedBy (records : List Record) (cs : List Change) : List Record :=
  records ++ cs.flatMap Change.supplied

def filled (records : List Record) (cs : List Change) : List (Option Bool) × Table :=
  (ofList records).changes cs

/-- Whatever is added to a table after it was made of a list, it holds every record supplied once,
in its first copy with the aliases of that copy; its size is the number of different records
supplied, and every insertion of a single record tells whether none equal to it had come before. -/
theorem filled_once (records : List Record) (cs : List Change) :
    ((filled records cs).2.rows.Pairwise fun a b => (a == b) = false) ∧
      (∀ x, (filled records cs).2.contains x = true ↔
        ∃ r ∈ suppliedBy records cs, (r == x) = true) ∧
      (filled records cs).2.size =
        (Quotient.mk Record.sameKind '' {r | r ∈ suppliedBy records cs}).ncard ∧
      (∀ before row after, cs = before ++ .insert row :: after →
        (filled records cs).1[before.length]? =
          some (some !(suppliedBy records before).any (· == row))) ∧
      ∀ row, row ∈ (filled records cs).2.rows ↔
        (suppliedBy records cs).find? (· == row) = some row := by
  have hholds (cs : List Change) : (filled records cs).2.Holds (suppliedBy records cs) :=
    (holds_of_list records).changes cs
  refine ⟨(filled records cs).2.distinct, (hholds cs).contains_iff, (hholds cs).size_eq, ?_,
    hholds cs⟩
  rintro before row after rfl
  have htold : (filled records (before ++ .insert row :: after)).1 =
      (filled records before).1 ++
        some (!(filled records before).2.contains row) ::
          (((filled records before).2.insert row).changes after).1 := by
    rw [filled, changes_append]
    rfl
  have hlength : (filled records before).1.length = before.length := length_changes _ before
  rw [htold, ← hlength, List.getElem?_append_right (Nat.le_refl _), Nat.sub_self,
    List.getElem?_cons_zero, (hholds before).contains_eq]

def nicknamed (nickname : String) : Record :=
  (Record.ofPairs [("id", .integer 3), ("name", .text "James Halpert")]).withAliases
    (Dictionary.ofList [(nickname, "name")])

def additions : List Change :=
  [.insert (nicknamed "first"), .extend [.leftOnly (nicknamed "a"), .leftOnly (nicknamed "b")],
    .insert (nicknamed "second"), .insert (.leftOnly (nicknamed "c"))]

theorem filled_once_nicknamed :
    additions = additions.take 2 ++ .insert (nicknamed "second") :: additions.drop 3 ∧
      additions = [] ++ .insert (nicknamed "first") :: additions.drop 1 ∧
      (filled [∅] additions).1[2]? = some (some false) ∧
      (filled [∅] additions).1[0]? = some (some true) ∧
      nicknamed "first" ∈ (filled [∅] additions).2.rows ∧
      .leftOnly (nicknamed "a") ∈ (filled [∅] additions).2.rows := by
  obtain ⟨_, _, _, htold, hrows⟩ := filled_once [∅] additions
  have hsecond : additions = additions.take 2 ++ .insert (nicknamed "second") :: additions.drop 3 :=
    rfl
  have hfirst : additions = [] ++ .insert (nicknamed "first") :: additions.drop 1 := rfl
  refine ⟨hsecond, hfirst, htold _ _ _ hsecond, htold _ _ _ hfirst, (hrows _).mpr ?_,
    (hrows _).mpr ?_⟩
  · rfl
  · rfl

end Table
end RelationalQuery
