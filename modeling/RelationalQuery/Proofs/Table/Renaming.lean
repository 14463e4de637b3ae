import Mathlib.Data.Prod.Basic
import RelationalQuery.Proofs.Dictionary
import RelationalQuery.Proofs.Record.Rearrangement
import RelationalQuery.Proofs.Record.Rebuilding
import RelationalQuery.Proofs.Table.Rows

/-!
# Renamed tables

Renaming gives the rows of a table new names for some of their columns and takes their former
aliases away. It changes no column, so the table stays equal to what it was. A projection on the new
names finds what is stored under the old ones: a new name is replaced once, so names can be
exchanged, and a name that is not new is looked up as it is, even if it is an old one.
-/

set_option autoImplicit false

namespace RelationalQuery

def formerName (mapping : List (String × String)) (name : String) : String :=
  ((mapping.find? (·.2 == name)).map Prod.fst).getD name

variable {mapping : List (String × String)}

theorem find?_new (hnew : (mapping.map Prod.snd).Nodup) {old new : String} :
    (mapping.find? (·.2 == new)).map Prod.fst = some old ↔ (old, new) ∈ mapping := by
  simp only [Option.map_eq_some_iff, find?_key_iff hnew, Prod.exists]
  simp

namespace Record

/-- The aliases of a renamed record are the mapping read from right to left. -/
theorem find?_aliases_renamed (hold : (mapping.map Prod.fst).Nodup)
    (hnew : (mapping.map Prod.snd).Nodup) (r : Record) {old new : String} :
    (r.renamed (Dictionary.ofList mapping)).aliases.find? new = some old ↔
      (old, new) ∈ mapping := by
  have hperm := Dictionary.to_list_of_list_perm hold
  have hnames : (((Dictionary.ofList mapping).toList.map Prod.swap).map Prod.fst).Nodup := by
    rw [List.map_map]
    exact (hperm.map Prod.snd).nodup_iff.mpr hnew
  show (Dictionary.ofList ((Dictionary.ofList mapping).toList.map Prod.swap)).find? new = some old ↔
    _
  rw [Dictionary.find?_of_list hnames, ← hperm.mem_iff]
  exact List.mem_map_of_injective Prod.swap_injective (a := (old, new))

theorem resolve_renamed (hold : (mapping.map Prod.fst).Nodup) (hnew : (mapping.map Prod.snd).Nodup)
    (r : Record) (name : String) :
    (r.renamed (Dictionary.ofList mapping)).resolve name = formerName mapping name := by
  have hformer : (r.renamed (Dictionary.ofList mapping)).aliases.find? name =
      (mapping.find? (·.2 == name)).map Prod.fst := by
    ext old
    rw [find?_aliases_renamed hold hnew, find?_new hnew]
  rw [resolve, formerName, hformer]

/-- A renamed row has under every name what was stored under the former one. Its earlier aliases
are of no account. -/
theorem get_renamed (hold : (mapping.map Prod.fst).Nodup) (hnew : (mapping.map Prod.snd).Nodup)
    (r : Record) (name : String) : (r.renamed (Dictionary.ofList mapping)).get name =
      .ofOption (r.stored? (Path.segments (formerName mapping name))) := by
  rw [get, lookup?, resolve_renamed hold hnew]
  exact congrArg Value.ofOption (stored?_with_aliases _ _)

theorem projection_renamed (hold : (mapping.map Prod.fst).Nodup)
    (hnew : (mapping.map Prod.snd).Nodup) (r : Record) (names : List String) :
    (r.renamed (Dictionary.ofList mapping)).projection names = .ofPaths (names.map fun name =>
      (name, .ofOption (r.stored? (Path.segments (formerName mapping name))))) := by
  simp only [projection, get_renamed hold hnew]

theorem renamed_beq_self (r : Record) (mapping : Dictionary String) :
    (r.renamed mapping == r) = true := by
  rw [beq_eq]
  exact same_columns_refl r.columns

end Record

namespace Table

theorem rows_rename (t : Table) (mapping : Dictionary String) :
    (t.rename mapping).rows = t.rows.map fun r => r.renamed mapping := rfl

theorem rename_beq_self (t : Table) (mapping : Dictionary String) :
    (t.rename mapping == t) = true := by
  apply beq_of_contains
  intro x
  rw [contains_iff, contains_iff, rows_rename]
  simp only [List.mem_map, exists_exists_and_eq_and, BEq.congr_left (Record.renamed_beq_self _ _)]

/-- Renaming leaves a table equal to what it was, and projecting the renamed table gives each name
the value that is stored under the former one. The rows are the records that come of this from some
row, and of equal ones there is one. -/
theorem projection_rename (t : Table) (mapping : List (String × String))
    (hold : (mapping.map Prod.fst).Nodup) (hnew : (mapping.map Prod.snd).Nodup)
    (names : List String) :
    (t.rename (Dictionary.ofList mapping) == t) = true ∧
      (t.rename (Dictionary.ofList mapping)).projection names =
        ofList (t.rows.map fun r => .ofPaths (names.map fun name =>
          (name, .ofOption (r.stored? (Path.segments (formerName mapping name)))))) ∧
      ∀ x, ((t.rename (Dictionary.ofList mapping)).projection names).contains x = true ↔
        ∃ r ∈ t.rows, (Record.ofPaths (names.map fun name =>
          (name, .ofOption (r.stored? (Path.segments (formerName mapping name))))) == x) =
            true := by
  refine ⟨rename_beq_self t _, ?_, fun x => ?_⟩
  · rw [projection, rows_rename, List.map_map]
    congr 2
    funext r
    exact Record.projection_renamed hold hnew r names
  · rw [contains_projection, rows_rename]
    simp only [List.mem_map, exists_exists_and_eq_and, Record.projection_renamed hold hnew]

def exchangedNames : List (String × String) :=
  [("a", "b"), ("b", "a"), ("c.d", "c"), ("missing", "c.d")]

def exchangedRows : Table :=
  ofList
    [(Record.ofPairs [("a", .integer 1), ("b", .integer 2),
        ("c", .record (.ofPairs [("d", .integer 3)]))]).withAliases
          (Dictionary.ofList [("a", "c.d"), ("missing", "b")]),
      .ofPairs [("a", .integer 1), ("b", .integer 2),
        ("c", .record (.ofPairs [("d", .integer 3), ("e", .text "x")]))]]

def exchangedColumns : List String := ["missing", "a", "b", "c", "c.d"]

theorem projection_rename_exchanged :
    (exchangedNames.map Prod.fst).Nodup ∧ (exchangedNames.map Prod.snd).Nodup ∧
      (exchangedRows.rename (Dictionary.ofList exchangedNames) == exchangedRows) = true ∧
      ((exchangedRows.rename (Dictionary.ofList exchangedNames)).projection exchangedColumns ==
        ofList [.ofPairs [("a", .integer 2), ("b", .integer 1), ("c", .integer 3),
          ("missing", .null)]]) = true ∧
      ((exchangedRows.rename (Dictionary.ofList exchangedNames)).projection
        exchangedColumns).contains (.ofPairs [("a", .integer 2), ("b", .integer 1),
          ("c", .integer 3), ("missing", .null)]) = true := by
  have hold : (exchangedNames.map Prod.fst).Nodup := by decide
  have hnew : (exchangedNames.map Prod.snd).Nodup := by decide
  obtain ⟨hsame, hprojection, hcontains⟩ :=
    projection_rename exchangedRows exchangedNames hold hnew exchangedColumns
  have hwritten (values : String → Value) :
      Record.ofPaths (exchangedColumns.map fun name => (name, values name)) =
        .writeAll (exchangedColumns.map fun name => (name, values name)) := by
    apply Record.of_paths_eq_write_all_of_short_first fun _ => rfl
    rw [Record.ShortFirst, List.pairwise_map]
    show exchangedColumns.Pairwise fun a b =>
      (Path.segments a).length ≤ (Path.segments b).length
    decide +kernel
  refine ⟨hold, hnew, hsame, ?_, ?_⟩
  · simp only [hprojection, hwritten]
    decide +kernel
  · rw [hcontains]
    simp only [hwritten]
    decide +kernel

end Table
end RelationalQuery
