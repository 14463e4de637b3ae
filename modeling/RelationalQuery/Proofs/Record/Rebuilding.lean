import RelationalQuery.Proofs.Record.Leaves
import RelationalQuery.Proofs.Record.Projection

/-!
# Rebuilding a record from its columns

The projection of a record on all its flattened columns is the record again. Its names are the
paths to its scalars, so the projection holds these scalars and no others, and as only scalars are
written it has no empty record inside. Two such records are equal.
-/

set_option autoImplicit false

namespace RelationalQuery.Record

variable {r : Record} {names : List String}

theorem each_column_of_insert {p : String → Value → Prop} {columns : Dictionary Value}
    {name : String} {value : Value} (hcolumns : EachColumnOf p columns) (hname : p name value)
    (hvalue : value.EachColumn p) : EachColumnOf p (columns.insert name value) := by
  rw [each_column_of_iff] at hcolumns ⊢
  intro key found hfind
  rw [Dictionary.find?_insert] at hfind
  split at hfind
  · rename_i hkey
    rw [hkey, ← Option.some.inj hfind]
    exact ⟨hname, hvalue⟩
  · exact hcolumns key found hfind

theorem is_empty_insert (columns : Dictionary Value) (name : String) (value : Value) :
    (columns.insert name value).isEmpty = false := by
  have hfind : (columns.insert name value).find? name = some value := by simp
  exact Dictionary.is_empty_eq_false_of_find? hfind

theorem is_empty_write {columns : Dictionary Value} {path : List String} (hpath : path ≠ [])
    (value : Value) : (write columns path value).isEmpty = false := by
  cases path with
  | nil => contradiction
  | cons name path =>
    by_cases hlast : path = []
    · rw [hlast]
      exact is_empty_insert columns name value
    · rw [write_cons hlast]
      cases hbelow : columnsBelow columns name with
      | some inner => exact is_empty_insert columns name _
      | none =>
        obtain ⟨content, hscalar⟩ := columns_below_eq_none.mp hbelow
        rw [place_in_cons, Option.bind_eq_some_iff] at hscalar
        obtain ⟨found, hfind, _⟩ := hscalar
        exact Dictionary.is_empty_eq_false_of_find? hfind

theorem filled_columns_below {columns inner : Dictionary Value} {name : String}
    (hcolumns : EachColumnOf Filled columns) (h : columnsBelow columns name = some inner) :
    EachColumnOf Filled inner := by
  rw [columnsBelow] at h
  split at h
  · rw [← Option.some.inj h]
    trivial
  · rename_i content hfind
    rw [← Option.some.inj h, ← each_column_iff]
    exact (each_column_of_iff.mp hcolumns name _ hfind).2
  · contradiction

/-- Writing a scalar leaves no empty record behind. -/
theorem filled_write {columns : Dictionary Value} (hcolumns : EachColumnOf Filled columns)
    (path : List String) (content : Scalar) :
    EachColumnOf Filled (write columns path (.scalar content)) := by
  induction path generalizing columns with
  | nil => exact hcolumns
  | cons name path ih =>
    by_cases hlast : path = []
    · rw [hlast]
      exact each_column_of_insert hcolumns trivial trivial
    · rw [write_cons hlast]
      cases hbelow : columnsBelow columns name with
      | none => exact hcolumns
      | some inner =>
        have hinner := ih (filled_columns_below hcolumns hbelow)
        exact each_column_of_insert hcolumns (is_empty_write hlast _) hinner

theorem filled_fill {paths : List (List String)}
    (h : ∀ path ∈ paths, ∃ content, r.node? path = some (.scalar content)) :
    EachColumnOf Filled (fill r paths) := by
  induction paths using List.reverseRecOn with
  | nil => trivial
  | append_singleton paths path ih =>
    obtain ⟨content, hscalar⟩ := h path List.mem_concat_self
    rw [fill_concat, node?_eq_some_scalar.mp hscalar]
    exact filled_write (ih fun p hp => h p (List.mem_append_left _ hp)) path content

theorem stored?_with_aliases (aliases : Dictionary String) (path : List String) :
    (r.withAliases aliases).stored? path = r.stored? path := by
  cases path with
  | nil => rfl
  | cons name path =>
    rw [stored?_cons, stored?_cons]
    rfl

theorem node?_with_aliases (aliases : Dictionary String) (path : List String) :
    (r.withAliases aliases).node? path = r.node? path := by
  rw [node?, node?, stored?_with_aliases]

theorem projection_with_aliases (haliases : ∀ name ∈ names, r.aliases.find? name = none) :
    r.projection names = (r.withAliases ∅).projection names := by
  have hget : ∀ name ∈ names, (name, r.get name) = (name, (r.withAliases ∅).get name) := by
    intro name hname
    rw [get, get, lookup?_of_aliases (r := r.withAliases ∅) rfl, stored?_with_aliases, lookup?,
      resolve, haliases name hname]
    rfl
  rw [projection, projection, List.map_congr_left hget]

/-- A projection on paths to scalars holds exactly these scalars. -/
theorem node?_projection_of_scalars (hr : r.aliases = ∅)
    (hscalars : ∀ path ∈ names.map Path.segments, ∃ content, r.node? path = some (.scalar content))
    (place : List String) (content : Scalar) :
    (r.projection names).node? place = some (.scalar content) ↔
      (∃ path ∈ names.map Path.segments, path <+: place) ∧
        r.node? place = some (.scalar content) := by
  have hmem (path : List String) : path ∈ (inOrder names).map Path.segments ↔
      path ∈ names.map Path.segments := by
    simp only [List.mem_map, mem_in_order]
  rw [node?_eq_place_in, columns_projection hr,
    place_in_fill_eq_scalar nil_not_mem_segments (pairwise_in_order names),
    kept_congr fun base _ => hmem base, Kept, or_iff_left]
  rintro ⟨_, hplace, hnone, _⟩
  obtain ⟨found, hfound⟩ := hscalars place hplace
  rw [hnone] at hfound
  contradiction

/-- A record is rebuilt from all its columns if none of its records is empty, its names are
undotted, no record stands under the empty name at the top, and no alias is spelled like a
column. -/
theorem projection_column_names (r : Record) (hfilled : r.EachColumn Filled)
    (hdots : r.EachColumn Undotted) (htop : ∀ content, r.columns.find? "" ≠ some (.record content))
    (haliases : ∀ name ∈ r.columnNames, r.aliases.find? name = none) :
    (r.projection r.columnNames == r) = true := by
  have hscalars : ∀ path ∈ r.columnNames.map Path.segments,
      ∃ content, (r.withAliases ∅).node? path = some (.scalar content) := by
    intro path hpath
    simpa only [node?_with_aliases] using (column_names_iff hdots htop path).mp hpath
  rw [projection_with_aliases haliases]
  apply beq_of_scalars
  · rw [each_column_iff, columns_projection rfl]
    apply filled_fill
    intro path hpath
    apply hscalars path
    simpa only [List.mem_map, mem_in_order] using hpath
  · exact hfilled
  · intro path content
    rw [node?_projection_of_scalars rfl hscalars, node?_with_aliases, and_iff_right_iff_imp]
    intro hscalar
    exact ⟨path, (column_names_iff hdots htop path).mpr ⟨content, hscalar⟩, List.prefix_rfl⟩

def nestedColumns : Record :=
  (ofPairs [("", .null), ("ab", .integer 2), ("a", .record ((ofPairs [("b", .text "x"),
    ("", .record (ofPairs [("b", .boolean true)]))]).withAliases
      (Dictionary.ofList [("b", "c")])))]).withAliases (Dictionary.ofList [("b", "a.b")])

theorem projection_column_names_nested_columns :
    nestedColumns.EachColumn Filled ∧ nestedColumns.EachColumn Undotted ∧
      (∀ content, nestedColumns.columns.find? "" ≠ some (.record content)) ∧
      (∀ name ∈ nestedColumns.columnNames, nestedColumns.aliases.find? name = none) ∧
      (nestedColumns.projection nestedColumns.columnNames == nestedColumns) = true := by
  have hfilled : nestedColumns.EachColumn Filled := by decide +kernel
  have hdots : nestedColumns.EachColumn Undotted := by decide +kernel
  have htop : ∀ content, nestedColumns.columns.find? "" ≠ some (.record content) := by
    intro content h
    cases h
  have haliases : ∀ name ∈ nestedColumns.columnNames, nestedColumns.aliases.find? name = none := by
    intro name hname
    have hleaf : name ∈ nestedColumns.leafNames "" := List.mem_mergeSort.mp hname
    have hall : ∀ leaf ∈ nestedColumns.leafNames "", nestedColumns.aliases.find? leaf = none := by
      decide +kernel
    exact hall name hleaf
  exact ⟨hfilled, hdots, htop, haliases,
    projection_column_names nestedColumns hfilled hdots htop haliases⟩

end RelationalQuery.Record
