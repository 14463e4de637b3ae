import Mathlib.Data.List.Nodup
import RelationalQuery.Proofs.Record.Leaves

/-!
# Which names the flattened columns have

The flattened names of a record are the names of the paths to its scalars, one for each path. A path
is named by joining its segments with dots, and that name leads back along the path. The exception
is a path that goes on below an empty name at the top: a record stored there lends its columns no
name of its own, so their names lead elsewhere. This is the only way in which a name can be
repeated or lead to nothing (`column_names_addressable_iff`).
-/

set_option autoImplicit false

namespace RelationalQuery

mutual

def Value.scalarPaths : Value → List (List String)
  | .scalar _ => [[]]
  | .record content => Record.scalarPaths content

def Record.scalarPaths : Record → List (List String)
  | ⟨columns, _⟩ => Record.scalarPathsOf columns

def Record.scalarPathsOf {low : Option String} : Dictionary Value low → List (List String)
  | .nil => []
  | .cons name _ value rest =>
    (Value.scalarPaths value).map (name :: ·) ++ Record.scalarPathsOf rest

end

mutual

theorem Value.mem_scalar_paths {value : Value} {path : List String} :
    path ∈ value.scalarPaths ↔ ∃ content, value.node? path = some (.scalar content) := by
  match value with
  | .scalar found =>
    rw [Value.scalarPaths, List.mem_singleton]
    constructor
    · rintro rfl
      exact ⟨found, rfl⟩
    · rintro ⟨content, hscalar⟩
      by_contra hpath
      rw [Value.node?_scalar hpath] at hscalar
      contradiction
  | .record ⟨columns, aliases⟩ =>
    rw [Value.scalarPaths, Record.scalarPaths, Record.mem_scalar_paths_of]
    cases path with
    | nil => simp [Value.node?_nil, Value.node]
    | cons name inner =>
      rw [Value.node?_record (List.cons_ne_nil _ _), Record.node?_cons]
      simp only [Option.bind_eq_some_iff, List.cons.injEq]
      constructor
      · rintro ⟨_, _, value, hfind, ⟨rfl, rfl⟩, content, hscalar⟩
        exact ⟨content, value, hfind, hscalar⟩
      · rintro ⟨content, value, hfind, hscalar⟩
        exact ⟨name, inner, value, hfind, ⟨rfl, rfl⟩, content, hscalar⟩

theorem Record.mem_scalar_paths_of {low : Option String} {d : Dictionary Value low}
    {path : List String} : path ∈ Record.scalarPathsOf d ↔
      ∃ name inner value, d.find? name = some value ∧ path = name :: inner ∧
        ∃ content, value.node? inner = some (.scalar content) := by
  match d with
  | .nil => simp [Record.scalarPathsOf]
  | .cons key above first rest =>
    rw [Record.scalarPathsOf, List.mem_append, List.mem_map, Record.mem_scalar_paths_of]
    constructor
    · rintro (⟨inner, hinner, rfl⟩ | ⟨name, inner, value, hfind, rfl, hscalar⟩)
      · exact ⟨key, inner, first, if_pos rfl, rfl, Value.mem_scalar_paths.mp hinner⟩
      · refine ⟨name, inner, value, ?_, rfl, hscalar⟩
        rw [Dictionary.find?, if_neg (Dictionary.ne_of_find?_eq_some hfind), hfind]
    · rintro ⟨name, inner, value, hfind, rfl, hscalar⟩
      by_cases hname : name = key
      · rw [hname, Dictionary.find?, if_pos rfl, Option.some.injEq] at hfind
        exact .inl ⟨inner, Value.mem_scalar_paths.mpr (hfind ▸ hscalar), by rw [hname]⟩
      · rw [Dictionary.find?, if_neg hname] at hfind
        exact .inr ⟨name, inner, value, hfind, rfl, hscalar⟩

end

mutual

theorem Value.nodup_scalar_paths (value : Value) : value.scalarPaths.Nodup := by
  match value with
  | .scalar _ => exact List.nodup_singleton []
  | .record ⟨columns, _⟩ => exact Record.nodup_scalar_paths_of columns

theorem Record.nodup_scalar_paths_of {low : Option String} (d : Dictionary Value low) :
    (Record.scalarPathsOf d).Nodup := by
  match d with
  | .nil => exact List.nodup_nil
  | .cons key above first rest =>
    rw [Record.scalarPathsOf, List.nodup_append]
    refine ⟨?_, Record.nodup_scalar_paths_of rest, ?_⟩
    · exact (Value.nodup_scalar_paths first).map fun _ _ heq => (List.cons.inj heq).2
    · rintro _ hfirst path hrest rfl
      obtain ⟨inner, _, heq⟩ := List.mem_map.mp hfirst
      obtain ⟨name, _, value, hfind, rfl, _⟩ := Record.mem_scalar_paths_of.mp hrest
      exact Dictionary.ne_of_find?_eq_some hfind (List.cons.inj heq).1.symm

end

namespace Path

def columnName (path : List String) : String := path.foldl below ""

theorem segments_foldl_below {base : String} {path : List String} (hbase : base ≠ "")
    (hdots : ∀ segment ∈ path, '.' ∉ segment.toList) :
    segments (path.foldl below base) = segments base ++ path := by
  induction path generalizing base with
  | nil => exact (List.append_nil _).symm
  | cons name path ih =>
    obtain ⟨hname, hpath⟩ := List.forall_mem_cons.mp hdots
    have hbelow : below base name ≠ "" := fun hempty => hbase (below_eq_empty hempty).1
    rw [List.foldl_cons, ih hbelow hpath, segments_below hname, front_of_ne hbase,
      List.append_assoc, List.singleton_append]

/-- A path is read back from its name, unless it goes on below an empty name. -/
theorem segments_column_name {path : List String} (hne : path ≠ [])
    (hdots : ∀ segment ∈ path, '.' ∉ segment.toList)
    (htop : ∀ inner, path = "" :: inner → inner = []) :
    segments (columnName path) = path := by
  cases path with
  | nil => contradiction
  | cons name inner =>
    obtain ⟨hname, hinner⟩ := List.forall_mem_cons.mp hdots
    have hbelow : below "" name = name := if_pos rfl
    rw [columnName, List.foldl_cons, hbelow]
    by_cases hempty : name = ""
    · have hlast : inner = [] := htop inner (by rw [hempty])
      rw [hlast, List.foldl_nil, segments_eq_singleton hname]
    · rw [segments_foldl_below hempty hinner, segments_eq_singleton hname, List.singleton_append]

theorem eq_nil_of_segments_foldl_below {base : String} {path rest : List String}
    (hbase : ∀ rest, segments base = "" :: rest → rest = [])
    (hdots : ∀ segment ∈ path, '.' ∉ segment.toList)
    (h : segments (path.foldl below base) = "" :: rest) : rest = [] := by
  induction path generalizing base with
  | nil => exact hbase rest h
  | cons name path ih =>
    obtain ⟨hname, hpath⟩ := List.forall_mem_cons.mp hdots
    refine ih (fun later hlater => ?_) hpath h
    rw [segments_below hname] at hlater
    by_cases hempty : base = ""
    · rw [front, if_pos hempty, List.nil_append] at hlater
      exact (List.cons.inj hlater).2.symm
    · rw [front_of_ne hempty] at hlater
      cases hsegments : segments base with
      | nil => exact absurd hsegments (segments_ne_nil base)
      | cons first inner =>
        rw [hsegments] at hlater
        have hfirst : first = "" := (List.cons.inj hlater).1
        have hinner : inner = [] := hbase inner (by rw [hsegments, hfirst])
        exact absurd (segments_injective (by rw [hsegments, hfirst, hinner]; rfl)) hempty

end Path

mutual

/-- The flattened names are the names of the paths to scalars, one for each path. -/
theorem Value.leaf_names_eq (base : String) (value : Value) :
    value.leafNames base = value.scalarPaths.map (·.foldl Path.below base) := by
  match value with
  | .scalar _ => rfl
  | .record ⟨columns, _⟩ => exact Record.leaf_names_of_eq base columns

theorem Record.leaf_names_of_eq (base : String) {low : Option String} (d : Dictionary Value low) :
    Record.leafNamesOf base d = (Record.scalarPathsOf d).map (·.foldl Path.below base) := by
  match d with
  | .nil => rfl
  | .cons key above first rest =>
    rw [Record.leafNamesOf, Record.scalarPathsOf, List.map_append, List.map_map,
      Value.leaf_names_eq, Record.leaf_names_of_eq base rest]
    rfl

end

theorem Value.each_segment {p : String → Value → Prop} {value : Value} {path : List String}
    {node : Node} (heach : value.EachColumn p) (h : value.node? path = some node) :
    ∀ segment ∈ path, ∃ inside, p segment inside := by
  induction path generalizing value with
  | nil => exact List.forall_mem_nil _
  | cons name path ih =>
    cases value with
    | scalar content =>
      rw [Value.node?_scalar (List.cons_ne_nil _ _)] at h
      contradiction
    | record content =>
      rw [Value.node?_record (List.cons_ne_nil _ _), Record.node?_cons,
        Option.bind_eq_some_iff] at h
      obtain ⟨inside, hfind, hnode⟩ := h
      obtain ⟨hname, hinside⟩ :=
        Record.each_column_of_iff.mp (Record.each_column_iff.mp heach) name inside hfind
      exact List.forall_mem_cons.mpr ⟨⟨inside, hname⟩, ih hinside hnode⟩

namespace Record

variable {r : Record}

theorem mem_scalar_paths {path : List String} :
    path ∈ r.scalarPaths ↔ ∃ content, r.stored? path = some (.scalar content) := by
  simp only [← node?_eq_some_scalar]
  cases path with
  | nil =>
    rw [show r.scalarPaths = (Value.record r).scalarPaths from rfl, Value.mem_scalar_paths]
    simp [Value.node?_nil, Value.node, node?_nil]
  | cons name path =>
    rw [show r.scalarPaths = (Value.record r).scalarPaths from rfl, Value.mem_scalar_paths,
      Value.node?_record (List.cons_ne_nil _ _)]

theorem column_names_perm (r : Record) :
    r.columnNames.Perm (r.scalarPaths.map Path.columnName) := by
  rw [columnNames, show r.leafNames "" = (Value.record r).leafNames "" from rfl,
    Value.leaf_names_eq]
  exact List.mergeSort_perm _ _

theorem pairwise_sorted_names (names : List String) :
    (names.mergeSort fun a b => decide (a ≤ b)).Pairwise (· ≤ ·) := by
  have hsorted : (names.mergeSort fun a b => decide (a ≤ b)).Pairwise fun a b => decide (a ≤ b) :=
    List.pairwise_mergeSort (by simpa using fun _ _ _ => String.le_trans)
      (by simpa using String.le_total) names
  exact hsorted.imp of_decide_eq_true

theorem column_names_sorted (r : Record) : r.columnNames.Pairwise (· ≤ ·) :=
  pairwise_sorted_names (r.leafNames "")

theorem each_scalar_path {p : String → Value → Prop} (heach : r.EachColumn p) {path : List String}
    (h : path ∈ r.scalarPaths) : path ≠ [] ∧ ∀ segment ∈ path, ∃ inside, p segment inside := by
  obtain ⟨content, hscalar⟩ := mem_scalar_paths.mp h
  have hne : path ≠ [] := by
    rintro rfl
    contradiction
  have hnode : (Value.record r).node? path = some (.scalar content) := by
    rw [Value.node?_record hne, node?_eq_some_scalar, hscalar]
  have hvalue : (Value.record r).EachColumn p := heach
  exact ⟨hne, Value.each_segment hvalue hnode⟩

theorem undotted_scalar_path (hdots : r.EachColumn Undotted) {path : List String}
    (h : path ∈ r.scalarPaths) : path ≠ [] ∧ ∀ segment ∈ path, '.' ∉ segment.toList := by
  obtain ⟨hne, hsegments⟩ := each_scalar_path hdots h
  refine ⟨hne, fun segment hsegment => ?_⟩
  obtain ⟨_, hundotted⟩ := hsegments segment hsegment
  exact hundotted

def ReadBack (r : Record) : Prop :=
  ∀ path ∈ r.scalarPaths, Path.segments (Path.columnName path) = path

theorem mem_column_names_iff (h : r.ReadBack) {name : String} : name ∈ r.columnNames ↔
    ∃ content, r.stored? (Path.segments name) = some (.scalar content) := by
  rw [(column_names_perm r).mem_iff, List.mem_map, ← mem_scalar_paths]
  constructor
  · rintro ⟨path, hpath, rfl⟩
    rwa [h path hpath]
  · intro hpath
    exact ⟨Path.segments name, hpath, Path.segments_injective (h _ hpath)⟩

theorem nodup_column_names (h : r.ReadBack) : r.columnNames.Nodup := by
  rw [(column_names_perm r).nodup_iff]
  refine (Value.nodup_scalar_paths (.record r)).map_on fun path hpath path' hpath' heq => ?_
  rw [← h path hpath, heq, h path' hpath']

theorem read_back_of_top (hdots : r.EachColumn Undotted)
    (htop : ∀ inner content, inner ≠ [] → r.stored? ("" :: inner) ≠ some (.scalar content)) :
    r.ReadBack := by
  intro path hpath
  obtain ⟨hne, hsegments⟩ := undotted_scalar_path hdots hpath
  refine Path.segments_column_name hne hsegments ?_
  rintro inner rfl
  by_contra hinner
  obtain ⟨content, hscalar⟩ := mem_scalar_paths.mp hpath
  exact htop inner content hinner hscalar

theorem dotted_not_mem_column_names (hdots : r.EachColumn Undotted) {inner : List String}
    (hinner : inner ≠ []) (hpath : "" :: inner ∈ r.scalarPaths) :
    Path.dotted ("" :: inner) ∉ r.columnNames := by
  intro hmem
  obtain ⟨hne, hsegments⟩ := undotted_scalar_path hdots hpath
  obtain ⟨path, hpath', hname⟩ := List.mem_map.mp ((column_names_perm r).mem_iff.mp hmem)
  have hread : Path.segments (path.foldl Path.below "") = "" :: inner := by
    rw [← Path.segments_dotted hne hsegments, ← hname, Path.columnName]
  have hempty : ∀ rest, Path.segments "" = "" :: rest → rest = [] :=
    fun rest h => (List.cons.inj h).2.symm
  have hundotted := (undotted_scalar_path hdots hpath').2
  exact hinner (Path.eq_nil_of_segments_foldl_below hempty hundotted hread)

/-- The flattened names are sorted. Each of them appears once and they are exactly the names that
lead to a scalar, if and only if no scalar is stored inside a record that has the empty name. -/
theorem column_names_addressable_iff (r : Record) (hdots : r.EachColumn Undotted) :
    r.columnNames.Pairwise (· ≤ ·) ∧
      ((r.columnNames.Nodup ∧ ∀ name, name ∈ r.columnNames ↔
          ∃ content, r.stored? (Path.segments name) = some (.scalar content)) ↔
        ∀ inner content, inner ≠ [] → r.stored? ("" :: inner) ≠ some (.scalar content)) := by
  refine ⟨column_names_sorted r, ?_, ?_⟩
  · rintro ⟨_, hnames⟩ inner content hinner hscalar
    have hpath : "" :: inner ∈ r.scalarPaths := mem_scalar_paths.mpr ⟨content, hscalar⟩
    obtain ⟨hne, hsegments⟩ := undotted_scalar_path hdots hpath
    refine dotted_not_mem_column_names hdots hinner hpath ((hnames _).mpr ⟨content, ?_⟩)
    rw [Path.segments_dotted hne hsegments, hscalar]
  · intro htop
    have hread := read_back_of_top hdots htop
    exact ⟨nodup_column_names hread, fun _ => mem_column_names_iff hread⟩

def emptyNames : Record :=
  ofPairs [("", .integer 1), ("a", .record (ofPairs [("", .record (ofPairs [("b", .null)])),
    ("c", .text "x")])), ("d", .record ∅)]

theorem column_names_addressable_iff_empty_names :
    emptyNames.EachColumn Undotted ∧ emptyNames.columnNames.Nodup ∧
      ∀ name, name ∈ emptyNames.columnNames ↔
        ∃ content, emptyNames.stored? (Path.segments name) = some (.scalar content) := by
  have hdots : emptyNames.EachColumn Undotted := by decide +kernel
  refine ⟨hdots, (column_names_addressable_iff emptyNames hdots).2.mpr ?_⟩
  intro inner content hinner
  rw [stored?_cons, show emptyNames.columns.find? "" = some (.integer 1) from rfl,
    Option.bind_some, Value.stored?_scalar hinner]
  nofun

def namelessRecord : Record := ofPairs [("", .record (ofPairs [("a", .integer 1)]))]

/-- Its column appears under a name that leads to nothing, and the name that leads to its scalar
does not appear. -/
theorem column_names_unaddressable :
    namelessRecord.EachColumn Undotted ∧ namelessRecord.columnNames = ["a"] ∧
      (namelessRecord.stored? (Path.segments "a")).isNone ∧
      namelessRecord.stored? (Path.segments ".a") = some (.scalar (.integer 1)) := by
  refine ⟨by decide +kernel, by decide +kernel, by decide +kernel, rfl⟩

end Record
end RelationalQuery
