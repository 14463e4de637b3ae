import RelationalQuery.Proofs.Record.Equality
import RelationalQuery.Proofs.Record.Writing
import RelationalQuery.Record.Columns
import RelationalQuery.Record.Display

/-!
# The scalars of a record

A record is a tree whose leaves are scalars and empty records. When its column names have no dots,
the flattened names are the paths to its scalars, each read as one dotted name. A record without
empty records inside is determined by its scalars and the paths to them.
-/

set_option autoImplicit false

namespace RelationalQuery

mutual

def Value.EachColumn (p : String → Value → Prop) : Value → Prop
  | .scalar _ => True
  | .record content => Record.EachColumn p content

def Record.EachColumn (p : String → Value → Prop) : Record → Prop
  | ⟨columns, _⟩ => Record.EachColumnOf p columns

def Record.EachColumnOf (p : String → Value → Prop) {low : Option String} :
    Dictionary Value low → Prop
  | .nil => True
  | .cons name _ value rest => p name value ∧ Value.EachColumn p value ∧ Record.EachColumnOf p rest

end

section
variable (p : String → Value → Prop) [∀ name value, Decidable (p name value)]

mutual

def Value.decideEachColumn : (value : Value) → Decidable (value.EachColumn p)
  | .scalar _ => .isTrue trivial
  | .record content => Record.decideEachColumn content

def Record.decideEachColumn : (r : Record) → Decidable (r.EachColumn p)
  | ⟨columns, _⟩ => Record.decideEachColumnOf columns

def Record.decideEachColumnOf {low : Option String} :
    (d : Dictionary Value low) → Decidable (Record.EachColumnOf p d)
  | .nil => .isTrue trivial
  | .cons _ _ value rest =>
    @instDecidableAnd _ _ _ (@instDecidableAnd _ _ (Value.decideEachColumn value)
      (Record.decideEachColumnOf rest))

end

instance (r : Record) : Decidable (r.EachColumn p) := r.decideEachColumn p

end

def Undotted (name : String) (_ : Value) : Prop := '.' ∉ name.toList

def Filled (_ : String) : Value → Prop
  | .scalar _ => True
  | .record content => content.isEmpty = false

instance (name : String) (value : Value) : Decidable (Undotted name value) :=
  inferInstanceAs (Decidable (_ ∉ _))

instance (name : String) : (value : Value) → Decidable (Filled name value)
  | .scalar _ => .isTrue trivial
  | .record _ => inferInstanceAs (Decidable (_ = _))

theorem Record.each_column_iff {p : String → Value → Prop} {r : Record} :
    r.EachColumn p ↔ Record.EachColumnOf p r.columns := by
  cases r
  rfl

theorem Record.each_column_of_iff {p : String → Value → Prop} {low : Option String}
    {d : Dictionary Value low} : Record.EachColumnOf p d ↔
      ∀ name value, d.find? name = some value → p name value ∧ value.EachColumn p := by
  induction d with
  | nil => simp [EachColumnOf]
  | cons key above content rest ih =>
    rw [EachColumnOf, ih]
    constructor
    · rintro ⟨hp, hcontent, hrest⟩ name value hfind
      by_cases hname : name = key
      · simp only [Dictionary.find?, hname, if_true, Option.some.injEq] at hfind
        rw [hname, ← hfind]
        exact ⟨hp, hcontent⟩
      · exact hrest name value (by simpa [Dictionary.find?, hname] using hfind)
    · intro h
      have hkey := h key content (by simp [Dictionary.find?])
      refine ⟨hkey.1, hkey.2, fun name value hfind => h name value ?_⟩
      simpa [Dictionary.find?, Dictionary.ne_of_find?_eq_some hfind] using hfind

namespace Path

def front (base : String) : List String := if base = "" then [] else segments base

theorem segments_below {base name : String} (h : '.' ∉ name.toList) :
    segments (below base name) = front base ++ [name] := by
  by_cases hbase : base = ""
  · rw [below, front, if_pos hbase, if_pos hbase, segments_eq_singleton h, List.nil_append]
  · rw [below, front, if_neg hbase, if_neg hbase, segments_append, segments_eq_singleton h]

theorem front_of_ne {base : String} (h : base ≠ "") : front base = segments base := if_neg h

theorem below_eq_empty {base name : String} (h : below base name = "") : base = "" ∧ name = "" := by
  by_cases hbase : base = ""
  · rw [below, if_pos hbase] at h
    exact ⟨hbase, h⟩
  · rw [below, if_neg hbase, String.append_eq_empty_iff, String.append_eq_empty_iff] at h
    exact absurd h.1.1 hbase

end Path

mutual

/-- The names of the scalars in a value are the paths to them. The name of a record may not be
empty, for then it would be missing from the names below it. -/
theorem Value.leaf_names_iff {base : String} {path : List String} {value : Value}
    (hdots : value.EachColumn Undotted)
    (hbase : base = "" → ∀ content, value ≠ .record content) :
    (∃ name ∈ value.leafNames base, Path.segments name = path) ↔
      ∃ inner content, path = Path.segments base ++ inner ∧
        value.node? inner = some (.scalar content) := by
  match value with
  | .scalar found =>
    rw [Value.leafNames]
    constructor
    · rintro ⟨name, hname, rfl⟩
      rw [List.mem_singleton.mp hname]
      exact ⟨[], found, (List.append_nil _).symm, rfl⟩
    · rintro ⟨inner, content, rfl, hscalar⟩
      by_cases hinner : inner = []
      · exact ⟨base, List.mem_singleton_self base, by rw [hinner, List.append_nil]⟩
      · rw [Value.node?_scalar hinner] at hscalar
        contradiction
  | .record ⟨columns, aliases⟩ =>
    have hne : base ≠ "" := fun hempty => hbase hempty _ rfl
    rw [Value.leafNames, Record.leafNames,
      Record.leaf_names_of_iff hdots fun hempty => absurd hempty hne, Path.front_of_ne hne]
    constructor
    · rintro ⟨key, inner, value, content, hfind, rfl, hscalar⟩
      refine ⟨key :: inner, content, rfl, ?_⟩
      rw [Value.node?_record (List.cons_ne_nil _ _), Record.node?_cons, hfind]
      exact hscalar
    · rintro ⟨inner, content, rfl, hscalar⟩
      cases inner with
      | nil =>
        rw [Value.node?_nil] at hscalar
        cases hscalar
      | cons key inner =>
        rw [Value.node?_record (List.cons_ne_nil _ _), Record.node?_cons,
          Option.bind_eq_some_iff] at hscalar
        obtain ⟨value, hfind, hscalar⟩ := hscalar
        exact ⟨key, inner, value, content, hfind, rfl, hscalar⟩

theorem Record.leaf_names_of_iff {base : String} {path : List String} {low : Option String}
    {d : Dictionary Value low} (hdots : Record.EachColumnOf Undotted d)
    (hbase : base = "" → ∀ content, d.find? "" ≠ some (.record content)) :
    (∃ name ∈ Record.leafNamesOf base d, Path.segments name = path) ↔
      ∃ key inner value content, d.find? key = some value ∧
        path = Path.front base ++ key :: inner ∧ value.node? inner = some (.scalar content) := by
  match d with
  | .nil => simp [Record.leafNamesOf]
  | .cons name above value rest =>
    obtain ⟨hname, hvalue, hrest⟩ := hdots
    have hfind {key : String} {found : Value} (h : rest.find? key = some found) :
        (Dictionary.cons name above value rest).find? key = some found := by
      rw [Dictionary.find?, if_neg (Dictionary.ne_of_find?_eq_some h), h]
    have hrecord (hempty : Path.below base name = "") (content : Record) :
        value ≠ .record content := by
      obtain ⟨hbaseEmpty, hnameEmpty⟩ := Path.below_eq_empty hempty
      rintro rfl
      exact hbase hbaseEmpty content (by rw [Dictionary.find?, if_pos hnameEmpty.symm])
    have hfirst :
        (∃ leaf ∈ value.leafNames (Path.below base name), Path.segments leaf = path) ↔ _ :=
      Value.leaf_names_iff hvalue hrecord
    have hlater : (∃ leaf ∈ Record.leafNamesOf base rest, Path.segments leaf = path) ↔ _ :=
      Record.leaf_names_of_iff hrest fun hempty content heq => hbase hempty content (hfind heq)
    simp only [Record.leafNamesOf, List.mem_append, or_and_right, exists_or]
    rw [hfirst, hlater, Path.segments_below hname]
    constructor
    · rintro (⟨inner, content, rfl, hscalar⟩ | ⟨key, inner, found, content, hkey, hpath, hscalar⟩)
      · exact ⟨name, inner, value, content, if_pos rfl, List.append_assoc _ _ _, hscalar⟩
      · exact ⟨key, inner, found, content, hfind hkey, hpath, hscalar⟩
    · rintro ⟨key, inner, found, content, hkey, rfl, hscalar⟩
      by_cases heq : key = name
      · rw [heq, Dictionary.find?, if_pos rfl, Option.some.injEq] at hkey
        exact .inl ⟨inner, content, by rw [heq, List.append_assoc]; rfl, by rw [hkey, hscalar]⟩
      · rw [Dictionary.find?, if_neg heq] at hkey
        exact .inr ⟨key, inner, found, content, hkey, rfl, hscalar⟩

end

namespace Record

theorem column_names_iff {r : Record} (hdots : r.EachColumn Undotted)
    (htop : ∀ content, r.columns.find? "" ≠ some (.record content)) (path : List String) :
    path ∈ r.columnNames.map Path.segments ↔ ∃ content, r.node? path = some (.scalar content) := by
  have hnames : r.leafNames "" = leafNamesOf "" r.columns := by
    cases r
    rfl
  rw [List.mem_map]
  simp only [columnNames, List.mem_mergeSort]
  rw [hnames, leaf_names_of_iff (each_column_iff.mp hdots) fun _ => htop]
  constructor
  · rintro ⟨key, inner, value, content, hfind, rfl, hscalar⟩
    refine ⟨content, ?_⟩
    rw [Path.front, if_pos rfl, List.nil_append, node?_cons, hfind]
    exact hscalar
  · rintro ⟨content, hscalar⟩
    cases path with
    | nil => contradiction
    | cons key inner =>
      rw [node?_cons, Option.bind_eq_some_iff] at hscalar
      obtain ⟨value, hfind, hscalar⟩ := hscalar
      exact ⟨key, inner, value, content, hfind, rfl, hscalar⟩

theorem same_columns_of_find? {low low' : Option String} {d : Dictionary Value low}
    {e : Dictionary Value low'}
    (h : ∀ name, Option.Rel (fun v w => (v == w) = true) (d.find? name) (e.find? name)) :
    sameColumns d e = true := by
  induction d generalizing low' with
  | nil =>
    cases e with
    | nil => rfl
    | cons key above value rest =>
      have hkey := h key
      simp [Dictionary.find?] at hkey
  | cons key above value rest ih =>
    cases e with
    | nil =>
      have hkey := h key
      simp [Dictionary.find?] at hkey
    | cons key' above' value' rest' =>
      have heq : key = key' := by
        by_contra hne
        have hfound : (Dictionary.cons key' above' value' rest').find? key ≠ none := by
          intro hnone
          have hkey := h key
          rw [hnone, Dictionary.find?, if_pos rfl] at hkey
          cases hkey
        have hfound' : (Dictionary.cons key above value rest).find? key' ≠ none := by
          intro hnone
          have hkey := h key'
          rw [hnone, Dictionary.find?, if_pos rfl] at hkey
          cases hkey
        have hle : ¬ key < key' := Dictionary.not_lt_of_find?_eq hfound
        have hge : ¬ key' < key := Dictionary.not_lt_of_find?_eq hfound'
        exact hge (Dictionary.lt_of_not_lt_of_ne hle hne)
      subst heq
      have hvalue : (value == value') = true := by
        have hkey := h key
        simpa [Dictionary.find?] using hkey
      have hrest := ih (e := rest') fun name => by
        by_cases hname : name = key
        · rw [hname, rest.find?_eq_none_of_not_lt (String.lt_irrefl _),
            rest'.find?_eq_none_of_not_lt (String.lt_irrefl _)]
          exact Option.Rel.none
        · have hkey := h name
          simpa [Dictionary.find?, hname] using hkey
      rw [sameColumns, hrest, Bool.and_true, Bool.and_eq_true]
      exact ⟨by simp, hvalue⟩

end Record

theorem Value.exists_scalar (value : Value) (hfilled : Filled "" value)
    (hinside : value.EachColumn Filled) :
    ∃ path content, value.node? path = some (.scalar content) := by
  match value with
  | .scalar content => exact ⟨[], content, rfl⟩
  | .record ⟨.nil, aliases⟩ => contradiction
  | .record ⟨.cons name above first rest, aliases⟩ =>
    obtain ⟨hfirst, hinside, _⟩ := hinside
    obtain ⟨path, content, hscalar⟩ := Value.exists_scalar first hfirst hinside
    refine ⟨name :: path, content, ?_⟩
    rw [Value.node?_record (List.cons_ne_nil _ _), Record.node?_cons, Dictionary.find?, if_pos rfl]
    exact hscalar

mutual

theorem Value.beq_of_scalars (v w : Value) (hv : v.EachColumn Filled) (hw : w.EachColumn Filled)
    (h : ∀ path content, v.node? path = some (.scalar content) ↔
      w.node? path = some (.scalar content)) : (v == w) = true := by
  match v, w with
  | .scalar a, .scalar b =>
    have ha := (h [] a).mp rfl
    cases ha
    exact BEq.rfl
  | .scalar a, .record s =>
    have ha := (h [] a).mp rfl
    cases ha
  | .record r, .scalar b =>
    have hb := (h [] b).mpr rfl
    cases hb
  | .record r, .record s =>
    refine Record.beq_of_scalars r s hv hw fun path content => ?_
    by_cases hpath : path = []
    · simp [hpath, Record.node?_nil]
    · rw [← Value.node?_record hpath, ← Value.node?_record hpath, h]
termination_by sizeOf v

/-- Records without empty records inside are equal if they have the same scalars. -/
theorem Record.beq_of_scalars (r s : Record) (hr : r.EachColumn Filled) (hs : s.EachColumn Filled)
    (h : ∀ path content, r.node? path = some (.scalar content) ↔
      s.node? path = some (.scalar content)) : (r == s) = true := by
  rw [Record.beq_eq]
  apply Record.same_columns_of_find?
  intro name
  have hr := Record.each_column_of_iff.mp (Record.each_column_iff.mp hr) name
  have hs := Record.each_column_of_iff.mp (Record.each_column_iff.mp hs) name
  have hname (path : List String) (content : Scalar) := h (name :: path) content
  simp only [Record.node?_cons] at hname
  cases hv : r.columns.find? name with
  | none =>
    cases hw : s.columns.find? name with
    | none => exact Option.Rel.none
    | some w =>
      obtain ⟨path, content, hscalar⟩ := w.exists_scalar (hs w hw).1 (hs w hw).2
      have hnone := (hname path content).mpr (by rw [hw]; exact hscalar)
      rw [hv] at hnone
      contradiction
  | some v =>
    cases hw : s.columns.find? name with
    | none =>
      obtain ⟨path, content, hscalar⟩ := v.exists_scalar (hr v hv).1 (hr v hv).2
      have hnone := (hname path content).mp (by rw [hv]; exact hscalar)
      rw [hw] at hnone
      contradiction
    | some w =>
      rw [hv, hw] at hname
      have hsize := Nat.lt_trans (Dictionary.size_of_find?_lt hv) r.size_of_columns_lt
      exact Option.Rel.some (Value.beq_of_scalars v w (hr v hv).2 (hs w hw).2 hname)
termination_by sizeOf r

end

end RelationalQuery
