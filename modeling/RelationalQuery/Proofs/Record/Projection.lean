import Mathlib.Data.List.Induction
import RelationalQuery.Proofs.Record.Drafts
import RelationalQuery.Proofs.Record.Writing
import RelationalQuery.Proofs.Sorting

/-!
# What a projection holds

A projection fetches the value under each requested name and writes it, shorter names first. It
holds the scalars of the record that stand at or below a requested name, and a null for every
requested name at which the record stores nothing, unless a shorter name hides it. A name is
hidden below a missing name that is requested itself, which has become a null, and below a scalar
that the projection holds.

The names are taken apart into paths. One write changes what is held as adding its path to the
requested ones does (`kept_concat_append` and its neighbours), so induction over the ordered list
gives what all writes leave (`place_in_fill_eq_scalar`).
-/

set_option autoImplicit false

namespace RelationalQuery.Record

variable {r : Record} {paths : List (List String)} {path place : List String} {content : Scalar}

/-- A shorter path ends where nothing can stand below: at a missing requested value, or at a scalar
within a requested one. -/
def Hidden (r : Record) (paths : List (List String)) (place : List String) : Prop :=
  ∃ base, base <+: place ∧ base ≠ place ∧
    ((base ∈ paths ∧ r.node? base = none) ∨
      ((∃ path ∈ paths, path <+: base) ∧ ∃ found, r.node? base = some (.scalar found)))

def Kept (r : Record) (paths : List (List String)) (place : List String)
    (content : Scalar) : Prop :=
  ((∃ path ∈ paths, path <+: place) ∧ r.node? place = some (.scalar content)) ∨
    (content = .null ∧ place ∈ paths ∧ r.node? place = none ∧ ¬ Hidden r paths place)

theorem ne_of_between {first mid last : List String} (hmid : first <+: mid) (hlast : mid <+: last)
    (hne : first ≠ mid ∨ mid ≠ last) : first ≠ last := by
  rintro rfl
  have heq : first = mid := hmid.eq_of_length_le hlast.length_le
  rcases hne with hne | hne
  · exact hne heq
  · exact hne heq.symm

theorem Hidden.mono (h : Hidden r paths path) (hplace : path <+: place) :
    Hidden r paths place := by
  obtain ⟨base, hbase, hne, hstop⟩ := h
  exact ⟨base, hbase.trans hplace, ne_of_between hbase hplace (.inl hne), hstop⟩

theorem Hidden.node?_eq_none (hnil : [] ∉ paths) (h : Hidden r paths place) :
    r.node? place = none := by
  obtain ⟨base, hbase, hne, hstop⟩ := h
  simp only [node?_eq_place_in] at hstop ⊢
  rcases hstop with ⟨hmem, hnone⟩ | ⟨_, found, hscalar⟩
  · exact place_in_eq_none_below hnone (fun hb => hnil (hb ▸ hmem)) hbase
  · exact place_in_eq_none_of_blocked ⟨base, hbase, hne, found, hscalar⟩

theorem Kept.not_hidden (hnil : [] ∉ paths) (h : Kept r paths place content) :
    ¬ Hidden r paths place := by
  intro hidden
  rcases h with ⟨_, hscalar⟩ | ⟨_, _, _, hnot⟩
  · rw [hidden.node?_eq_none hnil] at hscalar
    contradiction
  · exact hnot hidden

/-- The shortest of the paths that hide a place is not hidden itself, so a scalar is kept there. -/
theorem Hidden.exists_kept (h : Hidden r paths place) :
    ∃ base, base <+: place ∧ base ≠ place ∧ ∃ found, Kept r paths base found := by
  induction hn : place.length using Nat.strongRecOn generalizing place with
  | ind n ih =>
    obtain ⟨base, hbase, hne, hstop⟩ := h
    by_cases hidden : Hidden r paths base
    · have hlt : base.length < n :=
        hn ▸ Nat.lt_of_le_of_ne hbase.length_le fun heq => hne (hbase.eq_of_length heq)
      obtain ⟨base', hbase', hne', hkept⟩ := ih base.length hlt hidden rfl
      exact ⟨base', hbase'.trans hbase, ne_of_between hbase' hbase (.inl hne'), hkept⟩
    · refine ⟨base, hbase, hne, ?_⟩
      rcases hstop with ⟨hmem, hnone⟩ | ⟨hpath, found, hscalar⟩
      · exact ⟨.null, .inr ⟨rfl, hmem, hnone, hidden⟩⟩
      · exact ⟨found, .inl ⟨hpath, hscalar⟩⟩

theorem hidden_iff_exists_kept : Hidden r paths place ↔
    ∃ base, base <+: place ∧ base ≠ place ∧ ∃ found, Kept r paths base found := by
  constructor
  · exact Hidden.exists_kept
  · rintro ⟨base, hbase, hne, found, ⟨hpath, hscalar⟩ | ⟨_, hmem, hnone, _⟩⟩
    · exact ⟨base, hbase, hne, .inr ⟨hpath, found, hscalar⟩⟩
    · exact ⟨base, hbase, hne, .inl ⟨hmem, hnone⟩⟩

theorem hidden_congr {paths' : List (List String)}
    (h : ∀ base, base <+: place → base ≠ place → (base ∈ paths ↔ base ∈ paths')) :
    Hidden r paths place ↔ Hidden r paths' place := by
  rw [Hidden, Hidden]
  refine exists_congr fun base => and_congr_right fun hbase => and_congr_right fun hne => ?_
  have hwithin : (∃ path ∈ paths, path <+: base) ↔ ∃ path ∈ paths', path <+: base := by
    refine exists_congr fun path => and_congr_left fun hpath => ?_
    exact h path (hpath.trans hbase) (ne_of_between hpath hbase (.inr hne))
  rw [h base hbase hne, hwithin]

theorem kept_congr {paths' : List (List String)}
    (h : ∀ base, base <+: place → (base ∈ paths ↔ base ∈ paths')) :
    Kept r paths place content ↔ Kept r paths' place content := by
  have hwithin : (∃ path ∈ paths, path <+: place) ↔ ∃ path ∈ paths', path <+: place :=
    exists_congr fun path => and_congr_left fun hpath => h path hpath
  rw [Kept, Kept, hwithin, h place List.prefix_rfl, hidden_congr fun base hbase _ => h base hbase]

theorem hidden_concat_self : Hidden r (paths ++ [path]) path ↔ Hidden r paths path := by
  refine hidden_congr fun base _ hne => ?_
  rw [List.mem_append, List.mem_singleton, or_iff_left hne]

theorem kept_concat_elsewhere (h : ¬ path <+: place) :
    Kept r (paths ++ [path]) place content ↔ Kept r paths place content := by
  refine kept_congr fun base hbase => ?_
  have hne : base ≠ path := fun heq => h (heq ▸ hbase)
  rw [List.mem_append, List.mem_singleton, or_iff_left hne]

theorem kept_concat_of_hidden (hnil : [] ∉ paths) (hpath : path ≠ []) (h : Hidden r paths path) :
    Kept r (paths ++ [path]) place content ↔ Kept r paths place content := by
  by_cases hplace : path <+: place
  · have hnil' : [] ∉ paths ++ [path] := by simp [hnil, hpath.symm]
    have before : Hidden r paths place := h.mono hplace
    have after : Hidden r (paths ++ [path]) place :=
      (hidden_concat_self.mpr h).mono hplace
    exact ⟨fun hkept => absurd after (hkept.not_hidden hnil'),
      fun hkept => absurd before (hkept.not_hidden hnil)⟩
  · exact kept_concat_elsewhere hplace

theorem kept_concat_append (hpath : path ≠ []) (hlength : ∀ p ∈ paths, p.length ≤ path.length)
    (h : ¬ Hidden r paths path) (rest : List String) :
    Kept r (paths ++ [path]) (path ++ rest) content ↔
      (Value.ofOption (r.stored? path)).node? rest = some (.scalar content) := by
  have hmem : path ∈ paths ++ [path] := List.mem_concat_self
  have hnode : r.node? (path ++ rest) = (r.stored? path).bind (·.node? rest) :=
    node?_append hpath rest
  cases hstored : r.stored? path with
  | none =>
    rw [hstored, Option.bind_none] at hnode
    by_cases hrest : rest = []
    · subst hrest
      rw [List.append_nil] at hnode ⊢
      constructor
      · rintro (⟨_, hscalar⟩ | ⟨rfl, _⟩)
        · rw [hnode] at hscalar
          contradiction
        · rfl
      · intro hnull
        cases hnull
        exact .inr ⟨rfl, hmem, hnode, fun hidden => h (hidden_concat_self.mp hidden)⟩
    · have hidden : Hidden r (paths ++ [path]) (path ++ rest) :=
        ⟨path, List.prefix_append path rest, by simpa using hrest,
          .inl ⟨hmem, by rw [node?, hstored, Option.map_none]⟩⟩
      rw [Value.ofOption, Option.getD_none, Value.node?_scalar hrest]
      constructor
      · rintro (⟨_, hscalar⟩ | ⟨_, _, _, hnot⟩)
        · rw [hnode] at hscalar
          contradiction
        · exact absurd hidden hnot
      · intro hnone
        contradiction
  | some value =>
    rw [hstored, Option.bind_some] at hnode
    rw [Value.ofOption, Option.getD_some, ← hnode]
    constructor
    · rintro (⟨_, hscalar⟩ | ⟨_, hplace, hnone, _⟩)
      · exact hscalar
      -- A longer path would have to be requested before this one, but those are not longer.
      · have hrest : rest = [] := by
          rw [List.mem_append, List.mem_singleton, List.append_right_eq_self] at hplace
          rcases hplace with hplace | hplace
          · have hle := hlength _ hplace
            rw [List.length_append] at hle
            exact List.length_eq_zero_iff.mp (by omega)
          · exact hplace
        rw [hnode, hrest, Value.node?_nil] at hnone
        contradiction
    · intro hscalar
      exact .inl ⟨⟨path, hmem, List.prefix_append path rest⟩, hscalar⟩

def fill (r : Record) (paths : List (List String)) : Dictionary Value :=
  paths.foldl (fun columns path => write columns path (.ofOption (r.stored? path))) ∅

theorem fill_concat : fill r (paths ++ [path]) =
    write (fill r paths) path (.ofOption (r.stored? path)) := by
  rw [fill, List.foldl_append]
  rfl

/-- When no path is written before a shorter one, the scalars below the columns are those that
belong there. A write is blocked if and only if its path is hidden. -/
theorem place_in_fill_eq_scalar (hnil : [] ∉ paths)
    (hsorted : paths.Pairwise (·.length ≤ ·.length)) (place : List String) (content : Scalar) :
    placeIn (fill r paths) place = some (.scalar content) ↔ Kept r paths place content := by
  induction paths using List.reverseRecOn generalizing place content with
  | nil =>
    rw [fill, List.foldl_nil, place_in_empty]
    simp [Kept]
  | append_singleton paths path ih =>
    rw [List.mem_append, List.mem_singleton, not_or] at hnil
    obtain ⟨hnil, hpath⟩ := hnil
    obtain ⟨hsorted, _, hlength⟩ := List.pairwise_append.mp hsorted
    have hheld := ih hnil hsorted
    have hblocked : Blocked (fill r paths) path ↔ Hidden r paths path := by
      rw [Blocked, hidden_iff_exists_kept]
      simp only [hheld]
    rw [fill_concat]
    by_cases hidden : Hidden r paths path
    · rw [place_in_write_of_blocked (hblocked.mpr hidden), hheld,
        kept_concat_of_hidden hnil (Ne.symm hpath) hidden]
    · have hopen : ¬ Blocked (fill r paths) path := fun hb => hidden (hblocked.mp hb)
      by_cases hplace : path <+: place
      · obtain ⟨rest, rfl⟩ := hplace
        have hshort : ∀ p ∈ paths, p.length ≤ path.length :=
          fun p hp => hlength p hp path (List.mem_singleton_self path)
        rw [place_in_write (Ne.symm hpath) hopen, if_pos (List.prefix_append path rest),
          List.drop_left, kept_concat_append (Ne.symm hpath) hshort hidden]
      · rw [place_in_write_eq_scalar (Ne.symm hpath) hopen hplace, hheld,
          kept_concat_elsewhere hplace]

def Requested (names : List String) (name : String) : Prop :=
  ∃ requested ∈ names, Path.Within name requested

def Hides (r : Record) (names : List String) (name : String) : Prop :=
  (name ∈ names ∧ r.lookup? name = none) ∨
    (Requested names name ∧ ∃ found, r.lookup? name = some (.scalar found))

section
variable {names : List String} {name : String}

theorem lookup?_of_aliases (hr : r.aliases = ∅) (name : String) :
    r.lookup? name = r.stored? (Path.segments name) := by
  rw [lookup?, resolve, hr]
  rfl

theorem nil_not_mem_segments : [] ∉ names.map Path.segments := by
  intro hmem
  obtain ⟨name, _, hnil⟩ := List.mem_map.mp hmem
  exact Path.segments_ne_nil name hnil

theorem segments_mem : Path.segments name ∈ names.map Path.segments ↔ name ∈ names :=
  List.mem_map_of_injective fun _ _ => Path.segments_injective

theorem requested_iff : Requested names name ↔
    ∃ path ∈ names.map Path.segments, path <+: Path.segments name := by
  simp only [Requested, Path.within_iff, List.mem_map, exists_exists_and_eq_and]

theorem hides_iff (hr : r.aliases = ∅) : Hides r names name ↔
    (Path.segments name ∈ names.map Path.segments ∧ r.node? (Path.segments name) = none) ∨
      ((∃ path ∈ names.map Path.segments, path <+: Path.segments name) ∧
        ∃ found, r.node? (Path.segments name) = some (.scalar found)) := by
  rw [Hides, requested_iff, segments_mem, lookup?_of_aliases hr, node?, Option.map_eq_none_iff]
  simp only [← node?_eq_some_scalar, node?]

theorem hidden_segments_iff (hr : r.aliases = ∅) :
    Hidden r (names.map Path.segments) (Path.segments name) ↔
      ∃ base, Path.Below name base ∧ Hides r names base := by
  constructor
  · rintro ⟨path, hpath, hne, hstop⟩
    have hpathne : path ≠ [] := by
      rintro rfl
      rcases hstop with ⟨hmem, _⟩ | ⟨⟨path, hmem, hpre⟩, _⟩
      · exact nil_not_mem_segments hmem
      · exact nil_not_mem_segments (List.prefix_nil.mp hpre ▸ hmem)
    obtain ⟨base, rfl⟩ := Path.exists_segments hpathne hpath.subset
    exact ⟨base, Path.below_iff.mpr ⟨hpath, hne⟩, (hides_iff hr).mpr hstop⟩
  · rintro ⟨base, hbelow, hhides⟩
    obtain ⟨hpre, hne⟩ := Path.below_iff.mp hbelow
    exact ⟨Path.segments base, hpre, hne, (hides_iff hr).mp hhides⟩

end

instance : Std.TransCmp Path.order :=
  inferInstanceAs (Std.TransCmp (compareLex (compareOn Path.dots) compare))

theorem length_le_of_order {a b : String} (h : (Path.order a b).isLE = true) :
    (Path.segments a).length ≤ (Path.segments b).length := by
  rw [Path.order, Ordering.isLE_then_iff_and, Nat.isLE_compare] at h
  rw [Path.length_segments, Path.length_segments]
  exact Nat.add_le_add_right h.1 1

def inOrder (names : List String) : List String :=
  names.mergeSort fun a b => (Path.order a b).isLE

theorem mem_in_order {names : List String} {name : String} :
    name ∈ inOrder names ↔ name ∈ names := List.mem_mergeSort

theorem pairwise_in_order (names : List String) :
    ((inOrder names).map Path.segments).Pairwise (·.length ≤ ·.length) :=
  List.pairwise_map.mpr ((pairwise_merge_sort_is_le names).imp length_le_of_order)

theorem columns_of_paths_map (value : String → Value) (names : List String) :
    (ofPaths (names.map fun name => (name, value name))).columns = (inOrder names).foldl
      (fun columns name => write columns (Path.segments name) (value name)) ∅ := by
  have hsort : (inOrder names).map (fun name => (name, value name)) =
      (names.map fun name => (name, value name)).mergeSort
        fun a b => (Path.order a.1 b.1).isLE := List.map_mergeSort fun _ _ _ _ => rfl
  rw [of_paths_eq_write_all, ← hsort, writeAll]
  simp only [List.foldl_map]

theorem columns_projection (hr : r.aliases = ∅) (names : List String) :
    (r.projection names).columns = fill r ((inOrder names).map Path.segments) := by
  have hget (name : String) : r.get name = .ofOption (r.stored? (Path.segments name)) := by
    rw [get, lookup?_of_aliases hr]
  rw [projection, columns_of_paths_map, fill]
  simp only [List.foldl_map, hget]

/-- A projection of a record without aliases holds a scalar of the record that stands at or below a
requested name, and null at a requested name under which nothing is stored and nothing hides. -/
theorem lookup?_projection_iff (r : Record) (hr : r.aliases = ∅) (names : List String)
    (name : String) (content : Scalar) :
    (r.projection names).lookup? name = some (.scalar content) ↔
      (Requested names name ∧ r.lookup? name = some (.scalar content)) ∨
      (content = .null ∧ name ∈ names ∧ r.lookup? name = none ∧
        ∀ base, Path.Below name base → ¬ Hides r names base) := by
  have hmem (path : List String) : path ∈ (inOrder names).map Path.segments ↔
      path ∈ names.map Path.segments := by
    simp only [List.mem_map, mem_in_order]
  have hnil : [] ∉ (inOrder names).map Path.segments := nil_not_mem_segments
  rw [lookup?_of_aliases rfl, ← node?_eq_some_scalar, node?_eq_place_in, columns_projection hr,
    place_in_fill_eq_scalar hnil (pairwise_in_order names), kept_congr fun base _ => hmem base,
    Kept, ← requested_iff, segments_mem, hidden_segments_iff hr, node?_eq_some_scalar, node?,
    Option.map_eq_none_iff, lookup?_of_aliases hr]
  simp only [not_exists, not_and]

def assignment : Record :=
  join (ofPairs [("id", .integer 0), ("name", .text "Michael Scott")])
    (ofPairs [("id", .integer 1)])

def overlapping : List String := ["left.id.x", "extra.deep", "left", "left.id", "extra"]

theorem lookup?_projection_overlapping :
    assignment.aliases = ∅ ∧
      (assignment.projection overlapping).lookup? "left.name" = some (.text "Michael Scott") ∧
      (assignment.projection overlapping).lookup? "extra" = some .null ∧
      ∀ content, (assignment.projection overlapping).lookup? "extra.deep" ≠ some (.scalar content) ∧
        (assignment.projection overlapping).lookup? "left.id.x" ≠ some (.scalar content) := by
  have hproj := lookup?_projection_iff assignment rfl overlapping
  refine ⟨rfl, ?_, ?_, fun content => ⟨fun hdeep => ?_, fun hbelow => ?_⟩⟩
  · exact (hproj "left.name" _).mpr (.inl ⟨⟨"left", by decide, .inr ⟨"name", by decide⟩⟩, rfl⟩)
  · refine (hproj "extra" _).mpr (.inr ⟨rfl, by decide, rfl, fun base hbase => ?_⟩)
    exact absurd (Path.dots_lt_of_below hbase) (Nat.not_lt_zero _)
  · rcases (hproj "extra.deep" content).mp hdeep with ⟨_, hfound⟩ | ⟨_, _, _, hopen⟩
    · cases hfound
    · exact hopen "extra" ⟨"deep", by decide⟩ (.inl ⟨by decide, rfl⟩)
  · rcases (hproj "left.id.x" content).mp hbelow with ⟨_, hfound⟩ | ⟨_, _, _, hopen⟩
    · cases hfound
    · exact hopen "left.id" ⟨"x", by decide⟩
        (.inr ⟨⟨"left.id", by decide, .inl rfl⟩, .integer 0, rfl⟩)

end RelationalQuery.Record
