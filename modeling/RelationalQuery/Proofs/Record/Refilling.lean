import RelationalQuery.Proofs.Record.Places
import RelationalQuery.Proofs.Record.Projection

/-!
# Writing what was written

Columns that have been filled with values at some paths, shorter paths first, are covered by these
paths: all that stands in them stands at or below one of the paths, or on the way to one, and a path
at which nothing stands leads through a scalar. Covered columns are not changed when they are filled
anew with what they hold at the same paths. So a projection is its own projection on the same names,
whatever the values that were written first.

Paths that do not begin with one another are not in each other's way, and the value of each is there
in the end. Then the values under some of the names can be read off the projection on all of them.
-/

set_option autoImplicit false

namespace RelationalQuery

def Spanned (columns : Dictionary Value) (paths : List (List String)) (place : List String) :
    Prop :=
  ∃ path ∈ paths, path <+: place ∨ (place <+: path ∧ placeIn columns path ≠ none)

/-- What stands in the columns belongs to the paths, and a path at which nothing stands leads
through a scalar. -/
structure Covered (columns : Dictionary Value) (paths : List (List String)) : Prop where
  spanned : ∀ place, placeIn columns place ≠ none → Spanned columns paths place
  blocked : ∀ path ∈ paths, placeIn columns path = none → Blocked columns path

variable {columns : Dictionary Value} {paths : List (List String)} {path place : List String}
  {value : Value}

theorem Covered.exists_path {content : Scalar} (h : Covered columns paths)
    (hscalar : placeIn columns place = some (.scalar content)) :
    ∃ path ∈ paths, path <+: place := by
  have hplace : placeIn columns place ≠ none := by
    rw [hscalar]
    simp
  obtain ⟨path, hmem, hbelow | ⟨hbefore, hstored⟩⟩ := h.spanned place hplace
  · exact ⟨path, hmem, hbelow⟩
  · have heq : place = path := by
      by_contra hne
      exact hstored (place_in_eq_none_of_blocked ⟨place, hbefore, hne, content, hscalar⟩)
    exact ⟨path, hmem, heq ▸ List.prefix_rfl⟩

theorem Covered.write_of_blocked (h : Covered columns paths) (hblocked : Blocked columns path) :
    Covered (Record.write columns path value) (paths ++ [path]) := by
  have hsame : ∀ place, placeIn (Record.write columns path value) place = placeIn columns place :=
    place_in_write_of_blocked hblocked
  constructor
  · intro place hplace
    rw [hsame] at hplace
    obtain ⟨p, hp, hway⟩ := h.spanned place hplace
    rw [← hsame] at hway
    exact ⟨p, List.mem_append_left _ hp, hway⟩
  · intro p hp hnone
    simp only [Blocked, hsame] at hnone ⊢
    rcases List.mem_append.mp hp with hp | hp
    · exact h.blocked p hp hnone
    · rw [List.mem_singleton.mp hp]
      exact hblocked

theorem Covered.write_of_not_blocked (h : Covered columns paths) (hpath : path ≠ [])
    (hlength : ∀ p ∈ paths, p.length ≤ path.length) (hopen : ¬ Blocked columns path) :
    Covered (Record.write columns path value) (paths ++ [path]) := by
  have hwritten : placeIn (Record.write columns path value) path ≠ none := by
    rw [place_in_write hpath hopen, if_pos List.prefix_rfl, List.drop_length, Value.node?_nil]
    simp
  have hkept {p : List String} (hp : p ∈ paths) (hstored : placeIn columns p ≠ none) :
      placeIn (Record.write columns path value) p ≠ none :=
    place_in_write_ne_none hpath hopen hstored (hlength p hp)
  constructor
  · intro place hplace
    by_cases hway : path <+: place ∨ place <+: path
    · exact ⟨path, List.mem_concat_self, hway.imp_right fun hbefore => ⟨hbefore, hwritten⟩⟩
    · rw [not_or] at hway
      rw [place_in_write hpath hopen, if_neg hway.1, if_neg fun h => hway.2 h.1] at hplace
      obtain ⟨p, hp, hplace⟩ := h.spanned place hplace
      exact ⟨p, List.mem_append_left _ hp, hplace.imp_right (And.imp_right (hkept hp))⟩
  · intro p hp hnone
    rcases List.mem_append.mp hp with hp | hp
    · have hbefore : placeIn columns p = none := by
        by_contra hstored
        exact hkept hp hstored hnone
      obtain ⟨base, hbase, hne, content, hscalar⟩ := h.blocked p hp hbefore
      -- The scalar stands before the end of a path that is no longer than the one written.
      have hshort : ¬ path <+: base := by
        intro hpre
        have heq := (hpre.trans hbase).eq_of_length_le (hlength p hp)
        exact Record.ne_of_between hpre hbase (.inr hne) heq
      refine ⟨base, hbase, hne, content, ?_⟩
      rw [place_in_write_eq_scalar hpath hopen hshort, hscalar]
    · rw [List.mem_singleton.mp hp] at hnone
      exact absurd hnone hwritten

def PartOf (whole : Dictionary Value) (paths : List (List String)) (columns : Dictionary Value) :
    Prop :=
  ∀ place node, placeIn columns place = some node ↔
    placeIn whole place = some node ∧ Spanned whole paths place

variable {whole : Dictionary Value}

theorem part_of_empty (whole : Dictionary Value) : PartOf whole [] ∅ := by
  intro place node
  rw [place_in_empty]
  simp [Spanned]

theorem spanned_concat_iff (hbelow : ¬ path <+: place)
    (hway : place <+: path → placeIn whole path = none) :
    Spanned whole (paths ++ [path]) place ↔ Spanned whole paths place := by
  rw [Spanned, Spanned]
  simp only [List.mem_append, List.mem_singleton, or_and_right, exists_or, exists_eq_left]
  rw [or_iff_left]
  rintro (hpre | ⟨hpre, hstored⟩)
  · exact hbelow hpre
  · exact hstored (hway hpre)

theorem PartOf.write_of_blocked (h : PartOf whole paths columns) (hpath : path ≠ [])
    (hnone : placeIn whole path = none) (hblocked : Blocked columns path) :
    PartOf whole (paths ++ [path]) (Record.write columns path value) := by
  intro place node
  rw [place_in_write_of_blocked hblocked, h]
  apply and_congr_right
  intro hnode
  rw [spanned_concat_iff _ fun _ => hnone]
  intro hbelow
  rw [place_in_eq_none_below hnone hpath hbelow] at hnode
  contradiction

theorem PartOf.not_blocked (h : PartOf whole paths columns) (hstored : placeIn whole path ≠ none) :
    ¬ Blocked columns path := by
  rintro ⟨base, hbase, hne, content, hscalar⟩
  exact hstored (place_in_eq_none_of_blocked ⟨base, hbase, hne, content, ((h base _).mp hscalar).1⟩)

/-- The part grows by what stands at and below the path in the whole, and by the way there. -/
theorem PartOf.write_of_stored (h : PartOf whole paths columns) (hpath : path ≠ [])
    (hstored : placeIn whole path ≠ none)
    (hvalue : ∀ rest, value.node? rest = placeIn whole (path ++ rest)) :
    PartOf whole (paths ++ [path]) (Record.write columns path value) := by
  intro place node
  rw [place_in_write hpath (h.not_blocked hstored)]
  by_cases hbelow : path <+: place
  · have hspanned : Spanned whole (paths ++ [path]) place :=
      ⟨path, List.mem_concat_self, .inl hbelow⟩
    obtain ⟨rest, rfl⟩ := hbelow
    rw [if_pos (List.prefix_append path rest), List.drop_left, hvalue, and_iff_left hspanned]
  · rw [if_neg hbelow]
    by_cases hway : place <+: path ∧ place ≠ []
    · have hspanned : Spanned whole (paths ++ [path]) place :=
        ⟨path, List.mem_concat_self, .inr ⟨hway.1, hstored⟩⟩
      have hne : place ≠ path := fun heq => hbelow (heq ▸ List.prefix_rfl)
      rw [if_pos hway, place_in_eq_record hstored hway.1 hne hway.2, and_iff_left hspanned]
    · rw [if_neg hway, h]
      apply and_congr_right
      intro hnode
      rw [spanned_concat_iff hbelow]
      intro hpre
      have hplace : place = [] := by
        by_contra hne
        exact hway ⟨hpre, hne⟩
      rw [hplace, place_in_nil] at hnode
      contradiction

namespace Record

def fillBy (value : List String → Value) (paths : List (List String)) : Dictionary Value :=
  paths.foldl (fun columns path => write columns path (value path)) ∅

theorem fill_by_concat (value : List String → Value) (paths : List (List String))
    (path : List String) :
    fillBy value (paths ++ [path]) = write (fillBy value paths) path (value path) := by
  rw [fillBy, List.foldl_append]
  rfl

theorem columns_of_paths_eq_fill_by (value : String → Value) (names : List String) :
    (ofPaths (names.map fun name => (name, value name))).columns =
      fillBy (fun path => value (Path.dotted path)) ((inOrder names).map Path.segments) := by
  rw [columns_of_paths_map, fillBy]
  simp only [List.foldl_map, Path.dotted_segments]

theorem columns_projection_eq_fill_by (r : Record) (names : List String) :
    (r.projection names).columns =
      fillBy (fun path => r.get (Path.dotted path)) ((inOrder names).map Path.segments) :=
  columns_of_paths_eq_fill_by r.get names

/-- Columns are covered by the paths with which they have been filled, shorter paths first. -/
theorem covered_fill_by (value : List String → Value) (hnil : [] ∉ paths)
    (hsorted : paths.Pairwise (·.length ≤ ·.length)) : Covered (fillBy value paths) paths := by
  induction paths using List.reverseRecOn with
  | nil =>
    constructor
    · intro place hplace
      exact absurd (place_in_empty place) hplace
    · intro path hpath
      exact absurd hpath List.not_mem_nil
  | append_singleton paths path ih =>
    rw [List.mem_append, List.mem_singleton, not_or] at hnil
    obtain ⟨hsorted, _, hlength⟩ := List.pairwise_append.mp hsorted
    have hcovered := ih hnil.1 hsorted
    have hshort : ∀ p ∈ paths, p.length ≤ path.length :=
      fun p hp => hlength p hp path (List.mem_singleton_self path)
    rw [fill_by_concat]
    by_cases hblocked : Blocked (fillBy value paths) path
    · exact hcovered.write_of_blocked hblocked
    · exact hcovered.write_of_not_blocked (Ne.symm hnil.2) hshort hblocked

theorem mem_of_length_lt {done : List (List String)}
    (hsorted : paths.Pairwise (·.length ≤ ·.length)) (hdone : done ++ [path] <+: paths)
    {p : List String} (hp : p ∈ paths) (hlength : p.length < path.length) : p ∈ done := by
  obtain ⟨later, rfl⟩ := hdone
  obtain ⟨_, _, hlater⟩ := List.pairwise_append.mp hsorted
  rcases List.mem_append.mp hp with hp | hp
  · rcases List.mem_append.mp hp with hp | hp
    · exact hp
    · rw [List.mem_singleton.mp hp] at hlength
      exact absurd hlength (Nat.lt_irrefl _)
  · exact absurd hlength (Nat.not_lt.mpr (hlater path List.mem_concat_self p hp))

variable {r : Record}

theorem node?_of_option_stored? (hpath : path ≠ []) (hstored : placeIn r.columns path ≠ none)
    (rest : List String) :
    (Value.ofOption (r.stored? path)).node? rest = placeIn r.columns (path ++ rest) := by
  rw [← node?_eq_place_in] at hstored ⊢
  rw [node?_append hpath]
  cases hfound : r.stored? path with
  | none => exact absurd (by rw [node?, hfound, Option.map_none]) hstored
  | some value => rfl

/-- Filled with what covered columns hold at the first paths, columns become the part of them that
these paths span. -/
theorem part_of_fill (hcovered : Covered r.columns paths) (hnil : [] ∉ paths)
    (hsorted : paths.Pairwise (·.length ≤ ·.length)) {done : List (List String)}
    (hdone : done <+: paths) : PartOf r.columns done (fill r done) := by
  induction done using List.reverseRecOn with
  | nil => exact part_of_empty r.columns
  | append_singleton done path ih =>
    have hpart := ih ((List.prefix_append done _).trans hdone)
    have hmem : path ∈ paths := hdone.subset List.mem_concat_self
    have hpath : path ≠ [] := fun heq => hnil (heq ▸ hmem)
    rw [fill_concat]
    by_cases hstored : placeIn r.columns path = none
    · refine hpart.write_of_blocked hpath hstored ?_
      obtain ⟨base, hbase, hne, content, hscalar⟩ := hcovered.blocked path hmem hstored
      -- The scalar on the way belongs to a shorter path, which has been filled already.
      obtain ⟨p, hp, hpre⟩ := hcovered.exists_path hscalar
      have hlt : base.length < path.length :=
        Nat.lt_of_le_of_ne hbase.length_le fun heq => hne (hbase.eq_of_length heq)
      have hearlier := mem_of_length_lt hsorted hdone hp (Nat.lt_of_le_of_lt hpre.length_le hlt)
      exact ⟨base, hbase, hne, content, (hpart base _).mpr ⟨hscalar, p, hearlier, .inl hpre⟩⟩
    · exact hpart.write_of_stored hpath hstored (node?_of_option_stored? hpath hstored)

/-- Columns that are covered by paths come into being again when these are filled with what they
hold. -/
theorem beq_of_covered (hcovered : Covered r.columns paths) (hnil : [] ∉ paths)
    (hsorted : paths.Pairwise (·.length ≤ ·.length)) {other : Record}
    (hother : other.columns = fill r paths) : (other == r) = true := by
  apply beq_of_node?
  intro place
  rw [node?_eq_place_in, node?_eq_place_in, hother]
  apply Option.ext
  intro node
  rw [part_of_fill hcovered hnil hsorted List.prefix_rfl place node, and_iff_left_iff_imp]
  intro hnode
  exact hcovered.spanned place (by rw [hnode]; simp)

theorem projection_beq_self (r : Record) (names : List String) :
    ((r.projection names).projection names == r.projection names) = true := by
  apply beq_of_covered _ nil_not_mem_segments (pairwise_in_order names)
    (columns_projection rfl names)
  rw [columns_projection_eq_fill_by]
  exact covered_fill_by _ nil_not_mem_segments (pairwise_in_order names)

/-- If no path goes on from the end of another one, the value of each is there in the end. -/
theorem place_in_fill_by_append (value : List String → Value) (hnil : [] ∉ paths)
    (hsorted : paths.Pairwise (·.length ≤ ·.length))
    (hapart : ∀ p ∈ paths, ∀ q ∈ paths, p <+: q → p = q) (hpath : path ∈ paths)
    (rest : List String) :
    placeIn (fillBy value paths) (path ++ rest) = (value path).node? rest := by
  induction paths using List.reverseRecOn with
  | nil => exact absurd hpath List.not_mem_nil
  | append_singleton paths last ih =>
    rw [List.mem_append, List.mem_singleton, not_or] at hnil
    have hearlier (p : List String) (hp : p ∈ paths) : p ∈ paths ++ [last] :=
      List.mem_append_left _ hp
    have hlast : last ∈ paths ++ [last] := List.mem_concat_self
    have hbefore := (List.pairwise_append.mp hsorted).1
    have hopen : ¬ Blocked (fillBy value paths) last := by
      rintro ⟨base, hbase, hne, content, hscalar⟩
      obtain ⟨p, hp, hpre⟩ := (covered_fill_by value hnil.1 hbefore).exists_path hscalar
      have heq := hapart p (hearlier p hp) last hlast (hpre.trans hbase)
      exact ne_of_between hpre hbase (.inr hne) heq
    rw [fill_by_concat, place_in_write (Ne.symm hnil.2) hopen]
    by_cases heq : path = last
    · rw [heq, if_pos (List.prefix_append last rest), List.drop_left]
    · have hmem : path ∈ paths := by simpa [heq] using hpath
      have hother : ¬ path <+: last := fun h => heq (hapart path hpath last hlast h)
      have hbelow : ¬ last <+: path ++ rest := by
        intro h
        rcases List.prefix_or_prefix_of_prefix h (List.prefix_append path rest) with hpre | hpre
        · exact heq (hapart last hlast path hpath hpre).symm
        · exact hother hpre
      rw [if_neg hbelow, if_neg fun h => hother ((List.prefix_append path rest).trans h.1)]
      exact ih hnil.1 hbefore (fun p hp q hq => hapart p (hearlier p hp) q (hearlier q hq)) hmem

theorem place_in_of_paths_append (value : String → Value) {names : List String}
    (hapart : ∀ a ∈ names, ∀ b ∈ names, ¬ Path.Below a b) {name : String} (hname : name ∈ names)
    (rest : List String) :
    placeIn (ofPaths (names.map fun name => (name, value name))).columns
      (Path.segments name ++ rest) = (value name).node? rest := by
  have hpaths : ∀ p ∈ (inOrder names).map Path.segments,
      ∀ q ∈ (inOrder names).map Path.segments, p <+: q → p = q := by
    intro p hp q hq hpre
    obtain ⟨a, ha, rfl⟩ := List.mem_map.mp hp
    obtain ⟨b, hb, rfl⟩ := List.mem_map.mp hq
    by_contra hne
    exact hapart b (mem_in_order.mp hb) a (mem_in_order.mp ha) (Path.below_iff.mpr ⟨hpre, hne⟩)
  rw [columns_of_paths_eq_fill_by, place_in_fill_by_append _ nil_not_mem_segments
    (pairwise_in_order names) hpaths (segments_mem.mpr (mem_in_order.mpr hname)),
    Path.dotted_segments]

/-- Under a name that goes on from no other one and from which none goes on, a projection has the
value of the record. -/
theorem get_projection {r : Record} {names : List String}
    (hapart : ∀ a ∈ names, ∀ b ∈ names, ¬ Path.Below a b) {name : String} (hname : name ∈ names) :
    ((r.projection names).get name == r.get name) = true := by
  have hplaces (rest : List String) :
      placeIn (r.projection names).columns (Path.segments name ++ rest) =
        (r.get name).node? rest := place_in_of_paths_append r.get hapart hname rest
  have hstored : placeIn (r.projection names).columns (Path.segments name) ≠ none := by
    rw [← List.append_nil (Path.segments name), hplaces, Value.node?_nil]
    simp
  rw [Value.beq_iff_node?]
  intro rest
  rw [← hplaces, get, lookup?_of_aliases rfl,
    node?_of_option_stored? (Path.segments_ne_nil name) hstored]

theorem place_in_fill_by_congr {value value' : List String → Value} (hnil : [] ∉ paths)
    (h : ∀ path ∈ paths, (value path == value' path) = true) (place : List String) :
    placeIn (fillBy value paths) place = placeIn (fillBy value' paths) place := by
  induction paths using List.reverseRecOn generalizing place with
  | nil => rfl
  | append_singleton paths path ih =>
    rw [List.mem_append, List.mem_singleton, not_or] at hnil
    have hsame := ih hnil.1 fun p hp => h p (List.mem_append_left _ hp)
    have hvalue := Value.beq_iff_node?.mp (h path List.mem_concat_self)
    have hblocked : Blocked (fillBy value paths) path ↔ Blocked (fillBy value' paths) path := by
      simp only [Blocked, hsame]
    rw [fill_by_concat, fill_by_concat]
    by_cases hb : Blocked (fillBy value paths) path
    · rw [place_in_write_of_blocked hb, place_in_write_of_blocked (hblocked.mp hb), hsame]
    · rw [place_in_write (Ne.symm hnil.2) hb,
        place_in_write (Ne.symm hnil.2) fun hb' => hb (hblocked.mpr hb'), hvalue, hsame]

theorem projection_congr {a b : Record} {names : List String}
    (h : ∀ name ∈ names, (a.get name == b.get name) = true) :
    (a.projection names == b.projection names) = true := by
  apply beq_of_node?
  intro place
  rw [node?_eq_place_in, node?_eq_place_in, columns_projection_eq_fill_by,
    columns_projection_eq_fill_by]
  apply place_in_fill_by_congr nil_not_mem_segments
  intro path hpath
  obtain ⟨name, hname, rfl⟩ := List.mem_map.mp hpath
  rw [Path.dotted_segments]
  exact h name (mem_in_order.mp hname)

/-- Some of the names can be projected from the projection on all of them. -/
theorem projection_beq_of_subset (r : Record) {names wanted : List String}
    (hapart : ∀ a ∈ names, ∀ b ∈ names, ¬ Path.Below a b) (hwanted : wanted ⊆ names) :
    ((r.projection names).projection wanted == r.projection wanted) = true :=
  projection_congr fun _ hname => get_projection hapart (hwanted hname)

end Record
end RelationalQuery
