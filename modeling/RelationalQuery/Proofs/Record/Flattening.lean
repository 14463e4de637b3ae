import Mathlib.Data.List.Basic
import RelationalQuery.Proofs.Dictionary
import RelationalQuery.Proofs.Record.Columns
import RelationalQuery.Proofs.Record.Refilling

/-!
# Flattening what was written

Scalars at different names, of which none goes on below another one, all stand in the record that is
made of them, and no other scalar does (`node?_of_scalars`). Flattening finds the same names again,
unless a name begins with a dot: it goes on below the empty name, and then its column appears under
another name.
-/

set_option autoImplicit false

namespace RelationalQuery

namespace Path

theorem head?_of_segments {name : String} {inner : List String} (h : segments name = "" :: inner)
    (hinner : inner ≠ []) : name.toList.head? = some '.' := by
  have hbelow : Below name "" := by
    rw [below_iff, segments_eq_singleton (by simp), h]
    exact ⟨⟨inner, rfl⟩, fun heq => hinner (List.cons.inj heq).2.symm⟩
  obtain ⟨rest, rfl⟩ := hbelow
  simp [String.toList_append]

end Path

namespace Record

variable {pairs : List (String × Scalar)}

def ofScalars (pairs : List (String × Scalar)) : Record :=
  ofPaths (pairs.map fun (name, content) => (name, .scalar content))

def valueUnder (pairs : List (String × Scalar)) (name : String) : Value :=
  .ofOption ((pairs.find? (·.1 == name)).map fun pair => .scalar pair.2)

theorem value_under_eq (hdistinct : (pairs.map Prod.fst).Nodup) {pair : String × Scalar}
    (hpair : pair ∈ pairs) : valueUnder pairs pair.1 = .scalar pair.2 := by
  have hfound : pairs.find? (·.1 == pair.1) = some pair :=
    (find?_key_iff hdistinct).mpr ⟨hpair, rfl⟩
  rw [valueUnder, hfound]
  rfl

theorem of_scalars_eq (hdistinct : (pairs.map Prod.fst).Nodup) : ofScalars pairs =
    ofPaths ((pairs.map Prod.fst).map fun name => (name, valueUnder pairs name)) := by
  rw [ofScalars, List.map_map]
  congr 1
  apply List.map_congr_left
  intro pair hpair
  rw [Function.comp_apply, value_under_eq hdistinct hpair]

variable (hdistinct : (pairs.map Prod.fst).Nodup)
  (hapart : ∀ a ∈ pairs.map Prod.fst, ∀ b ∈ pairs.map Prod.fst, ¬ Path.Below a b)

include hdistinct hapart

/-- The scalars of the record are the given ones, each at the end of the path of its name. -/
theorem node?_of_scalars (place : List String) (content : Scalar) :
    (ofScalars pairs).node? place = some (.scalar content) ↔
      ∃ pair ∈ pairs, Path.segments pair.1 = place ∧ pair.2 = content := by
  have hplaces {pair : String × Scalar} (hpair : pair ∈ pairs) (rest : List String) :
      (ofScalars pairs).node? (Path.segments pair.1 ++ rest) =
        (Value.scalar pair.2).node? rest := by
    rw [node?_eq_place_in, of_scalars_eq hdistinct,
      place_in_of_paths_append _ hapart (List.mem_map_of_mem hpair), value_under_eq hdistinct hpair]
  constructor
  · intro hscalar
    have hcovered : Covered (ofScalars pairs).columns
        ((inOrder (pairs.map Prod.fst)).map Path.segments) := by
      rw [of_scalars_eq hdistinct, columns_of_paths_eq_fill_by]
      exact covered_fill_by _ nil_not_mem_segments (pairwise_in_order _)
    rw [node?_eq_place_in] at hscalar
    obtain ⟨path, hpath, rest, rfl⟩ := hcovered.exists_path hscalar
    simp only [List.mem_map, mem_in_order] at hpath
    obtain ⟨_, ⟨pair, hpair, rfl⟩, rfl⟩ := hpath
    rw [← node?_eq_place_in, hplaces hpair] at hscalar
    by_cases hrest : rest = []
    · rw [hrest, Value.node?_nil] at hscalar
      cases hscalar
      exact ⟨pair, hpair, by rw [hrest, List.append_nil], rfl⟩
    · rw [Value.node?_scalar hrest] at hscalar
      contradiction
  · rintro ⟨pair, hpair, rfl, rfl⟩
    rw [← List.append_nil (Path.segments pair.1), hplaces hpair]
    rfl

theorem read_back_of_scalars (hdot : ∀ name ∈ pairs.map Prod.fst, name.toList.head? ≠ some '.') :
    (ofScalars pairs).ReadBack := by
  intro path hpath
  obtain ⟨content, hscalar⟩ := mem_scalar_paths.mp hpath
  rw [← node?_eq_some_scalar, node?_of_scalars hdistinct hapart] at hscalar
  obtain ⟨pair, hpair, rfl, _⟩ := hscalar
  apply Path.segments_column_name (Path.segments_ne_nil _) fun _ => Path.not_mem_of_mem_segments
  intro inner hinner
  by_contra hne
  exact hdot _ (List.mem_map_of_mem hpair) (Path.head?_of_segments hinner hne)

omit hdistinct hapart

/-- Scalars at different names, of which none goes on below another one and none begins with a dot,
are the columns of the record made of them: its flattened names are these, in ascending order, and
under each stands its scalar. -/
theorem column_names_of_scalars (pairs : List (String × Scalar))
    (hdistinct : (pairs.map Prod.fst).Nodup)
    (hapart : ∀ a ∈ pairs.map Prod.fst, ∀ b ∈ pairs.map Prod.fst, ¬ Path.Below a b)
    (hdot : ∀ name ∈ pairs.map Prod.fst, name.toList.head? ≠ some '.') :
    (ofScalars pairs).columnNames =
        (pairs.map Prod.fst).mergeSort (fun a b => decide (a ≤ b)) ∧
      ∀ pair ∈ pairs, (ofScalars pairs).get pair.1 = .scalar pair.2 := by
  have hread := read_back_of_scalars hdistinct hapart hdot
  have hstored (path : List String) (content : Scalar) :
      (ofScalars pairs).stored? path = some (.scalar content) ↔
        ∃ pair ∈ pairs, Path.segments pair.1 = path ∧ pair.2 = content := by
    rw [← node?_eq_some_scalar, node?_of_scalars hdistinct hapart]
  constructor
  · have hperm : (ofScalars pairs).columnNames.Perm (pairs.map Prod.fst) := by
      rw [List.perm_ext_iff_of_nodup (nodup_column_names hread) hdistinct]
      intro name
      rw [mem_column_names_iff hread, List.mem_map]
      simp only [hstored]
      constructor
      · rintro ⟨_, pair, hpair, hname, _⟩
        exact ⟨pair, hpair, Path.segments_injective hname⟩
      · rintro ⟨pair, hpair, rfl⟩
        exact ⟨pair.2, pair, hpair, rfl, rfl⟩
    exact (hperm.trans (List.mergeSort_perm _ _).symm).eq_of_pairwise
      (fun _ _ _ _ => String.le_antisymm) (column_names_sorted _) (pairwise_sorted_names _)
  · intro pair hpair
    rw [get, lookup?_of_aliases rfl, (hstored _ pair.2).mpr ⟨pair, hpair, rfl, rfl⟩]
    rfl

def scatteredPairs : List (String × Scalar) :=
  [("left.id", .integer 1), ("a..b", .text "x"), ("", .null), ("left.left.id", .boolean true),
    ("c.", .integer 2), ("left.name", .text "y")]

theorem column_names_of_scalars_scattered_pairs :
    (scatteredPairs.map Prod.fst).Nodup ∧
      (∀ a ∈ scatteredPairs.map Prod.fst, ∀ b ∈ scatteredPairs.map Prod.fst, ¬ Path.Below a b) ∧
      (∀ name ∈ scatteredPairs.map Prod.fst, name.toList.head? ≠ some '.') ∧
      (ofScalars scatteredPairs).columnNames =
        ["", "a..b", "c.", "left.id", "left.left.id", "left.name"] ∧
      (ofScalars scatteredPairs).get "a..b" = .text "x" := by
  have hdistinct : (scatteredPairs.map Prod.fst).Nodup := by decide
  have hapart : ∀ a ∈ scatteredPairs.map Prod.fst, ∀ b ∈ scatteredPairs.map Prod.fst,
      ¬ Path.Below a b := by
    simp only [Path.below_iff]
    decide +kernel
  have hdot : ∀ name ∈ scatteredPairs.map Prod.fst, name.toList.head? ≠ some '.' := by decide
  obtain ⟨hnames, hget⟩ := column_names_of_scalars scatteredPairs hdistinct hapart hdot
  refine ⟨hdistinct, hapart, hdot, ?_, hget ("a..b", .text "x") (by decide)⟩
  have hperm : ((scatteredPairs.map Prod.fst).mergeSort fun a b => decide (a ≤ b)).Perm
      ["", "a..b", "c.", "left.id", "left.left.id", "left.name"] :=
    (List.mergeSort_perm _ _).trans (by decide)
  rw [hnames]
  exact hperm.eq_of_pairwise (fun _ _ _ _ => String.le_antisymm) (pairwise_sorted_names _)
    (by decide)

end Record
end RelationalQuery
