import Mathlib.Data.List.Basic
import RelationalQuery.Record

/-!
# Dotted names and the places they lead to

A dotted name lies below another if it goes on after it with a dot, which is to say that the
segments of the other are the first of its own. What a path leads to in a record is a scalar, a
record or nothing; `node?` tells which, and no more about a record than that it is one.
-/

set_option autoImplicit false

namespace RelationalQuery

namespace Path

def Below (name base : String) : Prop := ∃ rest, name = base ++ "." ++ rest

def Within (name base : String) : Prop := name = base ∨ Below name base

theorem length_split_on (text : List Char) :
    (text.splitOn '.').length = text.count '.' + 1 := by
  induction text with
  | nil => simp
  | cons c text ih =>
    rw [List.splitOn_cons_eq_if_modifyHead]
    by_cases hc : c = '.'
    · simp [hc, ih]
    · simp [hc, ih]

theorem not_mem_of_mem_split_on {text part : List Char} (h : part ∈ text.splitOn '.') :
    '.' ∉ part := by
  induction text generalizing part with
  | nil =>
    rw [List.splitOn_nil, List.mem_singleton] at h
    rw [h]
    exact List.not_mem_nil
  | cons c text ih =>
    rw [List.splitOn_cons_eq_if_modifyHead] at h
    by_cases hc : c = '.'
    · simp only [hc, beq_self_eq_true, if_true, List.mem_cons] at h
      rcases h with rfl | h
      · exact List.not_mem_nil
      · exact ih h
    · simp only [beq_iff_eq, hc, if_false] at h
      cases hparts : text.splitOn '.' with
      | nil => exact absurd hparts (List.splitOn_ne_nil _ _)
      | cons first later =>
        rw [hparts, List.modifyHead_cons, List.mem_cons] at h
        rcases h with rfl | h
        · have hfirst : '.' ∉ first := ih (by rw [hparts]; exact List.mem_cons_self)
          simp [Ne.symm hc, hfirst]
        · exact ih (by rw [hparts]; exact List.mem_cons_of_mem _ h)

theorem not_mem_of_mem_segments {name segment : String} (h : segment ∈ segments name) :
    '.' ∉ segment.toList := by
  obtain ⟨part, hpart, rfl⟩ := List.mem_map.mp h
  rw [String.toList_ofList]
  exact not_mem_of_mem_split_on hpart

theorem length_segments (name : String) : (segments name).length = dots name + 1 := by
  rw [segments, List.length_map, length_split_on, dots]

theorem segments_injective {a b : String} (h : segments a = segments b) : a = b := by
  rw [← dotted_segments a, h, dotted_segments]

/-- Segments without dots are read back from the name that they make. -/
theorem segments_dotted {path : List String} (hne : path ≠ [])
    (hdots : ∀ segment ∈ path, '.' ∉ segment.toList) : segments (dotted path) = path := by
  have hparts : ∀ characters ∈ path.map String.toList, '.' ∉ characters := by
    intro characters hcharacters
    obtain ⟨segment, hsegment, rfl⟩ := List.mem_map.mp hcharacters
    exact hdots segment hsegment
  have hsplit : (dotted path).toList.splitOn '.' = path.map String.toList := by
    rw [dotted, String.toList_intercalate]
    exact List.splitOn_intercalate '.' hparts (by simpa using hne)
  rw [segments, hsplit, List.map_map]
  simp [Function.comp_def]

theorem exists_segments {path : List String} {name : String} (hne : path ≠ [])
    (h : path ⊆ segments name) : ∃ part, segments part = path := by
  refine ⟨dotted path, segments_dotted hne ?_⟩
  intro segment hsegment
  exact not_mem_of_mem_segments (h hsegment)

theorem exists_rest {name column : String} {path : List String}
    (h : segments name = column :: path) (hpath : path ≠ []) :
    ∃ rest, name = column ++ "." ++ rest ∧ segments rest = path := by
  have hdot : '.' ∉ column.toList := not_mem_of_mem_segments (h ▸ List.mem_cons_self)
  obtain ⟨rest, hrest⟩ := exists_segments hpath (h ▸ List.subset_cons_self column path)
  refine ⟨rest, segments_injective ?_, hrest⟩
  rw [h, segments_append, segments_eq_singleton hdot, hrest, List.singleton_append]

theorem below_iff {name base : String} :
    Below name base ↔ segments base <+: segments name ∧ segments base ≠ segments name := by
  constructor
  · rintro ⟨rest, rfl⟩
    rw [segments_append]
    refine ⟨List.prefix_append _ _, fun h => segments_ne_nil rest ?_⟩
    exact List.append_right_eq_self.mp h.symm
  · rintro ⟨⟨path, hpath⟩, hne⟩
    have hpathne : path ≠ [] := by
      rintro rfl
      exact hne (by rw [← hpath, List.append_nil])
    obtain ⟨rest, rfl⟩ := exists_segments hpathne (hpath ▸ List.subset_append_right _ _)
    refine ⟨rest, segments_injective ?_⟩
    rw [segments_append, hpath]

theorem dots_lt_of_below {name base : String} (h : Below name base) : dots base < dots name := by
  obtain ⟨hpre, hne⟩ := below_iff.mp h
  have hlt := Nat.lt_of_le_of_ne hpre.length_le fun heq => hne (hpre.eq_of_length heq)
  rw [length_segments, length_segments] at hlt
  exact Nat.lt_of_succ_lt_succ hlt

theorem within_iff {name base : String} : Within name base ↔ segments base <+: segments name := by
  rw [Within, below_iff]
  constructor
  · rintro (rfl | ⟨h, _⟩)
    · exact List.prefix_rfl
    · exact h
  · intro h
    by_cases heq : segments base = segments name
    · exact .inl (segments_injective heq).symm
    · exact .inr ⟨h, heq⟩

end Path

inductive Node
  | scalar (content : Scalar)
  | record
  deriving DecidableEq

namespace Value

def node : Value → Node
  | .scalar content => .scalar content
  | .record _ => .record

def stored? : Value → List String → Option Value
  | value, [] => some value
  | .record content, path => content.stored? path
  | .scalar _, _ => none

theorem stored?_scalar {content : Scalar} {path : List String} (h : path ≠ []) :
    (Value.scalar content).stored? path = none := by
  cases path with
  | nil => contradiction
  | cons name path => rfl

theorem stored?_record {content : Record} {path : List String} (h : path ≠ []) :
    (Value.record content).stored? path = content.stored? path := by
  cases path with
  | nil => contradiction
  | cons name path => rfl

def node? (value : Value) (path : List String) : Option Node := (value.stored? path).map node

theorem node?_nil (value : Value) : value.node? [] = some value.node := by
  simp [node?, stored?]

theorem node?_scalar {content : Scalar} {path : List String} (h : path ≠ []) :
    (Value.scalar content).node? path = none := by
  rw [node?, stored?_scalar h, Option.map_none]

end Value

def Record.node? (r : Record) (path : List String) : Option Node := (r.stored? path).map Value.node

theorem Value.node?_record {content : Record} {path : List String} (h : path ≠ []) :
    (Value.record content).node? path = content.node? path := by
  rw [Value.node?, stored?_record h, Record.node?]

namespace Record

theorem stored?_cons (r : Record) (name : String) (path : List String) :
    r.stored? (name :: path) = (r.columns.find? name).bind (·.stored? path) := by
  cases path with
  | nil => cases h : r.columns.find? name <;> simp [stored?, Value.stored?, h]
  | cons next path =>
    cases h : r.columns.find? name with
    | none => simp [stored?, h]
    | some value => cases value <;> simp [stored?, Value.stored?, h]

theorem node?_nil (r : Record) : r.node? [] = none := rfl

theorem node?_cons (r : Record) (name : String) (path : List String) :
    r.node? (name :: path) = (r.columns.find? name).bind (·.node? path) := by
  rw [node?, stored?_cons]
  cases r.columns.find? name <;> rfl

/-- A path that is taken in two parts goes on from the value at the end of the first. -/
theorem stored?_append {r : Record} {path : List String} (h : path ≠ []) (rest : List String) :
    r.stored? (path ++ rest) = (r.stored? path).bind (·.stored? rest) := by
  induction path generalizing r with
  | nil => contradiction
  | cons name path ih =>
    rw [List.cons_append, stored?_cons, stored?_cons, Option.bind_assoc]
    congr 1
    funext value
    by_cases hpath : path = []
    · rw [hpath]
      rfl
    · have happend : path ++ rest ≠ [] := List.append_ne_nil_of_left_ne_nil hpath rest
      cases value with
      | scalar content =>
        rw [Value.stored?_scalar happend, Value.stored?_scalar hpath, Option.bind_none]
      | record content =>
        rw [Value.stored?_record happend, Value.stored?_record hpath, ih hpath]

theorem node?_append {r : Record} {path : List String} (h : path ≠ []) (rest : List String) :
    r.node? (path ++ rest) = (r.stored? path).bind (·.node? rest) := by
  rw [node?, stored?_append h, Option.map_bind]
  rfl

theorem node?_eq_some_scalar {r : Record} {path : List String} {content : Scalar} :
    r.node? path = some (.scalar content) ↔ r.stored? path = some (.scalar content) := by
  rw [node?]
  cases r.stored? path with
  | none => simp
  | some value => cases value <;> simp [Value.node]

end Record
end RelationalQuery
