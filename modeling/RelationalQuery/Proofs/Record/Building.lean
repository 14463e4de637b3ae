import RelationalQuery.Proofs.Dictionary
import RelationalQuery.Record.Building

/-!
# What a builder accepts

The columns set so far are those of the dictionary of the pairs read so far, as long as their names
are different. So a list with different names gives the record that it gives as a whole, in
whatever order it stands, and any other list is refused at the first pair whose name occurs before
it.
-/

set_option autoImplicit false

namespace RelationalQuery.Record

def addColumns (columns : Dictionary Value) (pairs : List (String × Value)) :
    Except RecordError (Dictionary Value) :=
  pairs.foldlM (fun columns pair => addColumn columns pair.1 pair.2) columns

theorem add_columns_cons (columns : Dictionary Value) (name : String) (value : Value)
    (pairs : List (String × Value)) : addColumns columns ((name, value) :: pairs) =
      addColumn columns name value >>= fun columns => addColumns columns pairs :=
  List.foldlM_cons

theorem add_columns_append (columns : Dictionary Value) (before after : List (String × Value)) :
    addColumns columns (before ++ after) =
      addColumns columns before >>= fun columns => addColumns columns after :=
  List.foldlM_append

theorem build_eq (pairs : List (String × Value)) :
    build pairs = (addColumns ∅ pairs).map fun columns => ⟨columns, ∅⟩ := by
  rw [build, addColumns]
  cases pairs.foldlM (fun columns pair => addColumn columns pair.1 pair.2) ∅ <;> rfl

variable {before after : List (String × Value)} {name : String}

theorem add_column_new (value : Value) (hnew : name ∉ before.map Prod.fst) :
    addColumn (Dictionary.ofList before) name value =
      .ok (Dictionary.ofList (before ++ [(name, value)])) := by
  have hfree : ¬ (Dictionary.ofList before).contains name = true :=
    fun h => hnew (Dictionary.contains_of_list.mp h)
  rw [addColumn, if_neg hfree, Dictionary.of_list_concat]

theorem add_column_repeated (value : Value) (hold : name ∈ before.map Prod.fst) :
    addColumn (Dictionary.ofList before) name value = .error (.immutable name) := by
  rw [addColumn, if_pos (Dictionary.contains_of_list.mpr hold)]

/-- While the names are different, the columns are those of all pairs read so far. -/
theorem add_columns_distinct (h : ((before ++ after).map Prod.fst).Nodup) :
    addColumns (Dictionary.ofList before) after = .ok (Dictionary.ofList (before ++ after)) := by
  induction after generalizing before with
  | nil =>
    rw [List.append_nil]
    rfl
  | cons pair after ih =>
    obtain ⟨name, value⟩ := pair
    have hnew : name ∉ before.map Prod.fst := by
      intro hold
      rw [List.map_append, List.map_cons] at h
      exact (List.nodup_append.mp h).2.2 _ hold _ List.mem_cons_self rfl
    rw [List.append_cons] at h ⊢
    rw [add_columns_cons, add_column_new value hnew]
    exact ih h

theorem add_columns_empty {pairs : List (String × Value)} (h : (pairs.map Prod.fst).Nodup) :
    addColumns ∅ pairs = .ok (Dictionary.ofList pairs) :=
  @add_columns_distinct [] pairs h

theorem build_distinct {pairs : List (String × Value)} (h : (pairs.map Prod.fst).Nodup) :
    build pairs = .ok (ofPairs pairs) := by
  rw [build_eq, add_columns_empty h]
  rfl

theorem build_repeated (value : Value) (hbefore : (before.map Prod.fst).Nodup)
    (hold : name ∈ before.map Prod.fst) :
    build (before ++ (name, value) :: after) = .error (.immutable name) := by
  have hrefused : addColumns ∅ (before ++ (name, value) :: after) = .error (.immutable name) := by
    rw [add_columns_append, add_columns_empty hbefore]
    change addColumns (Dictionary.ofList before) ((name, value) :: after) = _
    rw [add_columns_cons, add_column_repeated value hold]
    rfl
  rw [build_eq, hrefused]
  rfl

theorem exists_first_repeated {pairs : List (String × Value)}
    (h : ¬ (pairs.map Prod.fst).Nodup) : ∃ before name value after,
      pairs = before ++ (name, value) :: after ∧ (before.map Prod.fst).Nodup ∧
        name ∈ before.map Prod.fst := by
  induction pairs using List.reverseRecOn with
  | nil => exact absurd List.nodup_nil h
  | append_singleton pairs last ih =>
    by_cases hpairs : (pairs.map Prod.fst).Nodup
    · refine ⟨pairs, last.1, last.2, [], rfl, hpairs, ?_⟩
      by_contra hnew
      apply h
      rw [List.map_append, List.map_singleton, ← List.concat_eq_append]
      exact hpairs.concat hnew
    · obtain ⟨before, name, value, after, rfl, hbefore, hold⟩ := ih hpairs
      exact ⟨before, name, value, after ++ [last], by simp, hbefore, hold⟩

/-- Columns with different names are accepted and make the record that they make together in any
order. Otherwise the first column whose name occurs before it is refused. -/
theorem build_accepts_distinct (pairs : List (String × Value)) :
    ((pairs.map Prod.fst).Nodup → ∀ other, other.Perm pairs → build pairs = .ok (ofPairs other)) ∧
      (¬ (pairs.map Prod.fst).Nodup → ∃ before name value after,
        pairs = before ++ (name, value) :: after ∧ (before.map Prod.fst).Nodup ∧
          name ∈ before.map Prod.fst ∧ build pairs = .error (.immutable name)) := by
  constructor
  · intro hdistinct other hother
    have hsame : ofPairs other = ofPairs pairs := by
      rw [ofPairs, Dictionary.of_list_perm hother hdistinct, ← ofPairs]
    rw [hsame]
    exact build_distinct hdistinct
  · intro hrepeated
    obtain ⟨before, name, value, after, rfl, hbefore, hold⟩ := exists_first_repeated hrepeated
    exact ⟨before, name, value, after, rfl, hbefore, hold, build_repeated value hbefore hold⟩

def repeatedColumns : List (String × Value) :=
  [("id", .integer 1), ("name", .text "Jim Halpert"), ("name", .text "James Halpert"),
    ("id", .integer 2)]

theorem build_accepts_distinct_repeated_columns :
    build (repeatedColumns.take 2) = .ok (ofPairs (repeatedColumns.take 2).reverse) ∧
      ¬ (repeatedColumns.map Prod.fst).Nodup ∧
      ∃ before name value after, repeatedColumns = before ++ (name, value) :: after ∧
        (before.map Prod.fst).Nodup ∧ name ∈ before.map Prod.fst ∧
          build repeatedColumns = .error (.immutable name) := by
  have hdistinct : ((repeatedColumns.take 2).map Prod.fst).Nodup := by decide
  have hrepeated : ¬ (repeatedColumns.map Prod.fst).Nodup := by decide
  exact ⟨(build_accepts_distinct _).1 hdistinct _ (List.reverse_perm _), hrepeated,
    (build_accepts_distinct _).2 hrepeated⟩

end RelationalQuery.Record
