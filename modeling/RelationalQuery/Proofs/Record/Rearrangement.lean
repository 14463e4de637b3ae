import RelationalQuery.Proofs.Record.Projection

/-!
# The order of the writes

Writes at paths of which neither begins with the other can change places: where they part they
change different columns, and up to there both do the same to the records on the way
(`write_comm`). Different names with the same number of segments are such paths. So as long as
shorter names come first and values at one name keep their order, it makes no difference in which
order values are written, and a record that is given by values at names does not depend on the order
of the list except for values at the same name (`of_paths_rearranged`).
-/

set_option autoImplicit false

namespace RelationalQuery

namespace Record

def afterWrite : Option Value → List String → Value → Option Value
  | _, [], value => some value
  | none, path, value => some (.record ⟨write ∅ path value, ∅⟩)
  | some (.record inner), path, value => some (.record ⟨write inner.columns path value, ∅⟩)
  | some (.scalar content), _, _ => some (.scalar content)

theorem find?_write (columns : Dictionary Value) (name : String) (path : List String)
    (value : Value) (key : String) : (write columns (name :: path) value).find? key =
      if key = name then afterWrite (columns.find? name) path value else columns.find? key := by
  cases path with
  | nil =>
    rw [write, Dictionary.find?_insert]
    rfl
  | cons next path =>
    rw [write_cons (List.cons_ne_nil _ _), columnsBelow]
    cases hfound : columns.find? name with
    | none => exact Dictionary.find?_insert ..
    | some found =>
      cases found with
      | record inner => exact Dictionary.find?_insert ..
      | scalar content =>
        dsimp only
        split
        · rename_i hkey
          rw [hkey, hfound]
          rfl
        · rfl

def Diverge (path path' : List String) : Prop := ¬ path <+: path' ∧ ¬ path' <+: path

theorem Diverge.of_cons {name : String} {path path' : List String}
    (h : Diverge (name :: path) (name :: path')) : Diverge path path' :=
  ⟨fun hpre => h.1 (List.cons_prefix_cons.mpr ⟨rfl, hpre⟩),
    fun hpre => h.2 (List.cons_prefix_cons.mpr ⟨rfl, hpre⟩)⟩

theorem Diverge.ne_nil {path path' : List String} (h : Diverge path path') :
    path ≠ [] ∧ path' ≠ [] := by
  constructor
  · rintro rfl
    exact h.1 List.nil_prefix
  · rintro rfl
    exact h.2 List.nil_prefix

/-- Different names with the same number of segments lead apart. -/
theorem Diverge.of_length {name name' : String} (hne : name ≠ name')
    (hlength : (Path.segments name).length = (Path.segments name').length) :
    Diverge (Path.segments name) (Path.segments name') := by
  constructor
  · intro hpre
    exact hne (Path.segments_injective (hpre.eq_of_length hlength))
  · intro hpre
    exact hne (Path.segments_injective (hpre.eq_of_length hlength.symm)).symm

theorem after_write_comm {path path' : List String} {value value' : Value} (h : Diverge path path')
    (hwrite : ∀ columns, write (write columns path value) path' value' =
      write (write columns path' value') path value) (found : Option Value) :
    afterWrite (afterWrite found path value) path' value' =
      afterWrite (afterWrite found path' value') path value := by
  obtain ⟨next, rest, rfl⟩ := List.exists_cons_of_ne_nil h.ne_nil.1
  obtain ⟨next', rest', rfl⟩ := List.exists_cons_of_ne_nil h.ne_nil.2
  cases found with
  | none => simp only [afterWrite, hwrite]
  | some found =>
    cases found with
    | record inner => simp only [afterWrite, hwrite]
    | scalar content => rfl

theorem write_comm {path path' : List String} (h : Diverge path path')
    (columns : Dictionary Value) (value value' : Value) :
    write (write columns path value) path' value' =
      write (write columns path' value') path value := by
  induction path generalizing path' columns with
  | nil => exact absurd rfl h.ne_nil.1
  | cons name path ih =>
    cases path' with
    | nil => exact absurd rfl h.ne_nil.2
    | cons name' path' =>
      apply Dictionary.ext_find?
      intro key
      simp only [find?_write]
      by_cases hname : name = name'
      · subst hname
        simp only [if_true]
        rw [after_write_comm h.of_cons (ih h.of_cons)]
        split <;> rfl
      · rw [if_neg hname, if_neg (Ne.symm hname)]
        by_cases hkey : key = name
        · simp [hkey, hname]
        · simp [hkey]

def Rearranged (pairs others : List (String × Value)) : Prop :=
  ∀ name, others.filter (·.1 == name) = pairs.filter (·.1 == name)

def ShortFirst (pairs : List (String × Value)) : Prop :=
  pairs.Pairwise fun a b => (Path.segments a.1).length ≤ (Path.segments b.1).length

variable {pairs others : List (String × Value)}

theorem Rearranged.mem_iff (h : Rearranged pairs others) {pair : String × Value} :
    pair ∈ others ↔ pair ∈ pairs := by
  have hname := h pair.1
  have hmem (list : List (String × Value)) : pair ∈ list ↔ pair ∈ list.filter (·.1 == pair.1) := by
    simp
  rw [hmem others, hname, ← hmem]

theorem Rearranged.symm (h : Rearranged pairs others) : Rearranged others pairs :=
  fun name => (h name).symm

theorem Rearranged.trans {last : List (String × Value)} (h : Rearranged pairs others)
    (h' : Rearranged others last) : Rearranged pairs last :=
  fun name => (h' name).trans (h name)

def byName (order : String → String → Ordering) (a b : String × Value) : Ordering :=
  order a.1 b.1

instance {order : String → String → Ordering} [Std.TransCmp order] :
    Std.TransCmp (byName order) where
  eq_swap {a b} := show order a.1 b.1 = (order b.1 a.1).swap from Std.OrientedCmp.eq_swap
  isLE_trans {a b c} := show (order a.1 b.1).isLE → (order b.1 c.1).isLE → (order a.1 c.1).isLE from
    Std.TransCmp.isLE_trans

theorem rearranged_merge_sort (order : String → String → Ordering) [Std.TransCmp order]
    (pairs : List (String × Value)) :
    Rearranged pairs (pairs.mergeSort fun a b => (byName order a b).isLE) := by
  intro name
  have hsame (list : List (String × Value)) : list.filter (·.1 == name) =
      (list.filter (byName order (name, .null) · == .eq)).filter (·.1 == name) := by
    rw [List.filter_filter]
    apply List.filter_congr
    intro pair _
    by_cases hname : pair.1 = name
    · have htie : order name name = .eq := Std.ReflCmp.compare_self
      simp [byName, hname, htie]
    · simp [hname]
  rw [hsame, filter_tied_merge_sort, ← hsame]

theorem Rearranged.of_cons {pair : String × Value} {before after : List (String × Value)}
    (h : Rearranged (pair :: pairs) (before ++ pair :: after))
    (hbefore : ∀ earlier ∈ before, earlier.1 ≠ pair.1) : Rearranged pairs (before ++ after) := by
  intro name
  have hname := h name
  rw [List.filter_append, List.filter_cons, List.filter_cons] at hname
  rw [List.filter_append]
  by_cases heq : pair.1 = name
  · have hnone : before.filter (·.1 == name) = [] := by
      rw [List.filter_eq_nil_iff]
      intro earlier hmem
      rw [beq_iff_eq, ← heq]
      exact hbefore earlier hmem
    simpa [heq, hnone] using hname
  · simpa [heq] using hname

/-- A write can be made before all those from which it diverges. -/
theorem foldl_write_move {pair : String × Value} {before : List (String × Value)}
    (h : ∀ earlier ∈ before, Diverge (Path.segments earlier.1) (Path.segments pair.1))
    (after : List (String × Value)) (columns : Dictionary Value) :
    (before ++ pair :: after).foldl (fun columns pair =>
        write columns (Path.segments pair.1) pair.2) columns =
      (before ++ after).foldl (fun columns pair => write columns (Path.segments pair.1) pair.2)
        (write columns (Path.segments pair.1) pair.2) := by
  induction before generalizing columns with
  | nil => rfl
  | cons first before ih =>
    obtain ⟨hfirst, hbefore⟩ := List.forall_mem_cons.mp h
    rw [List.cons_append, List.cons_append, List.foldl_cons, List.foldl_cons, ih hbefore,
      write_comm hfirst]

theorem foldl_write_rearranged (h : Rearranged pairs others) (hpairs : ShortFirst pairs)
    (hothers : ShortFirst others) (columns : Dictionary Value) :
    others.foldl (fun columns pair => write columns (Path.segments pair.1) pair.2) columns =
      pairs.foldl (fun columns pair => write columns (Path.segments pair.1) pair.2) columns := by
  induction pairs generalizing others columns with
  | nil =>
    have hnil : others = [] :=
      List.eq_nil_iff_forall_not_mem.mpr fun _ hmem => List.not_mem_nil (h.mem_iff.mp hmem)
    rw [hnil]
  | cons pair pairs ih =>
    obtain ⟨hshort, hpairs⟩ := List.pairwise_cons.mp hpairs
    have hname := h pair.1
    rw [List.filter_cons_of_pos (by simp)] at hname
    obtain ⟨before, after, rfl, hbefore, _, _⟩ := List.filter_eq_cons_iff.mp hname
    have hne : ∀ earlier ∈ before, earlier.1 ≠ pair.1 := by simpa using hbefore
    -- What stands before the first pair in one list and after it in the other has names of the
    -- same length.
    have hdiverge : ∀ earlier ∈ before,
        Diverge (Path.segments earlier.1) (Path.segments pair.1) := by
      intro earlier hmem
      have hlater : earlier ∈ pairs := by
        rcases List.mem_cons.mp (h.mem_iff.mp (List.mem_append_left _ hmem)) with rfl | hlater
        · exact absurd rfl (hne _ hmem)
        · exact hlater
      have hle : (Path.segments earlier.1).length ≤ (Path.segments pair.1).length :=
        (List.pairwise_append.mp hothers).2.2 earlier hmem pair List.mem_cons_self
      exact .of_length (hne earlier hmem) (Nat.le_antisymm hle (hshort earlier hlater))
    have hrest : ShortFirst (before ++ after) :=
      hothers.sublist (List.Sublist.append_left (List.sublist_cons_self pair after) before)
    rw [foldl_write_move hdiverge, List.foldl_cons, ih (h.of_cons hne) hpairs hrest]

theorem short_first_by_order (pairs : List (String × Value)) :
    ShortFirst (pairs.mergeSort fun a b => (byName Path.order a b).isLE) := by
  refine List.Pairwise.imp ?_ (pairwise_merge_sort_is_le pairs)
  intro a b hle
  exact length_le_of_order hle

theorem of_paths_eq_write_all_of_short_first (h : Rearranged pairs others)
    (hshort : ShortFirst others) : ofPaths pairs = writeAll others := by
  have hsorted := rearranged_merge_sort Path.order pairs
  rw [of_paths_eq_write_all, writeAll, writeAll]
  congr 1
  exact foldl_write_rearranged (h.symm.trans hsorted) hshort (short_first_by_order pairs) ∅

/-- Values at dotted names make the record that comes of writing them one after another, those at
names with fewer segments first and those at the same name in the order of the list: in the order of
the list otherwise, or in any other one. So the list can be rearranged under different names. -/
theorem of_paths_rearranged (pairs : List (String × Value)) :
    ofPaths pairs = writeAll (pairs.mergeSort fun a b =>
        decide ((Path.segments a.1).length ≤ (Path.segments b.1).length)) ∧
      (∀ others, Rearranged pairs others → ShortFirst others →
        ofPaths pairs = writeAll others) ∧
      ∀ others, Rearranged pairs others → ofPaths others = ofPaths pairs := by
  refine ⟨?_, fun others => of_paths_eq_write_all_of_short_first, fun others h => ?_⟩
  · have hcount : (fun a b : String × Value =>
        decide ((Path.segments a.1).length ≤ (Path.segments b.1).length)) =
        fun a b => (byName (compareOn fun name => (Path.segments name).length) a b).isLE := by
      funext a b
      rw [Bool.eq_iff_iff, decide_eq_true_iff, byName, compareOn, Nat.isLE_compare]
    rw [hcount]
    apply of_paths_eq_write_all_of_short_first (rearranged_merge_sort _ pairs)
    refine (pairwise_merge_sort_is_le pairs).imp fun {a b} hle => ?_
    rwa [byName, compareOn, Nat.isLE_compare] at hle
  · rw [of_paths_eq_write_all others]
    exact (of_paths_eq_write_all_of_short_first (h.trans (rearranged_merge_sort Path.order others))
      (short_first_by_order others)).symm

def crossingPairs : List (String × Value) :=
  [("a.b.c", .integer 1), ("x.y", .integer 2), ("a.b.c", .integer 3), ("x", .text "s"),
    ("a", .record (ofPairs [("b", .record (ofPairs [("d", .null)]))]))]

def uncrossedPairs : List (String × Value) :=
  [("x", .text "s"), ("a", .record (ofPairs [("b", .record (ofPairs [("d", .null)]))])),
    ("x.y", .integer 2), ("a.b.c", .integer 1), ("a.b.c", .integer 3)]

theorem of_paths_rearranged_crossing_pairs :
    Rearranged crossingPairs uncrossedPairs ∧ ShortFirst uncrossedPairs ∧
      ofPaths crossingPairs = writeAll uncrossedPairs ∧
      ofPaths uncrossedPairs = ofPaths crossingPairs ∧
      (ofPaths crossingPairs == ofPairs [("a", .record (ofPairs [("b", .record (ofPairs
        [("c", .integer 3), ("d", .null)]))])), ("x", .text "s")]) = true := by
  have hrearranged : Rearranged crossingPairs uncrossedPairs := by
    intro name
    simp only [crossingPairs, uncrossedPairs, List.filter_cons, beq_iff_eq]
    grind
  have hshort : ShortFirst uncrossedPairs := by
    unfold ShortFirst
    decide +kernel
  obtain ⟨_, hwritten, hlist⟩ := of_paths_rearranged crossingPairs
  refine ⟨hrearranged, hshort, hwritten _ hrearranged hshort, hlist _ hrearranged, ?_⟩
  rw [hwritten _ hrearranged hshort]
  decide +kernel

end Record
end RelationalQuery
