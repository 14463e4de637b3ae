import Mathlib.Data.List.Pairwise
import Mathlib.Data.List.TakeWhile
import RelationalQuery.Proofs.Record.Columns
import RelationalQuery.Proofs.Text.Quoted

/-!
# What the display of a record shows

A record is shown as the list of its columns, each under the greatest alias that stands for it. The
value beside a column is the one that its name is looked up to. So the display shows the stored
values if and only if looking a column up by its name gives the value that is stored there
(`display_stored_iff`): an alias spelled like a column puts another value in its place. The values
can be compared through the text, because the display of a scalar shows where it ends.
-/

set_option autoImplicit false

namespace RelationalQuery

def isNumeral (c : Char) : Bool := c.isDigit || c = '-'

def leading : List Char → Option Char
  | [] => none
  | c :: _ => some (if isNumeral c then '0' else c)

def EndsEntry (rest : List Char) : Prop := ∃ c later, rest = c :: later ∧ (c = ',' ∨ c = '\x7d')

theorem is_numeral_of_mem_repr {n : Int} {c : Char} (h : c ∈ n.repr.toList) :
    isNumeral c = true := by
  have hdigits : ∀ m : Nat, c ∈ m.repr.toList → isNumeral c = true := by
    intro m hc
    rw [Nat.toList_repr] at hc
    simp [isNumeral, Nat.isDigit_of_mem_toDigits (by decide) (by decide) hc]
  rw [Int.repr_eq_if] at h
  split at h
  · exact hdigits _ h
  · rw [String.toList_append, List.mem_append] at h
    rcases h with h | h
    · rw [List.mem_singleton.mp h]
      rfl
    · exact hdigits _ h

theorem repr_injective {m n : Int} (h : m.repr = n.repr) : m = n := by
  have hnat {a b : Nat} (hab : a.repr = b.repr) : a = b := by
    have hdigits := congrArg (fun s : String => Nat.ofDigitChars 10 s.toList 0) hab
    simpa using hdigits
  have hsign {a : Nat} {s : String} : a.repr ≠ "-" ++ s := by
    intro hab
    have hmem : '-' ∈ Nat.toDigits 10 a := by
      rw [← Nat.toList_repr, hab]
      simp
    have hdigit := Nat.isDigit_of_mem_toDigits (by decide) (by decide) hmem
    contradiction
  rw [Int.repr_eq_if, Int.repr_eq_if] at h
  split at h <;> split at h
  · have := hnat h
    omega
  · exact absurd h hsign
  · exact absurd h.symm hsign
  · have := hnat ((String.append_right_inj _).mp h)
    omega

namespace Scalar

def mark : Scalar → Char
  | null => 'n'
  | boolean truth => if truth then 't' else 'f'
  | integer _ => '0'
  | text _ => '"'

theorem leading_display (a : Scalar) (rest : List Char) :
    leading (a.display.toList ++ rest) = some a.mark := by
  cases a with
  | null => rfl
  | boolean truth => cases truth <;> rfl
  | text characters => simp [display, Text.quote, leading, mark, isNumeral]
  | integer number =>
    have hnumeral : ∀ c ∈ number.toInt.repr.toList, isNumeral c = true :=
      fun _ => is_numeral_of_mem_repr
    cases hdigits : number.toInt.repr.toList with
    | nil =>
      have hempty := String.toList_eq_nil_iff.mp hdigits
      rw [Int.repr_eq_if] at hempty
      split at hempty <;> simp at hempty
    | cons c later =>
      have hc : isNumeral c = true := hnumeral c (by simp [hdigits])
      simp [display, hdigits, leading, mark, hc]

/-- The display of a scalar and what follows it in a list of entries can be told from the whole. -/
theorem display_append_inj {a b : Scalar} {s t : List Char} (hs : EndsEntry s) (ht : EndsEntry t)
    (h : a.display.toList ++ s = b.display.toList ++ t) : a = b ∧ s = t := by
  have hmark := congrArg leading h
  rw [leading_display, leading_display, Option.some.injEq] at hmark
  cases a <;> cases b
  case null.null => exact ⟨rfl, List.append_cancel_left h⟩
  case boolean.boolean truth truth' =>
    obtain rfl : truth = truth' := by cases truth <;> cases truth' <;> simp_all [mark]
    exact ⟨rfl, List.append_cancel_left h⟩
  case text.text =>
    obtain ⟨rfl, hrest⟩ := Text.quote_append_inj h
    exact ⟨rfl, hrest⟩
  case integer.integer m n =>
    have hstop {rest : List Char} (hrest : EndsEntry rest) (k : Int) :
        (k.repr.toList ++ rest).takeWhile isNumeral = k.repr.toList := by
      obtain ⟨c, later, rfl, hc⟩ := hrest
      rw [List.takeWhile_append_of_pos fun _ => is_numeral_of_mem_repr]
      rcases hc with rfl | rfl <;> simp [isNumeral]
    change m.toInt.repr.toList ++ s = n.toInt.repr.toList ++ t at h
    have hdigits : m.toInt.repr.toList = n.toInt.repr.toList := by
      rw [← hstop hs, h, hstop ht]
    obtain rfl := Int64.toInt_inj.mp (repr_injective (String.toList_injective hdigits))
    exact ⟨rfl, List.append_cancel_left h⟩
  all_goals grind [mark]

end Scalar

theorem Value.leading_display_record (content : Record) (rest : List Char) :
    leading ((Value.record content).display.toList ++ rest) = some '\x7b' := by
  rw [Value.display, Record.display]
  simp [leading, isNumeral]

theorem Value.display_append_inj {value : Value} {b : Scalar} {s t : List Char} (hs : EndsEntry s)
    (ht : EndsEntry t) (h : value.display.toList ++ s = b.display.toList ++ t) :
    value = .scalar b ∧ s = t := by
  cases value with
  | scalar a =>
    rw [Value.display] at h
    obtain ⟨rfl, hrest⟩ := Scalar.display_append_inj hs ht h
    exact ⟨rfl, hrest⟩
  | record content =>
    have hmark := congrArg leading h
    rw [leading_display_record, Scalar.leading_display] at hmark
    cases b <;> grind [Scalar.mark]

def laterEntries : List String → List Char
  | [] => ['\x7d']
  | entry :: later => ',' :: ' ' :: (entry.toList ++ laterEntries later)

theorem ends_entry_later_entries (entries : List String) : EndsEntry (laterEntries entries) := by
  cases entries with
  | nil => exact ⟨_, _, rfl, .inr rfl⟩
  | cons entry later => exact ⟨_, _, rfl, .inl rfl⟩

theorem to_list_intercalate_entries (entry : String) (later : List String) :
    (String.intercalate ", " (entry :: later) ++ "\x7d").toList =
      entry.toList ++ laterEntries later := by
  induction later generalizing entry with
  | nil => simp [laterEntries]
  | cons next later ih =>
    rw [String.intercalate_cons_cons, String.append_assoc, String.toList_append, ih, laterEntries]
    simp

theorem later_entries_eq_of_text {entry entry' : String} {later later' : List String}
    (h : "\x7b" ++ String.intercalate ", " (entry :: later) ++ "\x7d" =
      "\x7b" ++ String.intercalate ", " (entry' :: later') ++ "\x7d") :
    laterEntries (entry :: later) = laterEntries (entry' :: later') := by
  rw [String.append_assoc, String.append_assoc, String.append_right_inj] at h
  have htext := congrArg String.toList h
  rw [to_list_intercalate_entries, to_list_intercalate_entries] at htext
  rw [laterEntries, laterEntries, htext]

/-- The text of a display tells the values in its entries, if one of two texts shows scalars. -/
theorem later_entries_inj {columns : List String} {shown : String → String}
    {found stored : String → Value} (hstored : ∀ column ∈ columns, ∃ a, stored column = .scalar a)
    (h : laterEntries (columns.map fun column => shown column ++ ": " ++ (found column).display) =
      laterEntries (columns.map fun column => shown column ++ ": " ++ (stored column).display)) :
    ∀ column ∈ columns, found column = stored column := by
  induction columns with
  | nil => exact List.forall_mem_nil _
  | cons column later ih =>
    obtain ⟨⟨a, ha⟩, hothers⟩ := List.forall_mem_cons.mp hstored
    simp only [List.map_cons, laterEntries, String.toList_append, List.append_assoc,
      List.cons.injEq, true_and, List.append_cancel_left_eq] at h
    rw [ha, Value.display] at h
    obtain ⟨hfirst, hlater⟩ := Value.display_append_inj (ends_entry_later_entries _)
      (ends_entry_later_entries _) h
    exact List.forall_mem_cons.mpr ⟨hfirst.trans ha.symm, ih hothers hlater⟩

namespace Record

variable {r : Record}

def ShownAs (r : Record) (column shown : String) : Prop :=
  (r.aliases.find? shown = some column ∧
      ∀ other, r.aliases.find? other = some column → other ≤ shown) ∨
    ((∀ other, r.aliases.find? other ≠ some column) ∧ shown = column)

theorem shown_as_display_name (r : Record) (column : String) :
    r.ShownAs column (r.displayName column) := by
  have hmem (name : String) : r.aliases.find? name = some column ↔
      (name, column) ∈ r.aliases.toList.filter fun entry => entry.2 = column := by
    simp [Dictionary.mem_to_list]
  have hsorted := r.aliases.pairwise_to_list.filter fun entry => entry.2 = column
  cases hlast : (r.aliases.toList.filter fun entry => entry.2 = column).getLast? with
  | none =>
    refine .inr ⟨fun other hother => ?_, by simp [displayName, hlast]⟩
    rw [hmem, List.getLast?_eq_none_iff.mp hlast] at hother
    exact List.not_mem_nil hother
  | some entry =>
    obtain ⟨name, target⟩ := entry
    have htarget : target = column := by
      simpa using (List.mem_filter.mp (List.mem_of_getLast? hlast)).2
    subst htarget
    have hshown : r.displayName target = name := by simp [displayName, hlast]
    rw [hshown]
    refine .inl ⟨(hmem name).mpr (List.mem_of_getLast? hlast), fun other hother => ?_⟩
    obtain ⟨before, heq⟩ := List.getLast?_eq_some_iff.mp hlast
    rw [hmem, heq, List.mem_append] at hother
    rw [heq, List.pairwise_append] at hsorted
    rcases hother with hother | hother
    · exact Std.le_of_lt (hsorted.2.2 _ hother _ (List.mem_singleton_self _))
    · simp_all

theorem display_eq (r : Record) : r.display = "\x7b" ++ String.intercalate ", "
    (r.columnNames.map fun column => r.displayName column ++ ": " ++ (r.get column).display) ++
      "\x7d" := by
  rw [Record.display]
  congr 3
  refine List.map_congr_left fun column _ => congrArg _ ?_
  rw [get]
  split
  · rename_i value hfound
    rw [hfound]
    rfl
  · rename_i hfound
    rw [hfound, Value.ofOption, Option.getD_none, Value.display]

def Named (name : String) (value : Value) : Prop := name ≠ "" ∧ Undotted name value

instance (name : String) (value : Value) : Decidable (Named name value) :=
  inferInstanceAs (Decidable (_ ∧ _))

theorem read_back_of_named (hnames : r.EachColumn Named) : r.ReadBack := by
  intro path hpath
  obtain ⟨hne, hsegments⟩ := each_scalar_path hnames hpath
  refine Path.segments_column_name hne (fun segment hsegment => ?_) ?_
  · obtain ⟨_, _, hdots⟩ := hsegments segment hsegment
    exact hdots
  · rintro inner rfl
    obtain ⟨_, hempty, _⟩ := hsegments "" List.mem_cons_self
    contradiction

/-- The display shows every column under the greatest alias that stands for it, or else its own
name. It shows the stored values beside them if and only if every column has its stored value when
it is looked up by its name. -/
theorem display_stored_iff (r : Record) (hnames : r.EachColumn Named) :
    ∃ shown : String → String, (∀ column, r.ShownAs column (shown column)) ∧
      (r.display = "\x7b" ++ String.intercalate ", " (r.columnNames.map fun column =>
          shown column ++ ": " ++
            (Value.ofOption (r.stored? (Path.segments column))).display) ++ "\x7d" ↔
        ∀ column ∈ r.columnNames,
          r.get column = Value.ofOption (r.stored? (Path.segments column))) := by
  refine ⟨r.displayName, shown_as_display_name r, ?_⟩
  rw [display_eq]
  constructor
  · intro h
    have hstored : ∀ column ∈ r.columnNames, ∃ content,
        Value.ofOption (r.stored? (Path.segments column)) = .scalar content := by
      intro column hcolumn
      obtain ⟨content, hcontent⟩ := (mem_column_names_iff (read_back_of_named hnames)).mp hcolumn
      exact ⟨content, by rw [hcontent]; rfl⟩
    cases hcolumns : r.columnNames with
    | nil => exact List.forall_mem_nil _
    | cons first later =>
      rw [hcolumns] at h hstored
      rw [List.map_cons, List.map_cons] at h
      exact later_entries_inj hstored (later_entries_eq_of_text h)
  · intro h
    rw [List.map_congr_left fun column hcolumn => by rw [h column hcolumn]]

def aliasedColumns : Record :=
  (ofPairs [("left", .record (ofPairs [("id", .integer 7), ("first name", .text "a\nb")])),
    ("ok", .boolean true)]).withAliases
      (Dictionary.ofList [("id", "left.id"), ("key", "left.id"), ("gone", "missing")])

theorem display_stored_iff_aliased_columns :
    aliasedColumns.EachColumn Named ∧ ∃ shown : String → String,
      (∀ column, aliasedColumns.ShownAs column (shown column)) ∧
        aliasedColumns.display = "\x7b" ++ String.intercalate ", "
          (aliasedColumns.columnNames.map fun column => shown column ++ ": " ++
            (Value.ofOption (aliasedColumns.stored? (Path.segments column))).display) ++
          "\x7d" := by
  have hnames : aliasedColumns.EachColumn Named := by decide +kernel
  have hcolumns : aliasedColumns.columnNames = ["left.first name", "left.id", "ok"] :=
    List.mergeSort_of_pairwise (by decide +kernel)
  obtain ⟨shown, hshown, hdisplay⟩ := display_stored_iff aliasedColumns hnames
  refine ⟨hnames, shown, hshown, hdisplay.mpr ?_⟩
  rw [hcolumns]
  simp only [List.forall_mem_cons, List.not_mem_nil, false_imp_iff, implies_true, and_true]
  exact ⟨rfl, rfl, rfl⟩

def exchangedNames : Record :=
  (ofPairs [("a", .integer 1), ("b", .integer 2)]).renamed
    (Dictionary.ofList [("a", "b"), ("b", "a")])

/-- Each of the two columns is shown with the value of the other one. -/
theorem display_exchanged_names :
    exchangedNames.EachColumn Named ∧ exchangedNames.columnNames = ["a", "b"] ∧
      exchangedNames.ShownAs "a" "b" ∧ exchangedNames.ShownAs "b" "a" ∧
      exchangedNames.stored? (Path.segments "a") = some (.integer 1) ∧
      exchangedNames.stored? (Path.segments "b") = some (.integer 2) ∧
      exchangedNames.display = "\x7bb: 2, a: 1\x7d" := by
  have hcolumns : exchangedNames.columnNames = ["a", "b"] :=
    List.mergeSort_of_pairwise (by decide +kernel)
  have ha := exchangedNames.shown_as_display_name "a"
  have hb := exchangedNames.shown_as_display_name "b"
  have hvalues : exchangedNames.get "a" = .integer 2 ∧ exchangedNames.get "b" = .integer 1 :=
    ⟨rfl, rfl⟩
  refine ⟨by decide +kernel, hcolumns, ha, hb, rfl, rfl, ?_⟩
  rw [display_eq, hcolumns, List.map_cons, List.map_cons, List.map_nil, hvalues.1, hvalues.2,
    Value.display, Value.display]
  decide +kernel

end Record
end RelationalQuery
