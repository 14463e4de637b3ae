import RelationalQuery.Proofs.Statement.Printed

/-!
# Reading what was printed

A printed statement is read back whenever each of its filters could be: at most 64 connectives on
every path from the root to a condition. Otherwise the first filter with more of them is refused.
-/

set_option autoImplicit false

namespace RelationalQuery

def endsName (c : Char) : Bool := isBlank c || c = ','

theorem ends_name_of_is_blank {c : Char} (h : isBlank c = true) : endsName c = true := by
  simp [endsName, h]

namespace Statement

def filters (s : Statement) : List Filter := s.joins.map JoinClause.on ++ s.condition?.toList

structure WellFormed (s : Statement) : Prop where
  columns_ne_nil : s.columns ≠ []
  tables_ne_nil : s.tables ≠ []
  columns_words : ∀ name ∈ s.columns, IsWord endsName name
  tables_words : ∀ name ∈ s.tables, IsWord endsName name
  joined_words : ∀ j ∈ s.joins, IsWord endsName j.table
  filters_wellFormed : ∀ f ∈ s.filters, f.WellFormed

end Statement

def laterNames (names : List String) : List Char := names.flatMap fun n => ',' :: ' ' :: n.toList

theorem to_list_intercalate_cons (name : String) (names : List String) :
    (String.intercalate ", " (name :: names)).toList = name.toList ++ laterNames names := by
  induction names generalizing name with
  | nil => simp [laterNames]
  | cons n names ih =>
    have hstep : (String.intercalate ", " (name :: n :: names)).toList =
        name.toList ++ ',' :: ' ' :: (String.intercalate ", " (n :: names)).toList := by
      simp [String.toList_intercalate, List.intercalate]
    rw [hstep, ih]
    rfl

def clauses (joins : List JoinClause) (condition? : Option Filter) : List Char :=
  (joins.flatMap fun j => ' ' :: j.display.toList) ++
    match condition? with
    | some f => ' ' :: (Keyword.where.spelling.toList ++ ' ' :: f.display.toList)
    | none => []

theorem clauses_cons (j : JoinClause) (joins : List JoinClause) (condition? : Option Filter) :
    clauses (j :: joins) condition? = ' ' :: (j.display.toList ++ clauses joins condition?) := by
  simp [clauses]

theorem Statement.to_list_display (s : Statement) :
    s.display.toList = Keyword.select.spelling.toList ++ ' ' ::
      ((String.intercalate ", " s.columns).toList ++ ' ' :: (Keyword.from.spelling.toList ++ ' ' ::
        ((String.intercalate ", " s.tables).toList ++ clauses s.joins s.condition?))) := by
  obtain ⟨columns, tables, joins, condition?⟩ := s
  cases condition? <;>
    simp [display, clauses, Keyword.spelling, String.toList_join, List.flatMap_map]

def Continues (rest : List Char) : Prop :=
  rest = [] ∨ ∃ k ∈ [Keyword.from, .left, .inner, .join, .where], ∃ more,
    rest = ' ' :: (k.spelling.toList ++ ' ' :: more)

namespace Continues

variable {rest : List Char}

theorem stops_at (h : Continues rest) {ends : Char → Bool} (hspace : ends ' ' = true) :
    StopsAt ends rest := by
  rcases h with rfl | ⟨k, _, more, rfl⟩
  · exact stops_at_nil ends
  · exact stops_at_cons.mpr hspace

theorem comma_none (h : Continues rest) : (Opener.symbol ',').after? (skipBlanks rest) = none := by
  rcases h with rfl | ⟨k, _, more, rfl⟩
  · rfl
  · cases k <;> rfl

theorem ends_at (h : Continues rest) : (Phrase.chain .or).EndsAt (skipBlanks rest) := by
  rcases h with rfl | ⟨k, hk, more, rfl⟩
  · exact ⟨rfl, rfl⟩
  · simp only [List.mem_cons, List.not_mem_nil, or_false] at hk
    rcases hk with rfl | rfl | rfl | rfl | rfl <;> exact ⟨rfl, rfl⟩

end Continues

def JoinKind.firstWord : JoinKind → Keyword
  | leftOuter => .left
  | inner => .inner
  | plain => .join

def JoinKind.laterWords : JoinKind → List Char
  | leftOuter => Keyword.outer.spelling.toList ++ ' ' :: (Keyword.join.spelling.toList ++ [' '])
  | inner => Keyword.join.spelling.toList ++ [' ']
  | plain => []

theorem JoinClause.to_list_display (j : JoinClause) (rest : List Char) :
    j.display.toList ++ rest = j.kind.firstWord.spelling.toList ++ ' ' :: (j.kind.laterWords ++
      (j.table.toList ++ ' ' :: (Keyword.on.spelling.toList ++ ' ' ::
        (j.on.display.toList ++ rest)))) := by
  obtain ⟨kind, table, on⟩ := j
  cases kind <;>
    simp [display, JoinKind.display, JoinKind.firstWord, JoinKind.laterWords, Keyword.spelling]

theorem continues_clauses (joins : List JoinClause) (condition? : Option Filter) :
    Continues (clauses joins condition?) := by
  cases joins with
  | nil =>
    cases condition? with
    | none => exact .inl rfl
    | some f => exact .inr ⟨.where, by simp, f.display.toList, rfl⟩
  | cons j joins =>
    rw [clauses_cons, JoinClause.to_list_display]
    exact .inr ⟨j.kind.firstWord, by cases j.kind <;> simp [JoinKind.firstWord], _, rfl⟩

namespace Reader

variable {rest : List Char}

theorem run_keyword_space (k : Keyword) {blanks : List Char} (hblanks : Blanks blanks)
    (more : List Char) :
    (keyword k).run (skipBlanks (blanks ++ (k.spelling.toList ++ ' ' :: more))) =
      .ok ((), skipBlanks more) :=
  run_keyword k hblanks (stops_at_cons.mpr (by decide))

theorem run_name {n : String} (hn : IsWord endsName n) (hrest : StopsAt endsName rest) :
    name.run (n.toList ++ rest) = .ok (n, skipBlanks rest) :=
  run_word_append (fun _ => ends_name_of_is_blank) hn hrest

theorem stops_at_later_names (ns : List String) (hrest : Continues rest) :
    StopsAt endsName (laterNames ns ++ rest) := by
  cases ns with
  | nil => exact hrest.stops_at (by decide)
  | cons n ns => exact stops_at_cons.mpr (by decide)

theorem run_later_names {ns : List String} (hns : ∀ n ∈ ns, IsWord endsName n)
    (hrest : Continues rest) :
    (many (Opener.symbol ',') fun _ => name).run (skipBlanks (laterNames ns ++ rest)) =
      .ok (ns, skipBlanks rest) := by
  induction ns with
  | nil => exact run_many_absent hrest.comma_none
  | cons n ns ih =>
    have hn : IsWord endsName n := hns n (by simp)
    have hopen : (Opener.symbol ',').after? (skipBlanks (laterNames (n :: ns) ++ rest)) =
        some ((), n.toList ++ (laterNames ns ++ rest)) := by
      have htext : laterNames (n :: ns) ++ rest =
          ',' :: ' ' :: (n.toList ++ (laterNames ns ++ rest)) := by
        simp [laterNames]
      rw [htext, skip_blanks_cons (by decide)]
      simp [Opener.symbol, skip_blanks_space, skip_blanks_word (fun _ => ends_name_of_is_blank) hn]
    apply run_many_cons.mpr
    exact ⟨(), _, _, hopen, run_name hn (stops_at_later_names ns hrest),
      ih fun m hm => hns m (by simp [hm])⟩

theorem run_names {ns : List String} (hne : ns ≠ []) (hns : ∀ n ∈ ns, IsWord endsName n)
    (hrest : Continues rest) :
    names.run (skipBlanks ((String.intercalate ", " ns).toList ++ rest)) =
      .ok (ns, skipBlanks rest) := by
  cases ns with
  | nil => exact absurd rfl hne
  | cons n ns =>
    have hn : IsWord endsName n := hns n (by simp)
    have hlater : ∀ m ∈ ns, IsWord endsName m := fun m hm => hns m (by simp [hm])
    rw [to_list_intercalate_cons, List.append_assoc,
      skip_blanks_word (fun _ => ends_name_of_is_blank) hn, names,
      run_bind_of_ok (run_name hn (stops_at_later_names ns hrest)),
      run_bind_of_ok (run_later_names hlater hrest)]
    rfl

theorem join_kind_display (kind : JoinKind) (more : List Char) :
    Opener.joinKind.after? (skipBlanks (' ' :: (kind.firstWord.spelling.toList ++ ' ' :: more))) =
      some (kind, skipBlanks more) := by
  cases kind <;> rfl

theorem run_join_clause (kind : JoinKind) (more : List Char) :
    (joinClause kind).run (skipBlanks (kind.laterWords ++ more)) =
      (do let table ← name
          keyword .on
          let on ← filter
          return ⟨kind, table, on⟩ : Reader JoinClause).run (skipBlanks more) := by
  have hjoin := run_keyword_space .join blanks_nil more
  cases kind with
  | leftOuter =>
    have houter := run_keyword_space .outer blanks_nil (Keyword.join.spelling.toList ++ ' ' :: more)
    have htext : JoinKind.leftOuter.laterWords ++ more = Keyword.outer.spelling.toList ++
        ' ' :: (Keyword.join.spelling.toList ++ ' ' :: more) := by
      simp [JoinKind.laterWords]
    rw [htext]
    exact (run_bind_of_ok houter).trans (run_bind_of_ok hjoin)
  | inner =>
    have htext : JoinKind.inner.laterWords ++ more =
        Keyword.join.spelling.toList ++ ' ' :: more := by
      simp [JoinKind.laterWords]
    rw [htext]
    exact run_bind_of_ok hjoin
  | plain => rfl

theorem join_clause_display {j : JoinClause} (hj : IsWord endsName j.table) (hon : j.on.WellFormed)
    (hrest : Continues rest) :
    TakesIf (j.on.nesting ≤ 64) (joinClause j.kind)
      (skipBlanks (j.kind.laterWords ++ (j.table.toList ++ ' ' :: (Keyword.on.spelling.toList ++
        ' ' :: (j.on.display.toList ++ rest))))) j (skipBlanks rest) := by
  have hspace : StopsAt endsName
      (' ' :: (Keyword.on.spelling.toList ++ ' ' :: (j.on.display.toList ++ rest))) :=
    stops_at_cons.mpr (by decide)
  have hname := run_name hj hspace
  have hkeyword := run_keyword_space .on blanks_space (j.on.display.toList ++ rest)
  rw [skip_blanks_display hon] at hkeyword
  have hfilter := filter_display hon (hrest.stops_at (by decide)) hrest.ends_at
  have hclause : TakesIf (j.on.nesting ≤ 64)
      (do let table ← name
          keyword .on
          let on ← filter
          return ⟨j.kind, table, on⟩)
      (j.table.toList ++
        ' ' :: (Keyword.on.spelling.toList ++ ' ' :: (j.on.display.toList ++ rest)))
      j (skipBlanks rest) :=
    TakesIf.after hname (TakesIf.after hkeyword (hfilter.map (JoinClause.mk j.kind j.table)))
  simpa only [TakesIf, run_join_clause, skip_blanks_word (fun _ => ends_name_of_is_blank) hj] using
    hclause

theorem joins_display {joins : List JoinClause} (condition? : Option Filter)
    (hwords : ∀ j ∈ joins, IsWord endsName j.table) (hon : ∀ j ∈ joins, j.on.WellFormed) :
    TakesIf (∀ j ∈ joins, j.on.nesting ≤ 64) (many Opener.joinKind joinClause)
      (skipBlanks (clauses joins condition?)) joins (skipBlanks (clauses [] condition?)) := by
  induction joins with
  | nil =>
    have hnone : Opener.joinKind.after? (skipBlanks (clauses [] condition?)) = none := by
      cases condition? <;> rfl
    exact (TakesIf.of_ok (run_many_absent hnone)).congr (by simp)
  | cons j joins ih =>
    have hrest := continues_clauses joins condition?
    have hclause := join_clause_display (hwords j (by simp)) (hon j (by simp)) hrest
    have hjoins := ih (fun i hi => hwords i (by simp [hi])) (fun i hi => hon i (by simp [hi]))
    rw [clauses_cons, JoinClause.to_list_display]
    exact (TakesIf.many_cons (join_kind_display _ _) hclause hjoins).congr (by simp)

theorem condition_display {condition? : Option Filter} (h : ∀ f ∈ condition?, f.WellFormed) :
    TakesIf (∀ f ∈ condition?, f.nesting ≤ 64)
      (optional (Opener.keyword .where ()) fun _ => filter) (skipBlanks (clauses [] condition?))
      condition? [] := by
  cases condition? with
  | none =>
    have hnone : (Opener.keyword .where ()).after? (skipBlanks (clauses [] none)) = none := rfl
    exact (TakesIf.of_ok (run_optional_absent hnone)).congr (by simp)
  | some f =>
    have hf := h f rfl
    have hopen : (Opener.keyword .where ()).after? (skipBlanks (clauses [] (some f))) =
        some ((), skipBlanks (f.display.toList ++ [])) := by
      rw [List.append_nil]
      rfl
    rw [skip_blanks_display hf] at hopen
    have hfilter := filter_display hf (stops_at_nil _) ⟨rfl, rfl⟩
    exact (TakesIf.optional_some hopen hfilter).congr (by simp)

theorem statement_display {s : Statement} (h : s.WellFormed) :
    TakesIf (∀ f ∈ s.filters, f.nesting ≤ 64) statement (skipBlanks s.display.toList) s [] := by
  have hcontinues := continues_clauses s.joins s.condition?
  have hfrom : Continues (' ' :: (Keyword.from.spelling.toList ++ ' ' ::
      ((String.intercalate ", " s.tables).toList ++ clauses s.joins s.condition?))) :=
    .inr ⟨.from, by simp, _, rfl⟩
  have hselect := run_keyword_space .select blanks_nil
    ((String.intercalate ", " s.columns).toList ++ ' ' :: (Keyword.from.spelling.toList ++ ' ' ::
      ((String.intercalate ", " s.tables).toList ++ clauses s.joins s.condition?)))
  have hcolumns := run_names h.columns_ne_nil h.columns_words hfrom
  have hkeyword := run_keyword_space .from blanks_space
    ((String.intercalate ", " s.tables).toList ++ clauses s.joins s.condition?)
  have htables := run_names h.tables_ne_nil h.tables_words hcontinues
  have hon (j : JoinClause) (hj : j ∈ s.joins) : j.on.WellFormed :=
    h.filters_wellFormed j.on (List.mem_append_left _ (List.mem_map_of_mem hj))
  have hcondition (f : Filter) (hf : f ∈ s.condition?) : f.WellFormed :=
    h.filters_wellFormed f (List.mem_append_right _ (Option.mem_toList.mpr hf))
  have hjoins := joins_display s.condition? h.joined_words hon
  have hoptional := (condition_display hcondition).map (Statement.mk s.columns s.tables s.joins)
  have hall : ((∀ j ∈ s.joins, j.on.nesting ≤ 64) ∧ ∀ f ∈ s.condition?, f.nesting ≤ 64) ↔
      ∀ f ∈ s.filters, f.nesting ≤ 64 := by
    simp [Statement.filters, or_imp, forall_and]
  rw [← hall, s.to_list_display]
  exact TakesIf.after hselect (TakesIf.after hcolumns (TakesIf.after hkeyword
    (TakesIf.after htables (hjoins.bind fun _ => hoptional))))

theorem TakesIf.parse {α : Type} {p : Prop} {part : Reader α} {text : String} {value : α}
    (h : TakesIf p part (skipBlanks text.toList) value []) :
    (p → part.parse text = .ok value) ∧
      (¬ p → ∃ position, part.parse text = .error (.tooDeep position 64)) := by
  constructor
  · intro hp
    exact parse_ok.mpr ⟨[], h.1 hp, rfl⟩
  · intro hp
    obtain ⟨ahead, herror⟩ := h.2 hp
    exact ⟨_, parse_error herror⟩

end Reader

theorem Derives.well_formed {p : Phrase} {input rest : List Char} {f : Filter} {opened : Nat}
    (h : Derives p input f opened rest) : f.WellFormed := by
  induction h with
  | condition hleft hoperator hright =>
    obtain ⟨_, _, _, hleft, _⟩ := hleft
    obtain ⟨_, _, _, hoperator, _⟩ := hoperator
    obtain ⟨_, _, _, hright, _⟩ := hright
    exact ⟨hleft, hoperator, hright⟩
  | group _ _ _ ih => exact ih
  | last _ ih => exact ih
  | @more c _ _ _ _ _ _ _ _ _ _ _ ihf ihg => cases c <;> exact ⟨ihf, ihg⟩

theorem Derives.after_blanks {p : Phrase} {input rest : List Char} {f : Filter} {opened : Nat}
    (h : Derives p input f opened rest) {blanks : List Char} (hblanks : Blanks blanks) :
    Derives p (blanks ++ input) f opened rest := by
  have happend {more : List Char} (hmore : Blanks more) : Blanks (blanks ++ more) := by
    intro c hc
    rcases List.mem_append.mp hc with hc | hc
    · exact hblanks c hc
    · exact hmore c hc
  induction h with
  | condition hleft hoperator hright =>
    obtain ⟨more, hmore, rfl, hword⟩ := hleft
    exact .condition ⟨blanks ++ more, happend hmore, (List.append_assoc _ _ _).symm, hword⟩
      hoperator hright
  | group hopen hinside hclose =>
    obtain ⟨more, hmore, rfl⟩ := hopen
    exact .group ⟨blanks ++ more, happend hmore, (List.append_assoc _ _ _).symm⟩ hinside hclose
  | last _ ih => exact .last ih
  | more _ hkeyword hlater ih _ => exact .more ih hkeyword hlater

namespace Filter

/-- A printed filter is read back if no path in it has more than 64 connectives, and otherwise it
is refused. -/
theorem parse_printed {f : Filter} (hf : f.WellFormed) :
    (f.nesting ≤ 64 → Filter.parse f.display = .ok f) ∧
      (¬ f.nesting ≤ 64 → ∃ position, Filter.parse f.display = .error (.tooDeep position 64)) := by
  have hread := Reader.filter_display hf (stops_at_nil endsOperand) ⟨rfl, rfl⟩
  rw [← Reader.skip_blanks_display hf, List.append_nil] at hread
  exact hread.parse

/-- Of the filters that are accepted, exactly those are read back from their printed form that have
no more than 64 connectives on any path; the others are refused as too deep. -/
theorem parse_display_iff (text : String) (f : Filter) (h : Filter.parse text = .ok f) :
    (Filter.parse f.display = .ok f ↔ f.nesting ≤ 64) ∧
      (64 < f.nesting → ∃ position, Filter.parse f.display = .error (.tooDeep position 64)) := by
  obtain ⟨opened, ⟨rest, hderives, _⟩, _⟩ := derived_from_of_parse h
  obtain ⟨haccepted, hrefused⟩ := parse_printed hderives.well_formed
  constructor
  · constructor
    · intro hparse
      by_contra hdeep
      obtain ⟨position, herror⟩ := hrefused hdeep
      rw [herror] at hparse
      cases hparse
    · exact haccepted
  · intro hdeep
    exact hrefused (by omega)

def ladder (c : Condition) : Nat → Filter
  | 0 => .condition c
  | n + 1 => .and (.condition c) (ladder c n)

def ladderText (c : Condition) : Nat → List Char
  | 0 => c.display.toList
  | n + 1 => c.display.toList ++ ' ' :: (Keyword.and.spelling.toList ++ ' ' :: ladderText c n)

theorem ladder_well_formed {c : Condition} (hc : c.WellFormed) (n : Nat) :
    (ladder c n).WellFormed := by
  induction n with
  | zero => exact hc
  | succ n ih => exact ⟨hc, ih⟩

theorem nesting_ladder (c : Condition) (n : Nat) : (ladder c n).nesting = n := by
  induction n with
  | zero => rfl
  | succ n ih => simp only [ladder, nesting, ih]; omega

theorem derives_ladder {c : Condition} (hc : c.WellFormed) (n : Nat) :
    Derives (.chain .and) (ladderText c n) (ladder c n) 0 [] := by
  induction n with
  | zero =>
    have hcondition := Reader.derives_display hc (stops_at_nil endsOperand)
    rw [List.append_nil] at hcondition
    exact .last hcondition
  | succ n ih =>
    have hspace : StopsAt endsOperand
        (' ' :: (Keyword.and.spelling.toList ++ ' ' :: ladderText c n)) :=
      stops_at_cons.mpr (by decide)
    have hkeyword : KeywordAt .and (' ' :: (Keyword.and.spelling.toList ++ ' ' :: ladderText c n))
        (' ' :: ladderText c n) :=
      ⟨[' '], Keyword.and.spelling.toList, blanks_space, rfl, rfl, stops_at_cons.mpr (by decide)⟩
    exact .more (c := .and) (Reader.derives_display hc hspace) hkeyword
      (ih.after_blanks blanks_space)

theorem parse_ladder {c : Condition} (hc : c.WellFormed) {n : Nat} (hn : n < 512) :
    Filter.parse (String.ofList (ladderText c n)) = .ok (ladder c n) := by
  have hderived : (ladder c n).DerivedFrom (String.ofList (ladderText c n)) 0 := by
    refine ⟨[], .last ?_, blanks_nil⟩
    rw [String.toList_ofList]
    exact derives_ladder hc n
  apply parse_of_derived_from hderived (by omega)
  rw [depth_eq_nesting, nesting_ladder]
  omega

def equality : Condition := ⟨"a", "=", "1"⟩

theorem equality_well_formed : equality.WellFormed := by decide

theorem parse_display_ladder_64 :
    Filter.parse (String.ofList (ladderText equality 64)) = .ok (ladder equality 64) ∧
      Filter.parse (ladder equality 64).display = .ok (ladder equality 64) := by
  have h := parse_ladder equality_well_formed (by decide : 64 < 512)
  exact ⟨h, (parse_display_iff _ _ h).1.mpr (nesting_ladder equality 64).le⟩

/-- A long chain needs no parentheses where it is written, but its printed form has a pair of them
for each connective: 66 conditions are accepted and not read back. -/
theorem parse_display_ladder_65 :
    Filter.parse (String.ofList (ladderText equality 65)) = .ok (ladder equality 65) ∧
      Filter.parse (ladder equality 65).display ≠ .ok (ladder equality 65) := by
  constructor
  · exact parse_ladder equality_well_formed (by decide)
  · obtain ⟨position, herror⟩ := (parse_printed (ladder_well_formed equality_well_formed 65)).2
      (by rw [nesting_ladder]; decide)
    rw [herror]
    simp

end Filter

namespace Statement

/-- Printing and reading are inverse for the statements whose filters have no more than 64
connectives on any path. With a deeper filter the printed text is refused. -/
theorem parse_display (s : Statement) (h : s.WellFormed) :
    ((∀ f ∈ s.filters, f.nesting ≤ 64) → Statement.parse s.display = .ok s) ∧
      ((∃ f ∈ s.filters, 64 < f.nesting) →
        ∃ position, Statement.parse s.display = .error (.tooDeep position 64)) := by
  have hparse := (Reader.statement_display h).parse
  constructor
  · exact hparse.1
  · intro hdeep
    apply hparse.2
    simpa using hdeep

def lookalike (n : Nat) : Statement where
  columns := ["from", "(x"]
  tables := ["where"]
  joins := [⟨.leftOuter, "on", .or (.condition ⟨"and", "or", "a,b"⟩) (.condition ⟨"on", "=", "1"⟩)⟩,
    ⟨.plain, "inner", .condition ⟨"or", "and", "where"⟩⟩]
  condition? := some (Filter.ladder Filter.equality n)

theorem lookalike_well_formed (n : Nat) : (lookalike n).WellFormed where
  columns_ne_nil := by simp [lookalike]
  tables_ne_nil := by simp [lookalike]
  columns_words := by simp only [lookalike]; decide
  tables_words := by simp only [lookalike]; decide
  joined_words := by simp only [lookalike]; decide
  filters_wellFormed := by
    have hladder := Filter.ladder_well_formed Filter.equality_well_formed n
    simp only [filters, lookalike, List.map_cons, List.map_nil, Option.toList_some,
      List.cons_append, List.nil_append, List.forall_mem_cons, Filter.WellFormed, hladder]
    exact ⟨by decide, by decide, trivial, List.forall_mem_nil _⟩

theorem parse_display_lookalike :
    Statement.parse (lookalike 64).display = .ok (lookalike 64) ∧
      ∃ position, Statement.parse (lookalike 65).display = .error (.tooDeep position 64) := by
  constructor
  · apply (parse_display _ (lookalike_well_formed 64)).1
    simp [filters, lookalike, Filter.nesting_ladder, Filter.nesting]
  · apply (parse_display _ (lookalike_well_formed 65)).2
    exact ⟨Filter.ladder Filter.equality 65, by simp [filters, lookalike],
      by rw [Filter.nesting_ladder]; decide⟩

end Statement
end RelationalQuery
