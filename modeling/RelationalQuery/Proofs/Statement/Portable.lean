import RelationalQuery.Proofs.Statement.Acceptance

/-!
# The same parts before another rest

A part of a statement consists of the characters that are read for it. The rest of the text matters
only because it ends the last word. So the same characters are the same part before any other rest
that ends a word there, in particular before a blank and at the end of a text.

The grammar of statements is given once more, with the part that counts as a filter left open. With
the filters that keep to the limits it is the grammar that the reader accepts; with all filters it
is the same grammar without the limits.
-/

set_option autoImplicit false

namespace RelationalQuery

def EndsAlike (rest rest' : List Char) : Prop :=
  ∀ ends : Char → Bool, (∀ c, isBlank c = true → ends c = true) →
    StopsAt ends rest → StopsAt ends rest'

def Portable (Part : List Char → List Char → Prop) : Prop :=
  ∀ input rest, Part input rest → ∃ read, input = read ++ rest ∧
    ∀ rest', EndsAlike rest rest' → Part (read ++ rest') rest'

def InTurn (Part Next : List Char → List Char → Prop) (input rest : List Char) : Prop :=
  ∃ mid, Part input mid ∧ Next mid rest

theorem is_boundary_of_is_blank {c : Char} (h : isBlank c = true) : isBoundary c = true := by
  simp [isBoundary, h]

namespace EndsAlike

variable {rest rest' : List Char}

theorem of_blank (h : StopsAt isBlank rest') : EndsAlike rest rest' :=
  fun _ hends _ c hc => hends c (h c hc)

theorem append_left (h : EndsAlike rest rest') (read : List Char) :
    EndsAlike (read ++ rest) (read ++ rest') := by
  cases read with
  | nil => exact h
  | cons c read => exact fun _ _ hstops => stops_at_cons.mpr (stops_at_cons.mp hstops)

theorem append_right {more : List Char} (h : StopsAt isBlank more) :
    EndsAlike rest (rest ++ more) := by
  cases rest with
  | nil => exact of_blank h
  | cons c rest => exact fun _ _ hstops => stops_at_cons.mpr (stops_at_cons.mp hstops)

end EndsAlike

namespace Portable

theorem word {ends : Char → Bool} (hends : ∀ c, isBlank c = true → ends c = true) (w : String) :
    Portable (WordAt ends w) := by
  rintro _ rest ⟨blanks, hblanks, rfl, hw, hstops⟩
  refine ⟨blanks ++ w.toList, by simp, fun rest' hrest' => ?_⟩
  exact ⟨blanks, hblanks, by simp, hw, hrest' ends hends hstops⟩

theorem keyword (k : Keyword) : Portable (KeywordAt k) := by
  rintro _ rest ⟨blanks, letters, hblanks, rfl, hletters, hstops⟩
  refine ⟨blanks ++ letters, by simp, fun rest' hrest' => ?_⟩
  exact ⟨blanks, letters, hblanks, by simp, hletters,
    hrest' isBoundary (fun _ => is_boundary_of_is_blank) hstops⟩

theorem symbol (c : Char) : Portable (SymbolAt c) := by
  rintro _ rest ⟨blanks, hblanks, rfl⟩
  exact ⟨blanks ++ [c], by simp, fun rest' _ => ⟨blanks, hblanks, by simp⟩⟩

variable {Part Next : List Char → List Char → Prop}

theorem absent : Portable fun input rest => rest = input := by
  rintro input _ rfl
  exact ⟨[], rfl, fun _ _ => rfl⟩

theorem in_turn (hpart : Portable Part) (hnext : Portable Next) : Portable (InTurn Part Next) := by
  rintro _ rest ⟨mid, hinput, hmid⟩
  obtain ⟨read, rfl, hread⟩ := hpart _ _ hinput
  obtain ⟨read', rfl, hread'⟩ := hnext _ _ hmid
  refine ⟨read ++ read', by simp, fun rest' hrest' => ⟨read' ++ rest', ?_, hread' rest' hrest'⟩⟩
  rw [List.append_assoc]
  exact hread _ (hrest'.append_left read')

theorem exists_of_forall {α : Type} {Part : α → List Char → List Char → Prop}
    (h : ∀ a, Portable (Part a)) : Portable fun input rest => ∃ a, Part a input rest := by
  rintro input rest ⟨a, ha⟩
  obtain ⟨read, hinput, hread⟩ := h a _ _ ha
  exact ⟨read, hinput, fun rest' hrest' => ⟨a, hread rest' hrest'⟩⟩

theorem and_const {p : Prop} (h : Portable Part) :
    Portable fun input rest => Part input rest ∧ p := by
  rintro input rest ⟨hpart, hp⟩
  obtain ⟨read, hinput, hread⟩ := h _ _ hpart
  exact ⟨read, hinput, fun rest' hrest' => ⟨hread rest' hrest', hp⟩⟩

theorem sequence {α : Type} {Part : α → List Char → List Char → Prop}
    (h : ∀ a, Portable (Part a)) (as : List α) : Portable (Sequence Part as) := by
  induction as with
  | nil =>
    rintro input _ ⟨⟩
    exact ⟨[], rfl, fun _ _ => .nil⟩
  | cons a as ih =>
    rintro input rest (_ | ⟨hfirst, hlater⟩)
    obtain ⟨read, hinput, hread⟩ := in_turn (h a) ih _ _ ⟨_, hfirst, hlater⟩
    refine ⟨read, hinput, fun rest' hrest' => ?_⟩
    obtain ⟨mid, hfirst, hlater⟩ := hread rest' hrest'
    exact .cons hfirst hlater

theorem derives (p : Phrase) (f : Filter) (opened : Nat) :
    Portable fun input rest => Derives p input f opened rest := by
  intro input rest h
  have hword := word fun _ => Reader.ends_operand_of_is_blank
  induction h with
  | condition hleft hoperator hright =>
    obtain ⟨read, hinput, hread⟩ :=
      (in_turn (hword _) (in_turn (hword _) (hword _))) _ _ ⟨_, hleft, _, hoperator, hright⟩
    refine ⟨read, hinput, fun rest' hrest' => ?_⟩
    obtain ⟨_, hleft, _, hoperator, hright⟩ := hread rest' hrest'
    exact .condition hleft hoperator hright
  | group hopen _ hclose ih =>
    obtain ⟨before, rfl, hbefore⟩ := symbol '(' _ _ hopen
    obtain ⟨read, rfl, hread⟩ := ih
    obtain ⟨after, rfl, hafter⟩ := symbol ')' _ _ hclose
    refine ⟨before ++ (read ++ after), by simp, fun rest' hrest' => ?_⟩
    have hinside := hrest'.append_left after
    rw [List.append_assoc, List.append_assoc]
    exact .group (hbefore _ (hinside.append_left read)) (hread _ hinside) (hafter _ hrest')
  | last _ ih =>
    obtain ⟨read, hinput, hread⟩ := ih
    exact ⟨read, hinput, fun rest' hrest' => .last (hread rest' hrest')⟩
  | more _ hkeyword _ ihFirst ihLater =>
    obtain ⟨first, rfl, hfirst⟩ := ihFirst
    obtain ⟨between, rfl, hbetween⟩ := keyword _ _ _ hkeyword
    obtain ⟨later, rfl, hlater⟩ := ihLater
    refine ⟨first ++ (between ++ later), by simp, fun rest' hrest' => ?_⟩
    have hmid := hrest'.append_left later
    rw [List.append_assoc, List.append_assoc]
    exact .more (hfirst _ (hmid.append_left between)) (hbetween _ hmid) (hlater _ hrest')

theorem filter_at (f : Filter) : Portable (FilterAt f) :=
  and_const (exists_of_forall fun opened => and_const (derives (.chain .or) f opened))

theorem name (n : String) : Portable (NameAt n) := word (fun _ => ends_name_of_is_blank) n

theorem later_name (n : String) : Portable (LaterNameAt n) := in_turn (symbol ',') (name n)

theorem names (ns : List String) : Portable (NamesAt ns) := by
  cases ns with
  | nil => exact fun _ _ h => h.elim
  | cons first later => exact in_turn (name first) (sequence later_name later)

end Portable

section
variable (FilterPart : Filter → List Char → List Char → Prop)

def JoinClauseWith (j : JoinClause) : List Char → List Char → Prop :=
  InTurn (Sequence KeywordAt j.kind.keywords)
    (InTurn (NameAt j.table) (InTurn (KeywordAt .on) (FilterPart j.on)))

def ConditionWith : Option Filter → List Char → List Char → Prop
  | none => fun input rest => rest = input
  | some f => InTurn (KeywordAt .where) (FilterPart f)

def StatementWith (s : Statement) : List Char → List Char → Prop :=
  InTurn (KeywordAt .select) (InTurn (NamesAt s.columns)
    (InTurn (KeywordAt .from) (InTurn (NamesAt s.tables)
      (InTurn (Sequence (JoinClauseWith FilterPart) s.joins)
        (ConditionWith FilterPart s.condition?)))))

end

def UnboundedFilterAt (f : Filter) (input rest : List Char) : Prop :=
  ∃ opened, Derives (.chain .or) input f opened rest

namespace Portable

variable {FilterPart : Filter → List Char → List Char → Prop}

theorem unbounded_filter_at (f : Filter) : Portable (UnboundedFilterAt f) :=
  exists_of_forall fun opened => derives (.chain .or) f opened

section
variable (hfilter : ∀ f, Portable (FilterPart f))
include hfilter

theorem join_clause_with (j : JoinClause) : Portable (JoinClauseWith FilterPart j) :=
  in_turn (sequence keyword _) (in_turn (name _) (in_turn (keyword _) (hfilter _)))

theorem condition_with (condition? : Option Filter) :
    Portable (ConditionWith FilterPart condition?) := by
  cases condition? with
  | none => exact absent
  | some f => exact in_turn (keyword _) (hfilter f)

theorem statement_with (s : Statement) : Portable (StatementWith FilterPart s) :=
  in_turn (keyword _) (in_turn (names _) (in_turn (keyword _) (in_turn (names _)
    (in_turn (sequence (join_clause_with hfilter) _) (condition_with hfilter _)))))

end
end Portable

theorem join_clause_with_filter_at : JoinClauseWith FilterAt = JoinClauseAt := by
  funext j input rest
  apply propext
  constructor
  · rintro ⟨mid, hkeywords, input₁, hname, input₂, hon, hfilter⟩
    exact ⟨mid, hkeywords, input₁, input₂, hname, hon, hfilter⟩
  · rintro ⟨mid, hkeywords, input₁, input₂, hname, hon, hfilter⟩
    exact ⟨mid, hkeywords, input₁, hname, input₂, hon, hfilter⟩

theorem condition_with_filter_at : ConditionWith FilterAt = ConditionAt := by
  funext condition?
  cases condition? with
  | none => rfl
  | some f => rfl

/-- With the filters that keep to the limits, this is the grammar of accepted statements. -/
theorem Statement.derived_from_iff_statement_with {s : Statement} {text : String} :
    s.DerivedFrom text ↔ ∃ rest, StatementWith FilterAt s text.toList rest ∧ Blanks rest := by
  simp only [StatementWith, join_clause_with_filter_at, condition_with_filter_at]
  constructor
  · rintro ⟨hselect, hcolumns, hfrom, htables, hjoins, hcondition, hblanks⟩
    exact ⟨_, ⟨_, hselect, _, hcolumns, _, hfrom, _, htables, _, hjoins, hcondition⟩, hblanks⟩
  · rintro ⟨_, ⟨_, hselect, _, hcolumns, _, hfrom, _, htables, _, hjoins, hcondition⟩, hblanks⟩
    exact .intro hselect hcolumns hfrom htables hjoins hcondition hblanks

end RelationalQuery
