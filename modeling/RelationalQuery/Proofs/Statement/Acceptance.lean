import RelationalQuery.Proofs.Statement.RoundTrip

/-!
# The grammar of statements

What a text means as a statement is said here without a reader, part by part, each part by the text
before it and the text after it. The reader of statements accepts exactly the texts that have a
derivation. Names are not compared with keywords, so the order of the parts alone tells which word
is which.
-/

set_option autoImplicit false

namespace RelationalQuery

inductive Sequence {α : Type} (Part : α → List Char → List Char → Prop) :
    List α → List Char → List Char → Prop
  | nil {input : List Char} : Sequence Part [] input input
  | cons {a : α} {as : List α} {input mid rest : List Char} :
      Part a input mid → Sequence Part as mid rest → Sequence Part (a :: as) input rest

def NameAt (name : String) (input rest : List Char) : Prop := WordAt endsName name input rest

def LaterNameAt (name : String) (input rest : List Char) : Prop :=
  ∃ inside, SymbolAt ',' input inside ∧ NameAt name inside rest

def NamesAt : List String → List Char → List Char → Prop
  | [], _, _ => False
  | first :: later, input, rest =>
    ∃ mid, NameAt first input mid ∧ Sequence LaterNameAt later mid rest

def FilterAt (f : Filter) (input rest : List Char) : Prop :=
  (∃ opened, Derives (.chain .or) input f opened rest ∧ opened ≤ 64) ∧ f.depth ≤ 512

def JoinKind.keywords : JoinKind → List Keyword
  | leftOuter => [.left, .outer, .join]
  | inner => [.inner, .join]
  | plain => [.join]

def JoinedAt (j : JoinClause) (input rest : List Char) : Prop :=
  ∃ input₁ input₂, NameAt j.table input input₁ ∧ KeywordAt .on input₁ input₂ ∧
    FilterAt j.on input₂ rest

def JoinClauseAt (j : JoinClause) (input rest : List Char) : Prop :=
  ∃ mid, Sequence KeywordAt j.kind.keywords input mid ∧ JoinedAt j mid rest

def ConditionAt : Option Filter → List Char → List Char → Prop
  | none, input, rest => rest = input
  | some f, input, rest => ∃ inside, KeywordAt .where input inside ∧ FilterAt f inside rest

inductive Statement.DerivedFrom : Statement → String → Prop
  | intro {text : String} {columns tables : List String} {joins : List JoinClause}
      {condition? : Option Filter} {input₁ input₂ input₃ input₄ input₅ rest : List Char} :
      KeywordAt .select text.toList input₁ → NamesAt columns input₁ input₂ →
      KeywordAt .from input₂ input₃ → NamesAt tables input₃ input₄ →
      Sequence JoinClauseAt joins input₄ input₅ → ConditionAt condition? input₅ rest →
      Blanks rest → DerivedFrom ⟨columns, tables, joins, condition?⟩ text

theorem Keyword.head_of_after? {k : Keyword} {input inside : List Char}
    (h : k.after? input = some inside) :
    ∃ c, input.head? = some c ∧ k.spelling.toList.head? = some c.toLower := by
  cases hletters : afterLetters? k.spelling.toList input with
  | none => simp [after?, hletters] at h
  | some rest =>
    obtain ⟨read, hread, rfl⟩ := after_letters?_eq_some.mp hletters
    cases read with
    | nil => cases k <;> simp [spelling] at hread
    | cons c read => exact ⟨c, rfl, by rw [← hread]; rfl⟩

theorem Keyword.after?_eq_none {k l : Keyword} {input inside : List Char}
    (h : k.after? input = some inside)
    (hfirst : k.spelling.toList.head? ≠ l.spelling.toList.head?) : l.after? input = none := by
  cases hl : l.after? input with
  | none => rfl
  | some inside' =>
    obtain ⟨c, hc, hk⟩ := head_of_after? h
    obtain ⟨d, hd, hl⟩ := head_of_after? hl
    rw [hc] at hd
    cases hd
    exact absurd (hk.trans hl.symm) hfirst

def ClauseAhead (ahead : List Char) : Prop :=
  ahead = [] ∨ ∃ k ∈ [Keyword.from, .left, .inner, .join, .where], ∃ inside,
    k.after? ahead = some inside

namespace ClauseAhead

variable {ahead : List Char}

theorem of_keyword {k : Keyword} {inside : List Char}
    (hk : k ∈ [Keyword.from, .left, .inner, .join, .where]) (h : k.after? ahead = some inside) :
    ClauseAhead ahead :=
  .inr ⟨k, hk, inside, h⟩

theorem comma_none (h : ClauseAhead ahead) : (Opener.symbol ',').after? ahead = none := by
  rcases h with rfl | ⟨k, hk, inside, h⟩
  · rfl
  · obtain ⟨c, hc, hfirst⟩ := Keyword.head_of_after? h
    have hcomma : c ≠ ',' := by
      rintro rfl
      cases k <;> simp [Keyword.spelling] at hfirst
    cases ahead with
    | nil => rfl
    | cons d ahead =>
      cases hc
      simp [Opener.symbol, hcomma]

theorem ends_at (h : ClauseAhead ahead) : (Phrase.chain .or).EndsAt ahead := by
  rcases h with rfl | ⟨k, hk, inside, h⟩
  · exact ⟨rfl, rfl⟩
  · have hfirst : ∀ k ∈ [Keyword.from, .left, .inner, .join, .where],
        k.spelling.toList.head? ≠ Keyword.and.spelling.toList.head? ∧
          k.spelling.toList.head? ≠ Keyword.or.spelling.toList.head? := by decide
    exact ⟨Keyword.after?_eq_none h (hfirst k hk).1, Keyword.after?_eq_none h (hfirst k hk).2⟩

end ClauseAhead

namespace Reader

section
variable {α β : Type} {opener : Opener α} {part : α → Reader β}
  {Part : β → List Char → List Char → Prop} {Ends : List Char → Prop}

def Round (opener : Opener α) (part : α → Reader β) (value : β) (input ahead : List Char) : Prop :=
  ∃ kind inside, opener.after? input = some (kind, inside) ∧
    (part kind).run inside = .ok (value, ahead)

def RoundAccepts (opener : Opener α) (part : α → Reader β)
    (Part : β → List Char → List Char → Prop) (Ends : List Char → Prop) : Prop :=
  ∀ (value : β) (input ahead : List Char), Round opener part value (skipBlanks input) ahead ↔
    (∃ rest, Part value input rest ∧ ahead = skipBlanks rest) ∧ Ends ahead

theorem run_many_round {input rest : List Char} {value : β} {values : List β} :
    (many opener part).run input = .ok (value :: values, rest) ↔
      ∃ next, Round opener part value input next ∧
        (many opener part).run next = .ok (values, rest) := by
  rw [run_many_cons]
  constructor
  · rintro ⟨kind, inside, next, hopen, hpart, hmany⟩
    exact ⟨next, ⟨kind, inside, hopen, hpart⟩, hmany⟩
  · rintro ⟨next, ⟨kind, inside, hopen, hpart⟩, hmany⟩
    exact ⟨kind, inside, next, hopen, hpart, hmany⟩

theorem sequence_of_run_many (h : RoundAccepts opener part Part Ends) {values : List β}
    {input ahead : List Char}
    (hrun : (many opener part).run (skipBlanks input) = .ok (values, ahead)) :
    (∃ rest, Sequence Part values input rest ∧ ahead = skipBlanks rest) ∧
      opener.after? ahead = none := by
  induction values generalizing input with
  | nil =>
    obtain ⟨hnone, rfl⟩ := run_many_nil.mp hrun
    exact ⟨⟨input, .nil, rfl⟩, hnone⟩
  | cons value values ih =>
    obtain ⟨next, hround, hmany⟩ := run_many_round.mp hrun
    obtain ⟨⟨mid, hpart, rfl⟩, _⟩ := (h _ _ _).mp hround
    obtain ⟨⟨rest, hparts, hahead⟩, hnone⟩ := ih hmany
    exact ⟨⟨rest, .cons hpart hparts, hahead⟩, hnone⟩

/-- Parts that follow one another are read. Each ends where it may, because either the next part or
what comes after the last one begins there. -/
theorem run_many_of_sequence (h : RoundAccepts opener part Part Ends) (Begins : List Char → Prop)
    (hopen : ∀ kind ahead inside, opener.after? ahead = some (kind, inside) → Begins ahead)
    (hends : ∀ ahead, Begins ahead → Ends ahead) {values : List β} {input rest : List Char}
    (hparts : Sequence Part values input rest) (hrest : Begins (skipBlanks rest))
    (hnone : opener.after? (skipBlanks rest) = none) :
    (many opener part).run (skipBlanks input) = .ok (values, skipBlanks rest) ∧
      Begins (skipBlanks input) := by
  induction hparts with
  | nil => exact ⟨run_many_nil.mpr ⟨hnone, rfl⟩, hrest⟩
  | @cons value values input mid rest hpart _ ih =>
    obtain ⟨hmany, hmid⟩ := ih hrest hnone
    have hround := (h value input (skipBlanks mid)).mpr ⟨⟨mid, hpart, rfl⟩, hends _ hmid⟩
    refine ⟨run_many_round.mpr ⟨_, hround, hmany⟩, ?_⟩
    obtain ⟨kind, inside, hinside, _⟩ := hround
    exact hopen kind _ inside hinside

end

theorem run_keyword_ok {k : Keyword} {input ahead : List Char} :
    (keyword k).run (skipBlanks input) = .ok ((), ahead) ↔
      ∃ rest, KeywordAt k input rest ∧ ahead = skipBlanks rest := by
  rw [keyword, run_opening_ok, ← Keyword.after?_eq_some]
  simp [Opener.keyword]

theorem run_name_ok {input ahead : List Char} {n : String} :
    name.run (skipBlanks input) = .ok (n, ahead) ↔
      ∃ rest, NameAt n input rest ∧ ahead = skipBlanks rest :=
  run_word_ok fun _ => ends_name_of_is_blank

theorem later_name_accepts :
    RoundAccepts (Opener.symbol ',') (fun _ => name) LaterNameAt fun _ => True := by
  intro n input ahead
  constructor
  · rintro ⟨⟨⟩, _, hopen, hname⟩
    obtain ⟨inside, hsymbol, rfl⟩ := (Opener.symbol_eq_some (by decide)).mp hopen
    obtain ⟨rest, hword, hahead⟩ := run_name_ok.mp hname
    exact ⟨⟨rest, ⟨inside, hsymbol, hword⟩, hahead⟩, trivial⟩
  · rintro ⟨⟨rest, ⟨inside, hsymbol, hword⟩, hahead⟩, -⟩
    exact ⟨(), skipBlanks inside, (Opener.symbol_eq_some (by decide)).mpr ⟨inside, hsymbol, rfl⟩,
      run_name_ok.mpr ⟨rest, hword, hahead⟩⟩

theorem names_at_of_run {input ahead : List Char} {ns : List String}
    (h : names.run (skipBlanks input) = .ok (ns, ahead)) :
    ∃ rest, NamesAt ns input rest ∧ ahead = skipBlanks rest := by
  obtain ⟨first, _, hfirst, hlater⟩ := run_bind_ok.mp h
  obtain ⟨later, _, hmany, hpure⟩ := run_bind_ok.mp hlater
  cases run_pure_ok.mp hpure
  obtain ⟨mid, hname, rfl⟩ := run_name_ok.mp hfirst
  obtain ⟨⟨rest, hsequence, hahead⟩, _⟩ := sequence_of_run_many later_name_accepts hmany
  exact ⟨rest, ⟨mid, hname, hsequence⟩, hahead⟩

theorem run_of_names_at {input rest : List Char} {ns : List String} (h : NamesAt ns input rest)
    (hend : (Opener.symbol ',').after? (skipBlanks rest) = none) :
    names.run (skipBlanks input) = .ok (ns, skipBlanks rest) := by
  cases ns with
  | nil => exact h.elim
  | cons first later =>
    obtain ⟨mid, hname, hsequence⟩ := h
    obtain ⟨hmany, _⟩ := run_many_of_sequence later_name_accepts (fun _ => True)
      (fun _ _ _ _ => trivial) (fun _ _ => trivial) hsequence trivial hend
    rw [names, run_bind_of_ok (run_name_ok.mpr ⟨mid, hname, rfl⟩), run_bind_of_ok hmany]
    rfl

theorem run_filter_at {input ahead : List Char} {f : Filter} :
    filter.run (skipBlanks input) = .ok (f, ahead) ↔
      (∃ rest, FilterAt f input rest ∧ ahead = skipBlanks rest) ∧
        (Phrase.chain .or).EndsAt ahead := by
  rw [run_filter_ok]
  constructor
  · rintro ⟨⟨rest, opened, hderives, hopened, hahead⟩, hends, hdeep⟩
    exact ⟨⟨rest, ⟨⟨opened, hderives, hopened⟩, hdeep⟩, hahead⟩, hends⟩
  · rintro ⟨⟨rest, ⟨⟨opened, hderives, hopened⟩, hdeep⟩, hahead⟩, hends⟩
    exact ⟨⟨rest, opened, hderives, hopened, hahead⟩, hends, hdeep⟩

def joinBody (kind : JoinKind) : Reader JoinClause := do
  let table ← name
  keyword .on
  let on ← filter
  return ⟨kind, table, on⟩

theorem run_join_body_ok {kind : JoinKind} {input ahead : List Char} {j : JoinClause} :
    (joinBody kind).run (skipBlanks input) = .ok (j, ahead) ↔
      j.kind = kind ∧ (∃ rest, JoinedAt j input rest ∧ ahead = skipBlanks rest) ∧
        (Phrase.chain .or).EndsAt ahead := by
  simp only [joinBody, run_bind_ok, run_pure_ok, Prod.mk.injEq]
  constructor
  · rintro ⟨table, _, htable, _, _, hon, on, _, hfilter, rfl, rfl⟩
    obtain ⟨input₁, hname, rfl⟩ := run_name_ok.mp htable
    obtain ⟨input₂, hkeyword, rfl⟩ := run_keyword_ok.mp hon
    obtain ⟨⟨rest, hfilter, hahead⟩, hends⟩ := run_filter_at.mp hfilter
    exact ⟨rfl, ⟨rest, ⟨input₁, input₂, hname, hkeyword, hfilter⟩, hahead⟩, hends⟩
  · rintro ⟨rfl, ⟨rest, ⟨input₁, input₂, hname, hkeyword, hfilter⟩, hahead⟩, hends⟩
    exact ⟨j.table, _, run_name_ok.mpr ⟨input₁, hname, rfl⟩, (), _,
      run_keyword_ok.mpr ⟨input₂, hkeyword, rfl⟩, j.on, ahead,
      run_filter_at.mpr ⟨⟨rest, hfilter, hahead⟩, hends⟩, rfl, rfl⟩

def afterKeywords {α : Type} (part : Reader α) : List Keyword → Reader α
  | [] => part
  | k :: ks => do keyword k; afterKeywords part ks

theorem run_after_keywords_ok {α : Type} {part : Reader α} {ks : List Keyword} {input : List Char}
    {result : α × List Char} :
    (afterKeywords part ks).run (skipBlanks input) = .ok result ↔
      ∃ mid, Sequence KeywordAt ks input mid ∧ part.run (skipBlanks mid) = .ok result := by
  induction ks generalizing input with
  | nil =>
    constructor
    · intro h
      exact ⟨input, .nil, h⟩
    · rintro ⟨mid, hnil, h⟩
      cases hnil
      exact h
  | cons k ks ih =>
    simp only [afterKeywords, run_bind_ok]
    constructor
    · rintro ⟨_, _, hkeyword, hlater⟩
      obtain ⟨next, hfirst, rfl⟩ := run_keyword_ok.mp hkeyword
      obtain ⟨mid, hsequence, hpart⟩ := ih.mp hlater
      exact ⟨mid, .cons hfirst hsequence, hpart⟩
    · rintro ⟨mid, hsequence, hpart⟩
      cases hsequence with
      | cons hfirst hlater =>
        exact ⟨(), _, run_keyword_ok.mpr ⟨_, hfirst, rfl⟩, ih.mpr ⟨mid, hlater, hpart⟩⟩

theorem join_clause_eq (kind : JoinKind) :
    joinClause kind = afterKeywords (joinBody kind) kind.keywords.tail := by
  cases kind <;> rfl

theorem join_kind_of_first_word {kind : JoinKind} {ahead inside : List Char}
    (h : kind.firstWord.after? ahead = some inside) :
    Opener.joinKind.after? ahead = some (kind, inside) := by
  cases kind with
  | leftOuter =>
    have hleft : Keyword.left.after? ahead = some inside := h
    simp [Opener.joinKind, Opener.orElse, Opener.keyword, hleft]
  | inner =>
    have hleft : Keyword.left.after? ahead = none := Keyword.after?_eq_none h (by decide)
    have hinner : Keyword.inner.after? ahead = some inside := h
    simp [Opener.joinKind, Opener.orElse, Opener.keyword, hleft, hinner]
  | plain =>
    have hleft : Keyword.left.after? ahead = none := Keyword.after?_eq_none h (by decide)
    have hinner : Keyword.inner.after? ahead = none := Keyword.after?_eq_none h (by decide)
    have hjoin : Keyword.join.after? ahead = some inside := h
    simp [Opener.joinKind, Opener.orElse, Opener.keyword, hleft, hinner, hjoin]

theorem join_kind_eq_some {kind : JoinKind} {ahead inside : List Char} :
    Opener.joinKind.after? ahead = some (kind, inside) ↔
      kind.firstWord.after? ahead = some inside := by
  refine ⟨fun h => ?_, join_kind_of_first_word⟩
  have hsome : ∃ (kind' : JoinKind) (inside' : List Char),
      kind'.firstWord.after? ahead = some inside' := by
    by_contra hnone
    simp only [not_exists, ← Option.eq_none_iff_forall_ne_some] at hnone
    have hleft : Keyword.left.after? ahead = none := hnone .leftOuter
    have hinner : Keyword.inner.after? ahead = none := hnone .inner
    have hjoin : Keyword.join.after? ahead = none := hnone .plain
    simp [Opener.joinKind, Opener.orElse, Opener.keyword, hleft, hinner, hjoin] at h
  obtain ⟨kind', inside', hfound⟩ := hsome
  cases h.symm.trans (join_kind_of_first_word hfound)
  exact hfound

theorem join_kind_clause_ahead {kind : JoinKind} {ahead inside : List Char}
    (h : Opener.joinKind.after? ahead = some (kind, inside)) : ClauseAhead ahead :=
  .of_keyword (by cases kind <;> decide) (join_kind_eq_some.mp h)

theorem join_clause_accepts :
    RoundAccepts Opener.joinKind joinClause JoinClauseAt (Phrase.chain .or).EndsAt := by
  intro j input ahead
  have hkeywords (kind : JoinKind) : kind.keywords = kind.firstWord :: kind.keywords.tail := by
    cases kind <;> rfl
  constructor
  · rintro ⟨kind, _, hopen, hclause⟩
    obtain ⟨inside, hfirst, rfl⟩ := Keyword.after?_eq_some.mp (join_kind_eq_some.mp hopen)
    rw [join_clause_eq] at hclause
    obtain ⟨mid, hlater, hbody⟩ := run_after_keywords_ok.mp hclause
    obtain ⟨rfl, ⟨rest, hbody, hahead⟩, hends⟩ := run_join_body_ok.mp hbody
    refine ⟨⟨rest, ⟨mid, ?_, hbody⟩, hahead⟩, hends⟩
    rw [hkeywords]
    exact .cons hfirst hlater
  · rintro ⟨⟨rest, ⟨mid, hsequence, hbody⟩, hahead⟩, hends⟩
    rw [hkeywords] at hsequence
    cases hsequence with
    | @cons _ _ _ inside _ hfirst hlater =>
      have hopen := Keyword.after?_eq_some.mpr ⟨inside, hfirst, rfl⟩
      refine ⟨j.kind, skipBlanks inside, join_kind_eq_some.mpr hopen, ?_⟩
      rw [join_clause_eq]
      exact run_after_keywords_ok.mpr
        ⟨mid, hlater, run_join_body_ok.mpr ⟨rfl, ⟨rest, hbody, hahead⟩, hends⟩⟩

theorem condition_at_of_run {condition? : Option Filter} {input ahead : List Char}
    (h : (optional (Opener.keyword .where ()) fun _ => filter).run (skipBlanks input) =
      .ok (condition?, ahead)) :
    ∃ rest, ConditionAt condition? input rest ∧ ahead = skipBlanks rest := by
  cases condition? with
  | none =>
    cases hopen : (Opener.keyword .where ()).after? (skipBlanks input) with
    | none =>
      cases (run_optional_absent hopen).symm.trans h
      exact ⟨input, rfl, rfl⟩
    | some found =>
      obtain ⟨⟨⟩, inside⟩ := found
      rw [run_optional_open hopen] at h
      obtain ⟨f, _, _, hpure⟩ := run_bind_ok.mp h
      cases run_pure_ok.mp hpure
  | some f =>
    obtain ⟨_, ahead', hopen, hfilter⟩ := run_optional_some.mp h
    have hkeyword : Keyword.where.after? (skipBlanks input) = some ahead' := by
      simpa [Opener.keyword] using hopen
    obtain ⟨inside, hwhere, rfl⟩ := Keyword.after?_eq_some.mp hkeyword
    obtain ⟨⟨rest, hfilter, hahead⟩, _⟩ := run_filter_at.mp hfilter
    exact ⟨rest, ⟨inside, hwhere, hfilter⟩, hahead⟩

theorem run_of_condition_at {condition? : Option Filter} {input rest : List Char}
    (h : ConditionAt condition? input rest) (hrest : Blanks rest) :
    (optional (Opener.keyword .where ()) fun _ => filter).run (skipBlanks input) =
        .ok (condition?, []) ∧
      ClauseAhead (skipBlanks input) ∧ Opener.joinKind.after? (skipBlanks input) = none := by
  have hnil : skipBlanks rest = [] := skip_blanks_eq_nil.mpr hrest
  cases condition? with
  | none =>
    cases h
    rw [hnil]
    exact ⟨rfl, .inl rfl, rfl⟩
  | some f =>
    obtain ⟨inside, hwhere, hfilter⟩ := h
    have hopen := Keyword.after?_eq_some.mpr ⟨inside, hwhere, rfl⟩
    have hends : (Phrase.chain .or).EndsAt (skipBlanks rest) := by
      rw [hnil]
      exact ⟨rfl, rfl⟩
    have hrun := run_filter_at.mpr ⟨⟨rest, hfilter, rfl⟩, hends⟩
    rw [hnil] at hrun
    refine ⟨run_optional_some.mpr ⟨(), skipBlanks inside, by simp [Opener.keyword, hopen], hrun⟩,
      .of_keyword (by decide) hopen, ?_⟩
    cases hjoin : Opener.joinKind.after? (skipBlanks input) with
    | none => rfl
    | some found =>
      obtain ⟨kind, after⟩ := found
      have hnone := Keyword.after?_eq_none (l := kind.firstWord) hopen (by cases kind <;> decide)
      cases (join_kind_eq_some.mp hjoin).symm.trans hnone

end Reader

namespace Statement

variable {text : String} {s : Statement}

theorem derived_from_of_parse (h : Statement.parse text = .ok s) : s.DerivedFrom text := by
  obtain ⟨_, hrun, hend⟩ := Reader.parse_ok.mp h
  simp only [Reader.statement, Reader.run_bind_ok, Reader.run_pure_ok, Prod.mk.injEq] at hrun
  obtain ⟨_, _, h₁, columns, _, h₂, _, _, h₃, tables, _, h₄, joins, _, h₅, condition?, _, h₆,
    rfl, rfl⟩ := hrun
  obtain ⟨input₁, hselect, rfl⟩ := Reader.run_keyword_ok.mp h₁
  obtain ⟨input₂, hcolumns, rfl⟩ := Reader.names_at_of_run h₂
  obtain ⟨input₃, hfrom, rfl⟩ := Reader.run_keyword_ok.mp h₃
  obtain ⟨input₄, htables, rfl⟩ := Reader.names_at_of_run h₄
  obtain ⟨⟨input₅, hjoins, rfl⟩, _⟩ := Reader.sequence_of_run_many Reader.join_clause_accepts h₅
  obtain ⟨rest, hcondition, rfl⟩ := Reader.condition_at_of_run h₆
  rw [skip_blanks_skip_blanks, skip_blanks_eq_nil] at hend
  exact .intro hselect hcolumns hfrom htables hjoins hcondition hend

theorem parse_of_derived_from (h : s.DerivedFrom text) : Statement.parse text = .ok s := by
  cases h with
  | @intro _ columns tables joins condition? input₁ input₂ input₃ input₄ input₅ rest hselect
      hcolumns hfrom htables hjoins hcondition hblanks =>
    have hkeyword := Keyword.after?_eq_some.mpr ⟨input₃, hfrom, rfl⟩
    have hcomma := (ClauseAhead.of_keyword (by decide) hkeyword).comma_none
    -- From the end backwards: where a part ends depends on what comes after it.
    obtain ⟨h₆, hlast, hnone⟩ := Reader.run_of_condition_at hcondition hblanks
    obtain ⟨h₅, hclause⟩ := Reader.run_many_of_sequence Reader.join_clause_accepts ClauseAhead
      (fun _ _ _ => Reader.join_kind_clause_ahead) (fun _ => ClauseAhead.ends_at) hjoins hlast hnone
    have h₄ := Reader.run_of_names_at htables hclause.comma_none
    have h₃ := Reader.run_keyword_ok.mpr ⟨input₃, hfrom, rfl⟩
    have h₂ := Reader.run_of_names_at hcolumns hcomma
    have h₁ := Reader.run_keyword_ok.mpr ⟨input₁, hselect, rfl⟩
    apply Reader.parse_ok.mpr
    refine ⟨[], ?_, rfl⟩
    rw [Reader.statement, Reader.run_bind_of_ok h₁, Reader.run_bind_of_ok h₂,
      Reader.run_bind_of_ok h₃, Reader.run_bind_of_ok h₄, Reader.run_bind_of_ok h₅,
      Reader.run_bind_of_ok h₆]
    rfl

/-- A text means one statement at most. -/
theorem derived_from_unique {s' : Statement} (h : s.DerivedFrom text) (h' : s'.DerivedFrom text) :
    s = s' :=
  Except.ok.inj ((parse_of_derived_from h).symm.trans (parse_of_derived_from h'))

/-- A text is accepted as a statement if and only if it has a derivation, and then the statement is
the one that the derivation lists. -/
theorem parse_ok_iff_derived_from (text : String) (s : Statement) :
    Statement.parse text = .ok s ↔ s.DerivedFrom text :=
  ⟨derived_from_of_parse, parse_of_derived_from⟩

end Statement
end RelationalQuery
