import RelationalQuery.Proofs.Statement.Lookahead

/-!
# Completing what has been read

What stands before a place where something is missing is always the beginning of a part: the rest of
the part can be written there, after a space. The limits on parentheses and depth are set aside, for
a filter that has come to a limit may not go on within it.
-/

set_option autoImplicit false

namespace RelationalQuery

variable {Part Next : List Char → List Char → Prop}

def Writable (Part : List Char → List Char → Prop) : Prop :=
  ∃ more, StopsAt isBlank more ∧ Part more []

def CompletedAt (Part : List Char → List Char → Prop) (input ahead : List Char) : Prop :=
  ∃ read more, input = read ++ ahead ∧ StopsAt isBlank more ∧ Part (read ++ more) []

theorem stops_at_append {ends : Char → Bool} {more later : List Char} (hmore : StopsAt ends more)
    (hlater : StopsAt ends later) : StopsAt ends (more ++ later) := by
  cases more with
  | nil => exact hlater
  | cons c more => exact stops_at_cons.mpr (stops_at_cons.mp hmore)

theorem blanks_concat_space {blanks : List Char} (h : Blanks blanks) :
    Blanks (blanks ++ [' ']) := by
  intro c hc
  rcases List.mem_append.mp hc with hc | hc
  · exact h c hc
  · exact blanks_space c hc

theorem Portable.followed (h : Portable Part) {input more : List Char} (hpart : Part input [])
    (hmore : StopsAt isBlank more) : Part (input ++ more) more := by
  obtain ⟨read, rfl, hread⟩ := h _ _ hpart
  rw [List.append_nil]
  exact hread more (.of_blank hmore)

theorem Writable.in_turn (hportable : Portable Part) (hpart : Writable Part)
    (hnext : Writable Next) : Writable (InTurn Part Next) := by
  obtain ⟨first, hfirst, hpart⟩ := hpart
  obtain ⟨later, hlater, hnext⟩ := hnext
  exact ⟨first ++ later, stops_at_append hfirst hlater, later, hportable.followed hpart hlater,
    hnext⟩

namespace CompletedAt

variable {input mid ahead : List Char}

theorem mono (h : CompletedAt Part input ahead) (hnext : ∀ input, Part input [] → Next input []) :
    CompletedAt Next input ahead := by
  obtain ⟨read, more, hinput, hmore, hpart⟩ := h
  exact ⟨read, more, hinput, hmore, hnext _ hpart⟩

theorem first (hportable : Portable Part) (h : CompletedAt Part input ahead)
    (hnext : Writable Next) : CompletedAt (InTurn Part Next) input ahead := by
  obtain ⟨read, more, hinput, hmore, hpart⟩ := h
  obtain ⟨later, hlater, hnext⟩ := hnext
  refine ⟨read, more ++ later, hinput, stops_at_append hmore hlater, later, ?_, hnext⟩
  rw [← List.append_assoc]
  exact hportable.followed hpart hlater

theorem later (hportable : Portable Part) (hpart : Part input mid)
    (h : CompletedAt Next mid ahead) : CompletedAt (InTurn Part Next) input ahead := by
  obtain ⟨before, rfl, hbefore⟩ := hportable _ _ hpart
  obtain ⟨read, more, rfl, hmore, hnext⟩ := h
  refine ⟨before ++ read, more, by simp, hmore, read ++ more, ?_, hnext⟩
  rw [List.append_assoc]
  exact hbefore _ ((EndsAlike.of_blank hmore).append_left read)

end CompletedAt

theorem Sequence.concat {α : Type} {Part : α → List Char → List Char → Prop} {as : List α} {a : α}
    {input mid rest : List Char} (h : Sequence Part as input mid) (ha : Part a mid rest) :
    Sequence Part (as ++ [a]) input rest := by
  induction h with
  | nil => exact .cons ha .nil
  | cons hfirst _ ih => exact .cons hfirst (ih ha)

namespace Reader

variable {α β γ δ : Type}

/-- A reader that takes parts of a kind and, where it finds something missing, has taken the
beginning of one. -/
structure Completable (r : Reader α) (Part : List Char → List Char → Prop) : Prop where
  portable : Portable Part
  writable : Writable Part
  reads : ∀ {input ahead : List Char} {value : α}, r.run (skipBlanks input) = .ok (value, ahead) →
    ∃ rest, Part input rest ∧ ahead = skipBlanks rest
  completed : ∀ {input ahead : List Char} {e : Expectation},
    r.run (skipBlanks input) = .error ⟨ahead, .missing e⟩ → CompletedAt Part input ahead

namespace Completable

variable {Part Next : List Char → List Char → Prop}

theorem mono {r : Reader α} (h : Completable r Part) (hportable : Portable Next)
    (hnext : ∀ input rest, Part input rest → Next input rest) : Completable r Next where
  portable := hportable
  writable := by
    obtain ⟨more, hmore, hpart⟩ := h.writable
    exact ⟨more, hmore, hnext _ _ hpart⟩
  reads hrun := by
    obtain ⟨rest, hpart, hahead⟩ := h.reads hrun
    exact ⟨rest, hnext _ _ hpart, hahead⟩
  completed hrun := (h.completed hrun).mono fun _ => hnext _ _

/-- A reader that looks only at the front of the input, for a part that may stand after blanks. -/
theorem lexeme {r : Reader α} (hportable : Portable Part)
    (hreads : ∀ {input ahead value}, r.run (skipBlanks input) = .ok (value, ahead) →
      ∃ rest, Part input rest ∧ ahead = skipBlanks rest)
    (hmissing : ∀ {input fault}, r.run input = .error fault → fault.ahead = input)
    (more : List Char) (hmore : StopsAt isBlank more)
    (hwritten : ∀ blanks, Blanks blanks → Part (blanks ++ more) []) : Completable r Part where
  portable := hportable
  writable := ⟨more, hmore, hwritten [] blanks_nil⟩
  reads := hreads
  completed {input ahead e} hrun := by
    obtain rfl : ahead = skipBlanks input := hmissing hrun
    obtain ⟨blanks, hblanks, hinput⟩ := exists_blanks input
    exact ⟨blanks, more, hinput, hmore, hwritten blanks hblanks⟩

theorem word (expectation : Expectation) (ends : Char → Bool)
    (hends : ∀ c, isBlank c = true → ends c = true) (hletter : ends 'x' = false) :
    Completable (Reader.word expectation ends) fun input rest => ∃ w, WordAt ends w input rest :=
  lexeme (.exists_of_forall (Portable.word hends))
    (fun hrun => by
      obtain ⟨rest, hword, hahead⟩ := (run_word_ok hends).mp hrun
      exact ⟨rest, ⟨_, hword⟩, hahead⟩)
    (fun hrun => (run_word_error hrun).1) [' ', 'x'] (stops_at_cons.mpr rfl)
    fun blanks hblanks => ⟨"x", blanks ++ [' '], blanks_concat_space hblanks, by simp,
      ⟨by decide, by simpa using hletter⟩, stops_at_nil ends⟩

theorem keyword (k : Keyword) : Completable (Reader.keyword k) (KeywordAt k) :=
  lexeme (.keyword k)
    (fun hrun => run_keyword_ok.mp hrun)
    (fun hrun => by rw [(run_opening_error.mp hrun).2])
    (' ' :: k.spelling.toList) (stops_at_cons.mpr rfl)
    fun blanks hblanks => ⟨blanks ++ [' '], k.spelling.toList, blanks_concat_space hblanks, by simp,
      by cases k <;> rfl, stops_at_nil _⟩

theorem closing : Completable (Reader.opening (Opener.symbol ')') .closing) (SymbolAt ')') :=
  lexeme (.symbol ')') (fun hrun => run_closing_ok.mp hrun)
    (fun hrun => by rw [(run_opening_error.mp hrun).2]) [' ', ')'] (stops_at_cons.mpr rfl)
    fun blanks hblanks => ⟨blanks ++ [' '], blanks_concat_space hblanks, by simp⟩

theorem bind [Nonempty α] {first : Reader α} {next : α → Reader β} (hfirst : Completable first Part)
    (hnext : ∀ value, Completable (next value) Next) :
    Completable (first >>= next) (InTurn Part Next) where
  portable := .in_turn hfirst.portable (hnext (Classical.arbitrary α)).portable
  writable := .in_turn hfirst.portable hfirst.writable (hnext (Classical.arbitrary α)).writable
  reads hrun := by
    obtain ⟨value, _, hread, hlater⟩ := run_bind_ok.mp hrun
    obtain ⟨mid, hpart, rfl⟩ := hfirst.reads hread
    obtain ⟨rest, hlater, hahead⟩ := (hnext value).reads hlater
    exact ⟨rest, ⟨mid, hpart, hlater⟩, hahead⟩
  completed hrun := by
    rcases run_bind_error_iff.mp hrun with hfault | ⟨value, _, hread, hlater⟩
    · exact .first hfirst.portable (hfirst.completed hfault)
        (hnext (Classical.arbitrary α)).writable
    · obtain ⟨mid, hpart, rfl⟩ := hfirst.reads hread
      exact .later hfirst.portable hpart ((hnext value).completed hlater)

theorem result {first : Reader α} (hfirst : Completable first Part) (f : α → Except Fault β)
    (h : ∀ a ahead e, f a ≠ .error ⟨ahead, .missing e⟩) :
    Completable (first >>= fun a => ofExcept (f a)) Part where
  portable := hfirst.portable
  writable := hfirst.writable
  reads hrun := by
    obtain ⟨_, _, hread, hlater⟩ := run_bind_ok.mp hrun
    obtain ⟨_, rfl⟩ := run_of_except_ok.mp hlater
    exact hfirst.reads hread
  completed hrun := by
    rcases run_bind_error_iff.mp hrun with hfault | ⟨a, _, _, hlater⟩
    · exact hfirst.completed hfault
    · cases hresult : f a with
      | ok b => simp [ofExcept, hresult] at hlater
      | error fault =>
        simp only [ofExcept, hresult, Except.error.injEq] at hlater
        exact absurd (hlater ▸ hresult) (h a _ _)

theorem value {first : Reader α} (hfirst : Completable first Part) (f : α → β) :
    Completable (do return f (← first)) Part :=
  result hfirst (fun a => .ok (f a)) (by simp)

section
variable {opener : Opener γ} {Opening Inside : γ → List Char → List Char → Prop}

theorem choice (h : opener.Takes Opening) {r : Reader α} (opened : List Char → γ → Reader α)
    (absent : List Char → Reader α)
    (hopen : ∀ {input kind inside}, opener.after? input = some (kind, inside) →
      r.run input = (opened input kind).run inside)
    (hnone : ∀ {input}, opener.after? input = none → r.run input = (absent input).run input)
    (hopened : ∀ input kind, Completable (opened input kind) (Inside kind))
    (habsent : ∀ input, Completable (absent input) Next) :
    Completable r fun input rest =>
      (∃ kind, InTurn (Opening kind) (Inside kind) input rest) ∨ Next input rest where
  portable := by
    have hinside : Portable fun input rest =>
        ∃ kind, InTurn (Opening kind) (Inside kind) input rest :=
      .exists_of_forall fun kind => .in_turn (h.portable kind) (hopened [] kind).portable
    rintro input rest (hpart | hpart)
    · obtain ⟨read, hinput, hread⟩ := hinside _ _ hpart
      exact ⟨read, hinput, fun rest' hrest' => .inl (hread rest' hrest')⟩
    · obtain ⟨read, hinput, hread⟩ := (habsent []).portable _ _ hpart
      exact ⟨read, hinput, fun rest' hrest' => .inr (hread rest' hrest')⟩
  writable := by
    obtain ⟨more, hmore, hpart⟩ := (habsent []).writable
    exact ⟨more, hmore, .inr hpart⟩
  reads {input ahead value} hrun := by
    cases hafter : opener.after? (skipBlanks input) with
    | none =>
      rw [hnone hafter] at hrun
      obtain ⟨rest, hpart, hahead⟩ := (habsent _).reads hrun
      exact ⟨rest, .inr hpart, hahead⟩
    | some found =>
      obtain ⟨kind, inside⟩ := found
      rw [hopen hafter] at hrun
      obtain ⟨mid, hopening, rfl⟩ := h.after?_iff.mp hafter
      obtain ⟨rest, hpart, hahead⟩ := (hopened _ kind).reads hrun
      exact ⟨rest, .inl ⟨kind, mid, hopening, hpart⟩, hahead⟩
  completed {input ahead e} hrun := by
    cases hafter : opener.after? (skipBlanks input) with
    | none =>
      rw [hnone hafter] at hrun
      exact ((habsent _).completed hrun).mono fun _ => .inr
    | some found =>
      obtain ⟨kind, inside⟩ := found
      rw [hopen hafter] at hrun
      obtain ⟨mid, hopening, rfl⟩ := h.after?_iff.mp hafter
      exact (CompletedAt.later (h.portable kind) hopening ((hopened _ kind).completed hrun)).mono
        fun _ hpart => .inl ⟨kind, hpart⟩

theorem nothing (a : α) : Completable (pure a : Reader α) fun input rest => rest = input where
  portable := .absent
  writable := ⟨[], stops_at_nil _, rfl⟩
  reads {input _ _} hrun := by
    cases run_pure_ok.mp hrun
    exact ⟨input, rfl, rfl⟩
  completed hrun := by cases hrun

theorem optional (h : opener.Takes Opening) {part : γ → Reader β}
    (hpart : ∀ kind, Completable (part kind) (Inside kind)) :
    Completable (Reader.optional opener part) fun input rest =>
      (∃ kind, InTurn (Opening kind) (Inside kind) input rest) ∨ rest = input :=
  choice h (fun _ kind => do return some (← part kind)) (fun _ => pure none) run_optional_open
    run_optional_absent (fun _ kind => value (hpart kind) some) fun _ => nothing none

section
variable {part : γ → Reader β} (RoundPart : δ → List Char → List Char → Prop)

theorem reads_rounds (h : opener.Takes Opening)
    (hpart : ∀ kind, Completable (part kind) (Inside kind))
    (hround : ∀ kind input rest, InTurn (Opening kind) (Inside kind) input rest →
      ∃ d, RoundPart d input rest)
    {values : List β} {input ahead : List Char}
    (hrounds : Sequence (Round opener part) values (skipBlanks input) ahead) :
    ∃ ds rest, Sequence RoundPart ds input rest ∧ ahead = skipBlanks rest := by
  induction values generalizing input with
  | nil =>
    cases hrounds
    exact ⟨[], input, .nil, rfl⟩
  | cons value values ih =>
    cases hrounds with
    | cons hfirst hlater =>
      obtain ⟨kind, inside, hopen, hrun⟩ := hfirst
      obtain ⟨mid, hopening, rfl⟩ := h.after?_iff.mp hopen
      obtain ⟨next, hinside, rfl⟩ := (hpart kind).reads hrun
      obtain ⟨d, hd⟩ := hround kind _ _ ⟨mid, hopening, hinside⟩
      obtain ⟨ds, rest, hds, hahead⟩ := ih hlater
      exact ⟨d :: ds, rest, .cons hd hds, hahead⟩

theorem many (h : opener.Takes Opening) (hpart : ∀ kind, Completable (part kind) (Inside kind))
    (hround : ∀ kind input rest, InTurn (Opening kind) (Inside kind) input rest →
      ∃ d, RoundPart d input rest)
    (hportable : ∀ d, Portable (RoundPart d)) :
    Completable (Reader.many opener part) fun input rest =>
      ∃ ds, Sequence RoundPart ds input rest where
  portable := .exists_of_forall (.sequence hportable)
  writable := ⟨[], stops_at_nil _, [], .nil⟩
  reads hrun := by
    obtain ⟨ds, rest, hds, hahead⟩ :=
      reads_rounds RoundPart h hpart hround (run_many_ok_iff.mp hrun).1
    exact ⟨rest, ⟨ds, hds⟩, hahead⟩
  completed {input ahead e} hrun := by
    obtain ⟨_, _, kind, _, hrounds, hopen, hfault⟩ := run_many_error_iff.mp hrun
    obtain ⟨ds, mid, hds, rfl⟩ := reads_rounds RoundPart h hpart hround hrounds
    obtain ⟨inside, hopening, rfl⟩ := h.after?_iff.mp hopen
    have hlast : CompletedAt (InTurn (Opening kind) (Inside kind)) mid ahead :=
      .later (h.portable kind) hopening ((hpart kind).completed hfault)
    have hall := CompletedAt.later (Portable.sequence hportable ds) hds hlast
    refine hall.mono ?_
    rintro text ⟨mid', hds', hround'⟩
    obtain ⟨d, hd⟩ := hround kind _ _ hround'
    exact ⟨ds ++ [d], hds'.concat hd⟩

end
end

def PhraseAt (p : Phrase) (input rest : List Char) : Prop :=
  ∃ f opened, Derives p input f opened rest

theorem portable_phrase_at (p : Phrase) : Portable (PhraseAt p) :=
  .exists_of_forall fun f => .exists_of_forall fun opened => .derives p f opened

instance : Nonempty Term := ⟨⟨.condition ⟨"", "", ""⟩, 1, []⟩⟩

theorem condition : Completable Reader.condition (PhraseAt .atom) := by
  have hword (expectation : Expectation) :=
    word expectation endsOperand (fun _ => ends_operand_of_is_blank) rfl
  refine (bind (hword _) fun left => bind (hword _) fun operator => value (hword _) fun right =>
    (⟨left, operator, right⟩ : Condition)).mono (portable_phrase_at .atom) ?_
  rintro input rest ⟨_, ⟨left, hleft⟩, _, ⟨operator, hoperator⟩, right, hright⟩
  exact ⟨_, _, .condition hleft hoperator hright⟩

theorem derives_of_operands {c : Connective} {f : Filter} {opened : Nat} {ds : List (Filter × Nat)}
    {input mid rest : List Char} (hfirst : Derives c.operand input f opened mid)
    (hlater : Sequence (fun d => InTurn (KeywordAt c.keyword) fun input rest =>
      Derives c.operand input d.1 d.2 rest) ds mid rest) : PhraseAt (.chain c) input rest := by
  induction ds generalizing input mid f opened with
  | nil =>
    cases hlater
    exact ⟨f, opened, .last hfirst⟩
  | cons d ds ih =>
    cases hlater with
    | cons hround hlater =>
      obtain ⟨inside, hkeyword, hnext⟩ := hround
      obtain ⟨g, n, hchain⟩ := ih hnext hlater
      exact ⟨_, _, .more hfirst hkeyword hchain⟩

theorem chain {c : Connective} {term : Reader Term}
    (hterm : Completable term (PhraseAt c.operand)) :
    Completable (Reader.chain c.keyword c.combine term) (PhraseAt (.chain c)) := by
  have hlater := many (fun d : Filter × Nat => InTurn (KeywordAt c.keyword) fun input rest =>
      Derives c.operand input d.1 d.2 rest) (Opener.keyword_takes c.keyword ()) (fun _ => hterm)
    (fun _ input rest ⟨mid, ⟨hkeyword, _⟩, f, opened, hnext⟩ => ⟨(f, opened), mid, hkeyword, hnext⟩)
    fun d => .in_turn (.keyword _) (.derives c.operand d.1 d.2)
  refine (bind hterm fun first => result hlater (Term.chain c.combine first) ?_).mono
    (portable_phrase_at _) ?_
  · intro later ahead e h
    obtain ⟨_, _, hfault⟩ := Term.chain_error h
    cases hfault
  · rintro input rest ⟨mid, ⟨f, opened, hfirst⟩, ds, hds⟩
    exact derives_of_operands hfirst hds

theorem writable_filter : Writable (PhraseAt (.chain .or)) := by
  obtain ⟨more, hmore, f, opened, hcondition⟩ := condition.writable
  exact ⟨more, hmore, f, opened, .last (c := .or) (.last (c := .and) hcondition)⟩

theorem group {inner : Option (Reader Term)}
    (hinner : ∀ r ∈ inner, Completable r (PhraseAt (.chain .or))) (start : List Char) :
    Completable (Reader.group start inner) (InTurn (PhraseAt (.chain .or)) (SymbolAt ')')) := by
  cases inner with
  | none =>
    refine ⟨.in_turn (portable_phrase_at _) (.symbol ')'),
      .in_turn (portable_phrase_at _) writable_filter closing.writable,
      fun hrun => ?_, fun hrun => ?_⟩
    · cases hrun
    · cases hrun
  | some r => exact bind (hinner r rfl) fun t => value closing fun _ => { t with start }

theorem atom {inner : Option (Reader Term)}
    (hinner : ∀ r ∈ inner, Completable r (PhraseAt (.chain .or))) :
    Completable (Reader.atom inner) (PhraseAt .atom) := by
  refine (choice (Opener.symbol_takes (by decide)) (fun start _ => Reader.group start inner)
    (fun start => do return ⟨.condition (← Reader.condition), 1, start⟩) run_atom_open
    run_atom_absent (fun start _ => group hinner start) fun _ => value condition _).mono
    (portable_phrase_at .atom) ?_
  rintro input rest (⟨_, inside, hopen, closing, ⟨f, opened, hinside⟩, hclose⟩ | hcondition)
  · exact ⟨f, opened + 1, .group hopen hinside hclose⟩
  · exact hcondition

theorem nested (limit : Nat) : Completable (Reader.nested limit) (PhraseAt (.chain .or)) := by
  induction limit with
  | zero => exact chain (c := .or) (chain (c := .and) (atom (by simp)))
  | succ limit ih => exact chain (c := .or) (chain (c := .and) (atom (by simpa using ih)))

theorem filter : Completable Reader.filter (PhraseAt (.chain .or)) := value (nested _) Term.filter

theorem name : Completable Reader.name fun input rest => ∃ n, NameAt n input rest :=
  word _ endsName (fun _ => ends_name_of_is_blank) rfl

theorem names : Completable Reader.names fun input rest => ∃ ns, NamesAt ns input rest := by
  have hlater := many LaterNameAt (Opener.symbol_takes (c := ',') (by decide)) (fun _ => name)
    (fun _ input rest ⟨mid, hsymbol, n, hname⟩ => ⟨n, mid, hsymbol, hname⟩) Portable.later_name
  refine (bind name fun first => value hlater fun later => first :: later).mono
    (.exists_of_forall .names) ?_
  rintro input rest ⟨mid, ⟨n, hname⟩, ns, hlater⟩
  exact ⟨n :: ns, mid, hname, hlater⟩

theorem after_keywords {part : Reader α} (hpart : Completable part Part) (ks : List Keyword) :
    Completable (Reader.afterKeywords part ks) (InTurn (Sequence KeywordAt ks) Part) := by
  have hportable (ks : List Keyword) : Portable (InTurn (Sequence KeywordAt ks) Part) :=
    .in_turn (.sequence .keyword ks) hpart.portable
  induction ks with
  | nil => exact hpart.mono (hportable []) fun input rest h => ⟨input, .nil, h⟩
  | cons k ks ih =>
    refine (bind (keyword k) fun _ => ih).mono (hportable (k :: ks)) ?_
    rintro input rest ⟨next, hfirst, mid, hlater, h⟩
    exact ⟨mid, .cons hfirst hlater, h⟩

theorem joins : Completable (Reader.many Opener.joinKind Reader.joinClause) fun input rest =>
    ∃ js, Sequence (JoinClauseWith UnboundedFilterAt) js input rest := by
  have hclause (kind : JoinKind) : Completable (Reader.joinClause kind)
      (InTurn (Sequence KeywordAt kind.keywords.tail)
        (InTurn (fun input rest => ∃ n, NameAt n input rest)
          (InTurn (KeywordAt .on) (PhraseAt (.chain .or))))) := by
    rw [join_clause_eq]
    exact after_keywords (bind name fun table => bind (keyword .on) fun _ =>
      value filter fun on => (⟨kind, table, on⟩ : JoinClause)) _
  refine many (JoinClauseWith UnboundedFilterAt) Opener.join_kind_takes hclause ?_
    (.join_clause_with .unbounded_filter_at)
  rintro kind input rest ⟨inside, hfirst, mid, hlater, next, ⟨n, hname⟩, within, hon, f, hfilter⟩
  have hkeywords : Sequence KeywordAt kind.keywords input mid := by
    have hcons : kind.keywords = kind.firstWord :: kind.keywords.tail := by cases kind <;> rfl
    rw [hcons]
    exact .cons hfirst hlater
  exact ⟨⟨kind, n, f⟩, mid, hkeywords, next, hname, within, hon, hfilter⟩

theorem statement : Completable Reader.statement fun input rest =>
    ∃ s, StatementWith UnboundedFilterAt s input rest := by
  have hcondition := optional (Opener.keyword_takes .where ()) fun _ => filter
  refine (bind (keyword .select) fun _ => bind names fun columns => bind (keyword .from) fun _ =>
    bind names fun tables => bind joins fun joins => value hcondition fun condition? =>
      (⟨columns, tables, joins, condition?⟩ : Statement)).mono
    (.exists_of_forall (.statement_with .unbounded_filter_at)) ?_
  rintro input rest ⟨_, hselect, _, ⟨columns, hcolumns⟩, _, hfrom, _, ⟨tables, htables⟩, mid,
    ⟨joins, hjoins⟩, hcondition⟩
  have hstatement (condition? : Option Filter)
      (h : ConditionWith UnboundedFilterAt condition? mid rest) :
      ∃ s, StatementWith UnboundedFilterAt s input rest :=
    ⟨⟨columns, tables, joins, condition?⟩, _, hselect, _, hcolumns, _, hfrom, _, htables, _, hjoins,
      h⟩
  rcases hcondition with ⟨_, inside, ⟨hwhere, _⟩, f, hfilter⟩ | rfl
  · exact hstatement (some f) ⟨inside, hwhere, hfilter⟩
  · exact hstatement none rfl

/-- The text before a place where something is missing is the beginning of a text that is a part up
to its last blanks. -/
theorem exists_text {part : Reader α} (h : Completable part Part) {before ahead : List Char}
    (hmissing : MissingAt part before ahead) :
    ∃ more rest, Part (before ++ more) rest ∧ Blanks rest := by
  rcases hmissing with ⟨e, hrun⟩ | ⟨value, rest, hrun, hahead, _⟩
  · obtain ⟨read, more, hinput, _, hpart⟩ := h.completed hrun
    obtain rfl := List.append_cancel_right hinput
    exact ⟨more, [], hpart, blanks_nil⟩
  · obtain ⟨after, hpart, rfl⟩ := h.reads hrun
    rw [skip_blanks_skip_blanks] at hahead
    obtain ⟨blanks, hblanks, hafter⟩ := exists_blanks after
    rw [← hahead] at hafter
    subst hafter
    obtain ⟨read, hinput, hread⟩ := h.portable _ _ hpart
    rw [← List.append_assoc] at hinput
    obtain rfl := List.append_cancel_right hinput
    have hstops : StopsAt isBlank blanks := by
      cases blanks with
      | nil => exact stops_at_nil _
      | cons c blanks => exact stops_at_cons.mpr (hblanks c List.mem_cons_self)
    exact ⟨[], blanks, by simpa using hread blanks (.of_blank hstops), hblanks⟩

end Completable
end Reader
end RelationalQuery
