import RelationalQuery.Proofs.Statement.Lookahead

/-!
# Where filters are too deep

A filter is refused for its depth at the start of one of its atoms: a parenthesis when as many as
may be are open already, or the first atom of a chain's term that would reach below the limit. The
places where atoms begin are told here from the grammar, each with the number of parentheses that
are open before it, and that number is the one that counting parentheses in the text gives.
-/

set_option autoImplicit false

namespace RelationalQuery

inductive AtomAt (start : List Char) : Nat → List Char → Prop
  | first : AtomAt start 0 start
  | inside {opened : Nat} {here inside : List Char} :
      AtomAt start opened here → SymbolAt '(' here inside → AtomAt start (opened + 1) inside
  | later {opened depth : Nat} {here rest next : List Char} {f : Filter} {c : Connective} :
      AtomAt start opened here → Derives .atom here f depth rest →
      KeywordAt c.keyword rest next → AtomAt start opened next

/-- A filter that begins at a given place is too deep at another one, for one of the two limits. -/
inductive TooDeepAt (start : List Char) : List Char → Nat → Prop
  | nesting {here inside : List Char} :
      AtomAt start 64 here → SymbolAt '(' here inside → TooDeepAt start (skipBlanks here) 64
  | depth {opened depth : Nat} {here rest : List Char} {f : Filter} :
      AtomAt start opened here → Derives .atom here f depth rest →
      TooDeepAt start (skipBlanks here) 512

theorem Derives.exists_first {p : Phrase} {input rest : List Char} {f : Filter} {depth : Nat}
    (h : Derives p input f depth rest) :
    ∃ g m next, Derives .atom input g m next := by
  induction h with
  | condition hleft hoperator hright => exact ⟨_, _, _, .condition hleft hoperator hright⟩
  | group hopen hinside hclose _ => exact ⟨_, _, _, .group hopen hinside hclose⟩
  | last _ ih => exact ih
  | more _ _ _ ih _ => exact ih

theorem Derives.exists_last {p : Phrase} {start input rest : List Char} {f : Filter}
    {opened depth : Nat} (h : Derives p input f depth rest) (hinput : AtomAt start opened input) :
    ∃ here g m, AtomAt start opened here ∧ Derives .atom here g m rest := by
  induction h generalizing opened with
  | condition hleft hoperator hright =>
    exact ⟨_, _, _, hinput, .condition hleft hoperator hright⟩
  | group hopen hinside hclose _ => exact ⟨_, _, _, hinput, .group hopen hinside hclose⟩
  | last _ ih => exact ih hinput
  | more _ hkeyword _ ihfirst ihlater =>
    obtain ⟨here, g, m, hhere, hatom⟩ := ihfirst hinput
    exact ihlater (hhere.later hatom hkeyword)

def openAfter (opened : Nat) (c : Char) : Nat :=
  if c = '(' then opened + 1 else if c = ')' then opened - 1 else opened

def openParentheses (part : List Char) : Nat := part.foldl openAfter 0

def Closed (part : List Char) : Prop := ∀ opened, part.foldl openAfter opened = opened

namespace Closed

variable {a b : List Char}

theorem append (ha : Closed a) (hb : Closed b) : Closed (a ++ b) := by
  intro opened
  rw [List.foldl_append, ha, hb]

theorem of_forall (h : ∀ c ∈ a, isParenthesis c = false) : Closed a := by
  intro opened
  induction a with
  | nil => rfl
  | cons c a ih =>
    obtain ⟨hc, ha⟩ := List.forall_mem_cons.mp h
    have hne : c ≠ '(' ∧ c ≠ ')' := by simpa [isParenthesis] using hc
    rw [List.foldl_cons, openAfter, if_neg hne.1, if_neg hne.2]
    exact ih ha

theorem blanks (h : Blanks a) : Closed a := by
  refine of_forall fun c hc => ?_
  have hblank := h c hc
  simp only [isBlank, Bool.or_eq_true, decide_eq_true_eq] at hblank
  rcases hblank with ((rfl | rfl) | rfl) | rfl <;> rfl

theorem enclosed (h : Closed a) : Closed ('(' :: a ++ [')']) := by
  intro opened
  rw [List.cons_append, List.foldl_cons, List.foldl_append]
  change [')'].foldl openAfter (a.foldl openAfter (opened + 1)) = opened
  rw [h]
  rfl

theorem word {w : String} (h : IsWord endsOperand w) : Closed w.toList := by
  refine of_forall fun c hc => ?_
  have hends := h.2 c hc
  simp only [endsOperand, Bool.or_eq_false_iff] at hends
  exact hends.2

theorem letters {k : Keyword} (h : a.map Char.toLower = k.spelling.toList) : Closed a := by
  refine of_forall fun c hc => ?_
  have hmem : c.toLower ∈ k.spelling.toList := h ▸ List.mem_map_of_mem hc
  by_contra hparenthesis
  simp only [isParenthesis, Bool.not_eq_false, Bool.or_eq_true, decide_eq_true_eq] at hparenthesis
  rcases hparenthesis with rfl | rfl <;> revert hmem <;> cases k <;> decide

end Closed

theorem WordAt.exists_closed {w : String} {input rest : List Char}
    (h : WordAt endsOperand w input rest) : ∃ part, input = part ++ rest ∧ Closed part := by
  obtain ⟨blanks, hblanks, rfl, hword, _⟩ := h
  exact ⟨blanks ++ w.toList, (List.append_assoc _ _ _).symm,
    (Closed.blanks hblanks).append (.word hword)⟩

theorem KeywordAt.exists_closed {k : Keyword} {input rest : List Char}
    (h : KeywordAt k input rest) : ∃ part, input = part ++ rest ∧ Closed part := by
  obtain ⟨blanks, letters, hblanks, rfl, hletters, _⟩ := h
  exact ⟨blanks ++ letters, (List.append_assoc _ _ _).symm,
    (Closed.blanks hblanks).append (.letters hletters)⟩

theorem Derives.exists_closed {p : Phrase} {input rest : List Char} {f : Filter} {depth : Nat}
    (h : Derives p input f depth rest) : ∃ part, input = part ++ rest ∧ Closed part := by
  induction h with
  | condition hleft hoperator hright =>
    obtain ⟨a, rfl, ha⟩ := hleft.exists_closed
    obtain ⟨b, rfl, hb⟩ := hoperator.exists_closed
    obtain ⟨c, rfl, hc⟩ := hright.exists_closed
    exact ⟨a ++ b ++ c, by simp, (ha.append hb).append hc⟩
  | group hopen _ hclose ih =>
    obtain ⟨before, hbefore, rfl⟩ := hopen
    obtain ⟨part, rfl, hpart⟩ := ih
    obtain ⟨after, hafter, rfl⟩ := hclose
    exact ⟨before ++ ('(' :: (part ++ after) ++ [')']), by simp,
      (Closed.blanks hbefore).append (hpart.append (.blanks hafter)).enclosed⟩
  | last _ ih => exact ih
  | more _ hkeyword _ ihfirst ihlater =>
    obtain ⟨a, rfl, ha⟩ := ihfirst
    obtain ⟨b, rfl, hb⟩ := hkeyword.exists_closed
    obtain ⟨c, rfl, hc⟩ := ihlater
    exact ⟨a ++ b ++ c, by simp, (ha.append hb).append hc⟩

/-- The number of parentheses that an atom is inside of is the number of those that are open before
it. -/
theorem AtomAt.open_parentheses_eq {start here : List Char} {opened : Nat}
    (h : AtomAt start opened here) :
    ∃ part, start = part ++ here ∧ openParentheses part = opened := by
  induction h with
  | first => exact ⟨[], rfl, rfl⟩
  | inside _ hopen ih =>
    obtain ⟨part, rfl, hpart⟩ := ih
    obtain ⟨blanks, hblanks, rfl⟩ := hopen
    refine ⟨part ++ (blanks ++ ['(']), by simp, ?_⟩
    rw [openParentheses] at hpart ⊢
    rw [List.foldl_append, List.foldl_append, hpart, Closed.blanks hblanks]
    rfl
  | later _ hatom hkeyword ih =>
    obtain ⟨part, rfl, hpart⟩ := ih
    obtain ⟨a, rfl, ha⟩ := hatom.exists_closed
    obtain ⟨b, rfl, hb⟩ := hkeyword.exists_closed
    refine ⟨part ++ (a ++ b), by simp, ?_⟩
    rw [openParentheses] at hpart ⊢
    rw [List.foldl_append, hpart, ha.append hb]

namespace Reader

variable {α β γ : Type} {start : List Char} {opened limit : Nat}

def NeverDeep (r : Reader α) : Prop :=
  ∀ ⦃input ahead : List Char⦄ ⦃limit : Nat⦄, r.run input ≠ .error ⟨ahead, .tooDeep limit⟩

namespace NeverDeep

theorem pure (value : α) : NeverDeep (Pure.pure value : Reader α) := by
  intro input ahead limit h
  cases h

theorem bind {first : Reader α} {next : α → Reader β} (hfirst : NeverDeep first)
    (hnext : ∀ value, NeverDeep (next value)) : NeverDeep (first >>= next) := by
  intro input ahead limit h
  rcases run_bind_error_iff.mp h with h | ⟨value, rest, _, h⟩
  · exact hfirst h
  · exact hnext value h

theorem word (expectation : Expectation) (ends : Char → Bool) :
    NeverDeep (Reader.word expectation ends) := by
  intro input ahead limit h
  simp only [Reader.word] at h
  split at h <;> cases h

theorem opening (opener : Opener α) (expectation : Expectation) :
    NeverDeep (Reader.opening opener expectation) := by
  intro input ahead limit h
  cases (run_opening_error.mp h).2

theorem many {opener : Opener γ} {part : γ → Reader β} (hpart : ∀ kind, NeverDeep (part kind)) :
    NeverDeep (Reader.many opener part) := by
  intro input ahead limit h
  obtain ⟨_, _, kind, _, _, _, hrun⟩ := run_many_error_iff.mp h
  exact hpart kind hrun

theorem condition : NeverDeep Reader.condition :=
  bind (word _ _) fun _ => bind (word _ _) fun _ => bind (word _ _) fun _ => pure _

theorem names : NeverDeep Reader.names :=
  bind (word _ _) fun _ => bind (many fun _ => word _ _) fun _ => pure _

end NeverDeep

def DeepAt (start : List Char) (opened : Nat) (r : Reader Term) : Prop :=
  ∀ ⦃input ahead : List Char⦄ ⦃limit : Nat⦄, AtomAt start opened input →
    r.run (skipBlanks input) = .error ⟨ahead, .tooDeep limit⟩ → TooDeepAt start ahead limit

theorem deep_at_atom {inner : Option (Reader Term)}
    (hgroup : ∀ {input inside ahead : List Char} {limit : Nat}, AtomAt start opened input →
      SymbolAt '(' input inside →
      (group (skipBlanks input) inner).run (skipBlanks inside) = .error ⟨ahead, .tooDeep limit⟩ →
      TooDeepAt start ahead limit) : DeepAt start opened (atom inner) := by
  intro input ahead limit hinput h
  cases hopen : (Opener.symbol '(').after? (skipBlanks input) with
  | none =>
    rw [run_atom_absent hopen] at h
    exact (NeverDeep.bind .condition (fun _ => .pure _) h).elim
  | some found =>
    obtain ⟨⟨⟩, _⟩ := found
    rw [run_atom_open hopen] at h
    obtain ⟨inside, hsymbol, rfl⟩ := (Opener.symbol_eq_some (by decide)).mp hopen
    exact hgroup hinput hsymbol h

theorem deep_at_atom_none : DeepAt start 64 (atom none) := by
  refine deep_at_atom fun hinput hsymbol h => ?_
  cases h
  exact .nesting hinput hsymbol

theorem deep_at_atom_some {inner : Reader Term} (hinner : DeepAt start (opened + 1) inner) :
    DeepAt start opened (atom (some inner)) := by
  refine deep_at_atom fun hinput hsymbol h => ?_
  rcases run_bind_error_iff.mp h with h | ⟨t, rest, _, h⟩
  · exact hinner (hinput.inside hsymbol) h
  · rcases run_bind_error_iff.mp h with h | ⟨_, _, _, h⟩
    · exact (NeverDeep.opening _ _ h).elim
    · cases h

section
variable {c : Connective} {term : Reader Term}

def AfterAtom (start : List Char) (opened : Nat) (ahead : List Char) : Prop :=
  ∃ here f depth rest, AtomAt start opened here ∧ Derives .atom here f depth rest ∧
    ahead = skipBlanks rest

def BeginsAtom (start : List Char) (opened : Nat) (t : Term) : Prop :=
  ∃ here f depth rest, AtomAt start opened here ∧ Derives .atom here f depth rest ∧
    t.start = skipBlanks here

theorem after_atom_term (haccepts : term.Accepts c.operand limit) {input ahead : List Char}
    {t : Term} (hinput : AtomAt start opened input)
    (h : term.run (skipBlanks input) = .ok (t, ahead)) :
    AfterAtom start opened ahead ∧ BeginsAtom start opened t := by
  obtain ⟨⟨rest, depth, hderives, _, rfl⟩, _, _, _, hstart⟩ := (haccepts _ _ _).mp h
  obtain ⟨here, f, m, hhere, hlast⟩ := hderives.exists_last hinput
  obtain ⟨g, n, next, hfirst⟩ := hderives.exists_first
  exact ⟨⟨here, f, m, rest, hhere, hlast, rfl⟩, input, g, n, next, hinput, hfirst, hstart⟩

theorem AfterAtom.keyword {ahead inside : List Char} (h : AfterAtom start opened ahead)
    (hopen : (Opener.keyword c.keyword ()).after? ahead = some ((), inside)) :
    ∃ next, AtomAt start opened next ∧ inside = skipBlanks next := by
  obtain ⟨here, f, depth, rest, hhere, hatom, rfl⟩ := h
  have hafter : c.keyword.after? (skipBlanks rest) = some inside := by
    simpa [Opener.keyword] using hopen
  obtain ⟨next, hkeyword, rfl⟩ := Keyword.after?_eq_some.mp hafter
  exact ⟨next, hhere.later hatom hkeyword, rfl⟩

/-- The later terms of a chain, one round after another. -/
theorem after_atom_rounds (haccepts : term.Accepts c.operand limit) {terms : List Term}
    {mid ahead : List Char} (hmid : AfterAtom start opened mid)
    (hrounds : Sequence (Round (Opener.keyword c.keyword ()) fun _ => term) terms mid ahead) :
    AfterAtom start opened ahead ∧ ∀ t ∈ terms, BeginsAtom start opened t := by
  induction hrounds with
  | nil => exact ⟨hmid, List.forall_mem_nil _⟩
  | cons hround _ ih =>
    obtain ⟨⟨⟩, inside, hopen, hrun⟩ := hround
    obtain ⟨next, hnext, rfl⟩ := hmid.keyword hopen
    obtain ⟨hafter, hbegins⟩ := after_atom_term haccepts hnext hrun
    obtain ⟨hahead, hlater⟩ := ih hafter
    exact ⟨hahead, List.forall_mem_cons.mpr ⟨hbegins, hlater⟩⟩

theorem deep_at_chain (haccepts : term.Accepts c.operand limit)
    (hterm : DeepAt start opened term) :
    DeepAt start opened (chain c.keyword c.combine term) := by
  intro input ahead limit' hinput h
  rcases run_bind_error_iff.mp h with h | ⟨first, mid, hfirst, h⟩
  · exact hterm hinput h
  obtain ⟨hmid, hbegins⟩ := after_atom_term haccepts hinput hfirst
  rcases run_bind_error_iff.mp h with h | ⟨later, rest, hlater, h⟩
  · obtain ⟨_, before, ⟨⟩, inside, hrounds, hopen, hrun⟩ := run_many_error_iff.mp h
    obtain ⟨next, hnext, rfl⟩ := (after_atom_rounds haccepts hmid hrounds).1.keyword hopen
    exact hterm hnext hrun
  · -- All terms have been read, so the chain is refused at the start of one of them.
    have hrounds := (after_atom_rounds haccepts hmid (run_many_ok_iff.mp hlater).1).2
    have hchain : Term.chain c.combine first later = .error ⟨ahead, .tooDeep limit'⟩ := by
      cases hresult : Term.chain c.combine first later with
      | error found => simpa [ofExcept, hresult] using h
      | ok t => simp [ofExcept, hresult] at h
    obtain ⟨t, ht, heq⟩ := Term.chain_error hchain
    obtain ⟨here, f, depth, next, hhere, hatom, hstart⟩ :=
      List.forall_mem_cons.mpr ⟨hbegins, hrounds⟩ t ht
    cases heq
    rw [hstart]
    exact .depth hhere hatom

end

theorem deep_at_nested (h : opened + limit = 64) : DeepAt start opened (nested limit) := by
  induction limit generalizing opened with
  | zero =>
    obtain rfl : opened = 64 := h
    exact deep_at_chain (c := .or)
      (chain_accepts (c := .and) (atom_accepts group_accepts_none))
      (deep_at_chain (c := .and) (atom_accepts group_accepts_none) deep_at_atom_none)
  | succ limit ih =>
    have hgroup := atom_accepts (group_accepts_some (nested_accepts limit))
    exact deep_at_chain (c := .or) (chain_accepts (c := .and) hgroup)
      (deep_at_chain (c := .and) hgroup (deep_at_atom_some (ih (by omega))))

theorem too_deep_at_of_filter {ahead : List Char}
    (h : filter.run (skipBlanks start) = .error ⟨ahead, .tooDeep limit⟩) :
    TooDeepAt start ahead limit := by
  rcases run_bind_error_iff.mp h with h | ⟨_, _, _, h⟩
  · exact deep_at_nested (by rfl) .first h
  · cases h

end Reader

def HeaderAt (columns tables : List String) (joins : List JoinClause) :
    List Char → List Char → Prop :=
  InTurn (KeywordAt .select) (InTurn (NamesAt columns) (InTurn (KeywordAt .from)
    (InTurn (NamesAt tables) (Sequence JoinClauseAt joins))))

def JoinHeaderAt (kind : JoinKind) (table : String) : List Char → List Char → Prop :=
  InTurn (Sequence KeywordAt kind.keywords) (InTurn (NameAt table) (KeywordAt .on))

inductive FilterStart (text : List Char) : List Char → Prop
  | join {columns tables : List String} {joins : List JoinClause} {kind : JoinKind}
      {table : String} {clause start : List Char} :
      HeaderAt columns tables joins text clause → JoinHeaderAt kind table clause start →
      FilterStart text start
  | condition {columns tables : List String} {joins : List JoinClause}
      {clause start : List Char} :
      HeaderAt columns tables joins text clause → KeywordAt .where clause start →
      FilterStart text start

theorem Portable.suffix {Part : List Char → List Char → Prop} (h : Portable Part)
    {input rest : List Char} (hpart : Part input rest) : rest <:+ input := by
  obtain ⟨read, rfl, _⟩ := h input rest hpart
  exact List.suffix_append read rest

theorem FilterStart.suffix {text start : List Char} (h : FilterStart text start) :
    start <:+ text := by
  have hheader (columns tables : List String) (joins : List JoinClause) :
      Portable (HeaderAt columns tables joins) :=
    .in_turn (.keyword _) (.in_turn (.names _) (.in_turn (.keyword _) (.in_turn (.names _)
      (.sequence (fun j => join_clause_with_filter_at ▸ .join_clause_with .filter_at j) _))))
  have hjoin (kind : JoinKind) (table : String) : Portable (JoinHeaderAt kind table) :=
    .in_turn (.sequence .keyword _) (.in_turn (.name _) (.keyword _))
  cases h with
  | join hclause hstart => exact ((hjoin _ _).suffix hstart).trans ((hheader _ _ _).suffix hclause)
  | condition hclause hstart =>
    exact ((Portable.keyword _).suffix hstart).trans ((hheader _ _ _).suffix hclause)

namespace Reader

variable {text input ahead : List Char} {limit : Nat}

theorem NeverDeep.keyword (k : Keyword) : NeverDeep (Reader.keyword k) := .opening _ _

theorem too_deep_after_keywords {α : Type} {part : Reader α} {ks : List Keyword}
    (h : (afterKeywords part ks).run (skipBlanks input) = .error ⟨ahead, .tooDeep limit⟩) :
    ∃ mid, Sequence KeywordAt ks input mid ∧
      part.run (skipBlanks mid) = .error ⟨ahead, .tooDeep limit⟩ := by
  induction ks generalizing input with
  | nil => exact ⟨input, .nil, h⟩
  | cons k ks ih =>
    rcases run_bind_error_iff.mp h with h | ⟨⟨⟩, _, hrun, h⟩
    · exact (NeverDeep.keyword k h).elim
    · obtain ⟨next, hkeyword, rfl⟩ := run_keyword_ok.mp hrun
      obtain ⟨mid, hlater, hpart⟩ := ih h
      exact ⟨mid, .cons hkeyword hlater, hpart⟩

theorem sequence_of_rounds {α β : Type} {opener : Opener α} {part : α → Reader β}
    {Part : β → List Char → List Char → Prop} {Ends : List Char → Prop}
    (haccepts : RoundAccepts opener part Part Ends) {values : List β} {mid : List Char}
    (hrounds : Sequence (Round opener part) values (skipBlanks input) mid) :
    ∃ rest, Sequence Part values input rest ∧ mid = skipBlanks rest := by
  induction values generalizing input with
  | nil =>
    cases hrounds
    exact ⟨input, .nil, rfl⟩
  | cons value values ih =>
    cases hrounds with
    | cons hround hlater =>
      obtain ⟨⟨next, hpart, rfl⟩, _⟩ := (haccepts _ _ _).mp hround
      obtain ⟨rest, hparts, hmid⟩ := ih hlater
      exact ⟨rest, .cons hpart hparts, hmid⟩

theorem too_deep_join_body {kind : JoinKind}
    (h : (joinBody kind).run (skipBlanks input) = .error ⟨ahead, .tooDeep limit⟩) :
    ∃ table start, InTurn (NameAt table) (KeywordAt .on) input start ∧
      TooDeepAt start ahead limit := by
  rcases run_bind_error_iff.mp h with h | ⟨table, _, hrun, h⟩
  · exact (NeverDeep.word _ _ h).elim
  obtain ⟨mid, hname, rfl⟩ := run_name_ok.mp hrun
  rcases run_bind_error_iff.mp h with h | ⟨⟨⟩, _, hrun, h⟩
  · exact (NeverDeep.keyword _ h).elim
  obtain ⟨start, hon, rfl⟩ := run_keyword_ok.mp hrun
  rcases run_bind_error_iff.mp h with h | ⟨_, _, _, h⟩
  · exact ⟨table, start, ⟨mid, hname, hon⟩, too_deep_at_of_filter h⟩
  · cases h

theorem too_deep_join_clause {kind : JoinKind} {inside : List Char}
    (hopen : Opener.joinKind.after? (skipBlanks input) = some (kind, inside))
    (h : (joinClause kind).run inside = .error ⟨ahead, .tooDeep limit⟩) :
    ∃ table start, JoinHeaderAt kind table input start ∧ TooDeepAt start ahead limit := by
  obtain ⟨next, hfirst, rfl⟩ := Keyword.after?_eq_some.mp (join_kind_eq_some.mp hopen)
  rw [join_clause_eq] at h
  obtain ⟨mid, hlater, h⟩ := too_deep_after_keywords h
  obtain ⟨table, start, hbody, hdeep⟩ := too_deep_join_body h
  have hkeywords : kind.keywords = kind.firstWord :: kind.keywords.tail := by cases kind <;> rfl
  exact ⟨table, start, ⟨mid, hkeywords ▸ .cons hfirst hlater, hbody⟩, hdeep⟩

/-- A statement is too deep only where one of its filters is. -/
theorem too_deep_at_of_statement
    (h : statement.run (skipBlanks text) = .error ⟨ahead, .tooDeep limit⟩) :
    ∃ start, FilterStart text start ∧ TooDeepAt start ahead limit := by
  rcases run_bind_error_iff.mp h with h | ⟨⟨⟩, _, hrun, h⟩
  · exact (NeverDeep.keyword _ h).elim
  obtain ⟨input₁, hselect, rfl⟩ := run_keyword_ok.mp hrun
  rcases run_bind_error_iff.mp h with h | ⟨columns, _, hrun, h⟩
  · exact (NeverDeep.names h).elim
  obtain ⟨input₂, hcolumns, rfl⟩ := names_at_of_run hrun
  rcases run_bind_error_iff.mp h with h | ⟨⟨⟩, _, hrun, h⟩
  · exact (NeverDeep.keyword _ h).elim
  obtain ⟨input₃, hfrom, rfl⟩ := run_keyword_ok.mp hrun
  rcases run_bind_error_iff.mp h with h | ⟨tables, _, hrun, h⟩
  · exact (NeverDeep.names h).elim
  obtain ⟨input₄, htables, rfl⟩ := names_at_of_run hrun
  have hheader {joins : List JoinClause} {clause : List Char}
      (hjoins : Sequence JoinClauseAt joins input₄ clause) :
      HeaderAt columns tables joins text clause :=
    ⟨_, hselect, _, hcolumns, _, hfrom, _, htables, hjoins⟩
  rcases run_bind_error_iff.mp h with h | ⟨joins, _, hrun, h⟩
  · obtain ⟨joins, _, kind, inside, hrounds, hopen, h⟩ := run_many_error_iff.mp h
    obtain ⟨clause, hjoins, rfl⟩ := sequence_of_rounds join_clause_accepts hrounds
    obtain ⟨table, start, hstart, hdeep⟩ := too_deep_join_clause hopen h
    exact ⟨start, .join (hheader hjoins) hstart, hdeep⟩
  obtain ⟨⟨clause, hjoins, rfl⟩, _⟩ := sequence_of_run_many join_clause_accepts hrun
  rcases run_bind_error_iff.mp h with h | ⟨_, _, _, h⟩
  · obtain ⟨⟨⟩, inside, hopen, h⟩ := run_optional_error.mp h
    have hafter : Keyword.where.after? (skipBlanks clause) = some inside := by
      simpa [Opener.keyword] using hopen
    obtain ⟨start, hwhere, rfl⟩ := Keyword.after?_eq_some.mp hafter
    exact ⟨start, .condition (hheader hjoins) hwhere, too_deep_at_of_filter h⟩
  · cases h

end Reader
end RelationalQuery
