import RelationalQuery.Proofs.Statement.Chains
import RelationalQuery.Proofs.Statement.Lexemes

/-!
# The grammar of filters

What a text means as a filter is said here without a reader. A derivation of a phrase tells which
text stands before it and which after it, the filter that it denotes, and how many parentheses are
open at once at its deepest place. The reader of filters accepts exactly the texts that have a
derivation, as far as its two limits allow.
-/

set_option autoImplicit false

namespace RelationalQuery

inductive Connective
  | and
  | or

inductive Phrase
  | atom
  | chain (c : Connective)

namespace Connective

def keyword : Connective → Keyword
  | and => .and
  | or => .or

def combine : Connective → Filter → Filter → Filter
  | and => .and
  | or => .or

def operand : Connective → Phrase
  | and => .atom
  | or => .chain and

theorem combine_depth (c : Connective) (f g : Filter) :
    (c.combine f g).depth = max f.depth g.depth + 1 := by
  cases c <;> rfl

end Connective

def endsOperand (c : Char) : Bool := isBlank c || isParenthesis c

/-- `Derives p input f opened rest`: the input begins with a phrase that denotes `f` and goes on
with `rest`; `opened` is the greatest number of parentheses that are open at once. -/
inductive Derives : Phrase → List Char → Filter → Nat → List Char → Prop
  | condition {input input₁ input₂ rest : List Char} {left operator right : String} :
      WordAt endsOperand left input input₁ → WordAt endsOperand operator input₁ input₂ →
      WordAt endsOperand right input₂ rest →
      Derives .atom input (.condition ⟨left, operator, right⟩) 0 rest
  | group {input inside closing rest : List Char} {f : Filter} {opened : Nat} :
      SymbolAt '(' input inside → Derives (.chain .or) inside f opened closing →
      SymbolAt ')' closing rest → Derives .atom input f (opened + 1) rest
  | last {c : Connective} {input rest : List Char} {f : Filter} {opened : Nat} :
      Derives c.operand input f opened rest → Derives (.chain c) input f opened rest
  | more {c : Connective} {input input₁ input₂ rest : List Char} {f g : Filter} {m n : Nat} :
      Derives c.operand input f m input₁ → KeywordAt c.keyword input₁ input₂ →
      Derives (.chain c) input₂ g n rest →
      Derives (.chain c) input (c.combine f g) (max m n) rest

def Filter.DerivedFrom (f : Filter) (text : String) (opened : Nat) : Prop :=
  ∃ rest, Derives (.chain .or) text.toList f opened rest ∧ Blanks rest

def Phrase.EndsAt : Phrase → List Char → Prop
  | .atom, _ => True
  | .chain .and, ahead => Keyword.and.after? ahead = none
  | .chain .or, ahead => Keyword.and.after? ahead = none ∧ Keyword.or.after? ahead = none

theorem Phrase.ends_at_chain {c : Connective} {ahead : List Char} :
    (Phrase.chain c).EndsAt ahead ↔ c.operand.EndsAt ahead ∧ c.keyword.after? ahead = none := by
  cases c <;> simp [EndsAt, Connective.operand, Connective.keyword]

/-- The keyword of a chain cannot be taken for one inside its operands. -/
theorem Connective.operand_ends_at {c : Connective} {ahead inside : List Char}
    (h : c.keyword.after? ahead = some inside) : c.operand.EndsAt ahead := by
  cases c with
  | and => trivial
  | or =>
    change Keyword.and.after? ahead = none
    change Keyword.or.after? ahead = some inside at h
    cases ahead with
    | nil => rfl
    | cons d ahead =>
      by_cases hd : d.toLower = 'a'
      · simp [Keyword.after?, Keyword.spelling, Keyword.afterLetters?, hd] at h
      · simp [Keyword.after?, Keyword.spelling, Keyword.afterLetters?, hd]

namespace Reader

/-- A reader takes exactly the phrases of a kind, if they keep to the limits, and stops at the
next part after one. -/
def Accepts (r : Reader Term) (p : Phrase) (limit : Nat) : Prop :=
  ∀ (input : List Char) (t : Term) (ahead : List Char),
    r.run (skipBlanks input) = .ok (t, ahead) ↔
      (∃ rest opened, Derives p input t.filter opened rest ∧ opened ≤ limit ∧
        ahead = skipBlanks rest) ∧
      p.EndsAt ahead ∧ t.filter.depth ≤ Term.maxDepth ∧ t.Measured ∧ t.start = skipBlanks input

theorem ends_operand_of_is_blank {c : Char} (h : isBlank c = true) : endsOperand c = true := by
  simp [endsOperand, h]

theorem run_operand_ok {input ahead : List Char} {w : String} :
    operand.run (skipBlanks input) = .ok (w, ahead) ↔
      ∃ rest, WordAt endsOperand w input rest ∧ ahead = skipBlanks rest :=
  run_word_ok fun _ => ends_operand_of_is_blank

theorem run_operator_ok {input ahead : List Char} {w : String} :
    operator.run (skipBlanks input) = .ok (w, ahead) ↔
      ∃ rest, WordAt endsOperand w input rest ∧ ahead = skipBlanks rest :=
  run_word_ok fun _ => ends_operand_of_is_blank

theorem run_condition_ok {input ahead : List Char} {c : Condition} :
    condition.run (skipBlanks input) = .ok (c, ahead) ↔
      ∃ rest, Derives .atom input (.condition c) 0 rest ∧ ahead = skipBlanks rest := by
  simp only [condition, run_bind_ok, run_pure_ok, Prod.mk.injEq]
  constructor
  · rintro ⟨left, _, h₁, operator, _, h₂, right, _, h₃, rfl, rfl⟩
    obtain ⟨input₁, hleft, rfl⟩ := run_operand_ok.mp h₁
    obtain ⟨input₂, hoperator, rfl⟩ := run_operator_ok.mp h₂
    obtain ⟨rest, hright, rfl⟩ := run_operand_ok.mp h₃
    exact ⟨rest, .condition hleft hoperator hright, rfl⟩
  · rintro ⟨rest, h, rfl⟩
    cases h with
    | condition hleft hoperator hright =>
      exact ⟨_, _, run_operand_ok.mpr ⟨_, hleft, rfl⟩,
        _, _, run_operator_ok.mpr ⟨_, hoperator, rfl⟩,
        _, _, run_operand_ok.mpr ⟨_, hright, rfl⟩, rfl, rfl⟩

theorem run_closing_ok {input ahead : List Char} :
    (opening (Opener.symbol ')') .closing).run (skipBlanks input) = .ok ((), ahead) ↔
      ∃ rest, SymbolAt ')' input rest ∧ ahead = skipBlanks rest := by
  rw [run_opening_ok, Opener.symbol_eq_some (by decide)]

theorem run_atom_open {inner : Option (Reader Term)} {start inside : List Char}
    (hopen : (Opener.symbol '(').after? start = some ((), inside)) :
    (atom inner).run start = (group start inner).run inside := by
  have hstart : ahead.run start = .ok (start, start) := run_ahead_ok.mpr ⟨rfl, rfl⟩
  rw [atom, run_bind_of_ok hstart]
  cases hgroup : (group start inner).run inside with
  | error fault =>
    refine run_bind_error ?_
    rw [run_optional_open hopen]
    exact run_bind_error hgroup
  | ok read =>
    obtain ⟨t, rest⟩ := read
    rw [run_bind_of_ok (run_optional_some.mpr ⟨(), inside, hopen, hgroup⟩)]
    rfl

theorem run_atom_absent {inner : Option (Reader Term)} {start : List Char}
    (habsent : (Opener.symbol '(').after? start = none) :
    (atom inner).run start =
      (do return ⟨.condition (← condition), 1, start⟩ : Reader Term).run start := by
  have hstart : ahead.run start = .ok (start, start) := run_ahead_ok.mpr ⟨rfl, rfl⟩
  rw [atom, run_bind_of_ok hstart, run_bind_of_ok (run_optional_absent habsent)]

theorem symbol_condition {input rest : List Char} {c : Condition}
    (h : Derives .atom input (.condition c) 0 rest) :
    (Opener.symbol '(').after? (skipBlanks input) = none := by
  cases h with
  | condition hleft _ _ =>
    obtain ⟨blanks, hblanks, rfl, hword, _⟩ := hleft
    rw [skip_blanks_append hblanks, skip_blanks_word (fun _ => ends_operand_of_is_blank) hword]
    exact symbol_word hword (by decide) _

def GroupAccepts (inner : Option (Reader Term)) (limit : Nat) : Prop :=
  ∀ (start inside : List Char) (t : Term) (ahead : List Char),
    (group start inner).run (skipBlanks inside) = .ok (t, ahead) ↔
      (∃ closing rest opened, Derives (.chain .or) inside t.filter opened closing ∧
        SymbolAt ')' closing rest ∧ opened + 1 ≤ limit ∧ ahead = skipBlanks rest) ∧
      t.filter.depth ≤ Term.maxDepth ∧ t.Measured ∧ t.start = start

theorem group_accepts_none : GroupAccepts none 0 := by
  intro start inside t ahead
  simp [group, ofExcept]

theorem group_accepts_some {inner : Reader Term} {limit : Nat}
    (h : inner.Accepts (.chain .or) limit) : GroupAccepts (some inner) (limit + 1) := by
  intro start inside t ahead
  simp only [group, run_bind_ok, run_pure_ok, Prod.mk.injEq]
  constructor
  · rintro ⟨read, _, hread, _, _, hclose, rfl, rfl⟩
    obtain ⟨⟨closing, opened, hderives, hopened, rfl⟩, _, hdeep, hmeasured, _⟩ :=
      (h _ _ _).mp hread
    obtain ⟨rest, hsymbol, rfl⟩ := run_closing_ok.mp hclose
    exact ⟨⟨closing, rest, opened, hderives, hsymbol, by omega, rfl⟩, hdeep, hmeasured, rfl⟩
  · rintro ⟨⟨closing, rest, opened, hderives, hsymbol, hopened, rfl⟩, hdeep, hmeasured, rfl⟩
    obtain ⟨f, depth, start⟩ := t
    have hends : (Phrase.chain .or).EndsAt (skipBlanks closing) := by
      obtain ⟨blanks, hblanks, rfl⟩ := hsymbol
      rw [skip_blanks_append hblanks, skip_blanks_cons (by decide)]
      exact ⟨rfl, rfl⟩
    exact ⟨⟨f, depth, skipBlanks inside⟩, skipBlanks closing,
      (h _ _ _).mpr ⟨⟨closing, opened, hderives, by omega, rfl⟩, hends, hdeep, hmeasured, rfl⟩,
      (), skipBlanks rest, run_closing_ok.mpr ⟨rest, hsymbol, rfl⟩, rfl, rfl⟩

theorem atom_accepts {inner : Option (Reader Term)} {limit : Nat} (h : GroupAccepts inner limit) :
    (atom inner).Accepts .atom limit := by
  intro input t ahead
  constructor
  · intro hrun
    cases hopen : (Opener.symbol '(').after? (skipBlanks input) with
    | none =>
      rw [run_atom_absent hopen] at hrun
      obtain ⟨c, _, hc, hpure⟩ := run_bind_ok.mp hrun
      obtain ⟨rfl, rfl⟩ := Prod.mk.inj (run_pure_ok.mp hpure)
      obtain ⟨rest, hderives, rfl⟩ := run_condition_ok.mp hc
      have hdeep : (Filter.condition c).depth ≤ Term.maxDepth := by
        simp [Filter.depth, Term.maxDepth]
      exact ⟨⟨rest, 0, hderives, Nat.zero_le _, rfl⟩, trivial, hdeep, rfl, rfl⟩
    | some found =>
      obtain ⟨⟨⟩, _⟩ := found
      rw [run_atom_open hopen] at hrun
      obtain ⟨inside, hsymbol, rfl⟩ := (Opener.symbol_eq_some (by decide)).mp hopen
      obtain ⟨⟨closing, rest, opened, hderives, hclose, hopened, rfl⟩, hterm⟩ :=
        (h _ _ _ _).mp hrun
      exact ⟨⟨rest, opened + 1, .group hsymbol hderives hclose, hopened, rfl⟩, trivial, hterm⟩
  · rintro ⟨⟨rest, opened, hderives, hopened, rfl⟩, -, hdeep, hmeasured, hstart⟩
    obtain ⟨f, depth, start⟩ := t
    cases hderives with
    | condition hleft hoperator hright =>
      have hcondition := Derives.condition hleft hoperator hright
      simp only [Term.Measured] at hmeasured hstart
      subst hmeasured hstart
      rw [run_atom_absent (symbol_condition hcondition),
        run_bind_of_ok (run_condition_ok.mpr ⟨rest, hcondition, rfl⟩)]
      rfl
    | group hsymbol hinside hclose =>
      rw [run_atom_open ((Opener.symbol_eq_some (by decide)).mpr ⟨_, hsymbol, rfl⟩)]
      exact (h _ _ _ _).mpr ⟨⟨_, rest, _, hinside, hclose, hopened, rfl⟩, hdeep, hmeasured, hstart⟩

section
variable {c : Connective} {term : Reader Term} {limit : Nat}

/-- The operands that follow one another in a text make up one chain. -/
theorem derives_chain (h : term.Accepts c.operand limit) {first : Term} {later : List Term}
    {input mid ahead : List Char} (hfirst : term.run (skipBlanks input) = .ok (first, mid))
    (hlater : (many (Opener.keyword c.keyword ()) fun _ => term).run mid = .ok (later, ahead)) :
    (∃ rest opened, Derives (.chain c) input (Term.combineChain c.combine first later) opened rest ∧
      opened ≤ limit ∧ ahead = skipBlanks rest) ∧
    (Phrase.chain c).EndsAt ahead ∧ ∀ t ∈ first :: later, t.Measured := by
  induction later generalizing first input mid with
  | nil =>
    obtain ⟨hnone, rfl⟩ := run_many_nil.mp hlater
    obtain ⟨⟨rest, opened, hderives, hopened, rfl⟩, hends, _, hmeasured, _⟩ := (h _ _ _).mp hfirst
    have hkeyword : c.keyword.after? (skipBlanks rest) = none := by
      simpa [Opener.keyword] using hnone
    exact ⟨⟨rest, opened, .last hderives, hopened, rfl⟩, Phrase.ends_at_chain.mpr ⟨hends, hkeyword⟩,
      by simpa using hmeasured⟩
  | cons next later ih =>
    obtain ⟨_, inside, next', hopen, hnext, hmany⟩ := run_many_cons.mp hlater
    obtain ⟨⟨rest, opened, hderives, hopened, rfl⟩, _, _, hmeasured, _⟩ := (h _ _ _).mp hfirst
    have hkeyword : c.keyword.after? (skipBlanks rest) = some inside := by
      simpa [Opener.keyword] using hopen
    obtain ⟨rest', hat, rfl⟩ := Keyword.after?_eq_some.mp hkeyword
    obtain ⟨⟨rest'', opened', hderives', hopened', hahead⟩, hends, hall⟩ := ih hnext hmany
    refine ⟨⟨rest'', max opened opened', .more hderives hat hderives', by omega, hahead⟩, hends, ?_⟩
    intro t ht
    rcases List.mem_cons.mp ht with rfl | ht
    · exact hmeasured
    · exact hall t ht

theorem run_derived_chain (h : term.Accepts c.operand limit) {input rest : List Char} {f : Filter}
    {opened : Nat} (hderives : Derives (.chain c) input f opened rest) (hopened : opened ≤ limit)
    (hdeep : f.depth ≤ Term.maxDepth) (hends : (Phrase.chain c).EndsAt (skipBlanks rest)) :
    ∃ first later mid, term.run (skipBlanks input) = .ok (first, mid) ∧
      (many (Opener.keyword c.keyword ()) fun _ => term).run mid = .ok (later, skipBlanks rest) ∧
      Term.combineChain c.combine first later = f ∧ (∀ t ∈ first :: later, t.Measured) ∧
      first.start = skipBlanks input := by
  generalize hp : Phrase.chain c = p at hderives
  induction hderives with
  | condition _ _ _ => cases hp
  | group _ _ _ _ => cases hp
  | @last _ input rest f opened hoperand _ =>
    cases hp
    obtain ⟨hends, hnone⟩ := Phrase.ends_at_chain.mp hends
    refine ⟨⟨f, f.depth, skipBlanks input⟩, [], skipBlanks rest, ?_, ?_, rfl,
      by simp [Term.Measured], rfl⟩
    · exact (h _ _ _).mpr ⟨⟨rest, opened, hoperand, hopened, rfl⟩, hends, hdeep, rfl, rfl⟩
    · exact run_many_nil.mpr ⟨by simp [Opener.keyword, hnone], rfl⟩
  | @more _ input input₁ input₂ rest f g m n hoperand hat _ _ ih =>
    cases hp
    rw [Connective.combine_depth] at hdeep
    obtain ⟨next, later, mid, hnext, hlater, hcombine, hall, _⟩ :=
      ih (by omega) (by omega) hends rfl
    have hsome : c.keyword.after? (skipBlanks input₁) = some (skipBlanks input₂) :=
      Keyword.after?_eq_some.mpr ⟨input₂, hat, rfl⟩
    refine ⟨⟨f, f.depth, skipBlanks input⟩, next :: later, skipBlanks input₁, ?_, ?_, ?_, ?_, rfl⟩
    · exact (h _ _ _).mpr ⟨⟨input₁, m, hoperand, by omega, rfl⟩, Connective.operand_ends_at hsome,
        by dsimp only; omega, rfl, rfl⟩
    · exact run_many_cons.mpr ⟨(), skipBlanks input₂, mid, by simp [Opener.keyword, hsome], hnext,
        hlater⟩
    · rw [Term.combineChain, hcombine]
    · intro t ht
      rcases List.mem_cons.mp ht with rfl | ht
      · rfl
      · exact hall t ht

theorem chain_accepts (h : term.Accepts c.operand limit) :
    (chain c.keyword c.combine term).Accepts (.chain c) limit := by
  intro input t ahead
  simp only [chain, run_bind_ok, run_of_except_ok]
  constructor
  · rintro ⟨first, mid, hfirst, later, _, hlater, hchain, rfl⟩
    obtain ⟨hderives, hends, hall⟩ := derives_chain h hfirst hlater
    obtain ⟨hfilter, hmeasured, hstart, hdeep⟩ :=
      (Term.chain_ok c.combine_depth hall).mp hchain
    obtain ⟨_, _, _, _, hfirst⟩ := (h _ _ _).mp hfirst
    exact ⟨hfilter ▸ hderives, hends, hdeep, hmeasured, hstart.trans hfirst⟩
  · rintro ⟨⟨rest, opened, hderives, hopened, rfl⟩, hends, hdeep, hmeasured, hstart⟩
    obtain ⟨first, later, mid, hfirst, hlater, hcombine, hall, hfirststart⟩ :=
      run_derived_chain h hderives hopened hdeep hends
    exact ⟨first, mid, hfirst, later, _, hlater, (Term.chain_ok c.combine_depth hall).mpr
      ⟨hcombine.symm, hmeasured, hstart.trans hfirststart.symm, hdeep⟩, rfl⟩

end

/-- The reader of filters in which some number of parentheses may be open at once. -/
theorem nested_accepts (limit : Nat) : (nested limit).Accepts (.chain .or) limit := by
  induction limit with
  | zero =>
    exact chain_accepts (c := .or) (chain_accepts (c := .and) (atom_accepts group_accepts_none))
  | succ limit ih =>
    exact chain_accepts (c := .or)
      (chain_accepts (c := .and) (atom_accepts (group_accepts_some ih)))

theorem run_filter_ok {input ahead : List Char} {f : Filter} :
    filter.run (skipBlanks input) = .ok (f, ahead) ↔
      (∃ rest opened, Derives (.chain .or) input f opened rest ∧ opened ≤ maxNesting ∧
        ahead = skipBlanks rest) ∧
      (Phrase.chain .or).EndsAt ahead ∧ f.depth ≤ Term.maxDepth := by
  simp only [filter, run_bind_ok, run_pure_ok, Prod.mk.injEq]
  constructor
  · rintro ⟨t, _, ht, rfl, rfl⟩
    obtain ⟨hderives, hends, hdeep, _⟩ := (nested_accepts _ _ _ _).mp ht
    exact ⟨hderives, hends, hdeep⟩
  · rintro ⟨hderives, hends, hdeep⟩
    exact ⟨⟨f, f.depth, skipBlanks input⟩, ahead,
      (nested_accepts _ _ _ _).mpr ⟨hderives, hends, hdeep, rfl, rfl⟩, rfl, rfl⟩

end Reader

namespace Filter

variable {text : String} {f : Filter}

theorem derived_from_of_parse (h : Filter.parse text = .ok f) :
    ∃ opened, f.DerivedFrom text opened ∧ opened ≤ 64 ∧ f.depth ≤ 512 := by
  obtain ⟨_, hrun, hend⟩ := Reader.parse_ok.mp h
  obtain ⟨⟨rest, opened, hderives, hopened, rfl⟩, _, hdeep⟩ := Reader.run_filter_ok.mp hrun
  rw [skip_blanks_skip_blanks, skip_blanks_eq_nil] at hend
  exact ⟨opened, ⟨rest, hderives, hend⟩, hopened, hdeep⟩

theorem parse_of_derived_from {opened : Nat} (h : f.DerivedFrom text opened) (hopened : opened ≤ 64)
    (hdeep : f.depth ≤ 512) : Filter.parse text = .ok f := by
  obtain ⟨rest, hderives, hblanks⟩ := h
  have hnil : skipBlanks rest = [] := skip_blanks_eq_nil.mpr hblanks
  have hends : (Phrase.chain .or).EndsAt (skipBlanks rest) := by
    rw [hnil]
    exact ⟨rfl, rfl⟩
  apply Reader.parse_ok.mpr
  exact ⟨skipBlanks rest,
    Reader.run_filter_ok.mpr ⟨⟨rest, opened, hderives, hopened, rfl⟩, hends, hdeep⟩,
    by rw [hnil]; rfl⟩

/-- A text is accepted as a filter if and only if it has a derivation of that filter that opens no
more than 64 parentheses at once, and the filter is no deeper than 512. -/
theorem parse_eq_ok_iff_derived (text : String) (f : Filter) :
    Filter.parse text = .ok f ↔
      ∃ opened, f.DerivedFrom text opened ∧ opened ≤ 64 ∧ f.depth ≤ 512 := by
  constructor
  · exact derived_from_of_parse
  · rintro ⟨opened, hderived, hopened, hdeep⟩
    exact parse_of_derived_from hderived hopened hdeep

end Filter
end RelationalQuery
