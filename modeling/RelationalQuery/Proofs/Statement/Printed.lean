import RelationalQuery.Proofs.Statement.Grammar

/-!
# Reading a printed filter

A printed filter has a pair of parentheses for each connective, so as many are open at once as
there are connectives above a condition. It is read back if the reader may open that many, and
otherwise it is refused for its nesting and for nothing else.
-/

set_option autoImplicit false

namespace RelationalQuery

def Condition.WellFormed (c : Condition) : Prop :=
  IsWord endsOperand c.left ∧ IsWord endsOperand c.operator ∧ IsWord endsOperand c.right

instance (c : Condition) : Decidable c.WellFormed :=
  inferInstanceAs (Decidable (_ ∧ _ ∧ _))

namespace Filter

def nesting : Filter → Nat
  | condition _ => 0
  | and left right => max left.nesting right.nesting + 1
  | or left right => max left.nesting right.nesting + 1

def WellFormed : Filter → Prop
  | condition content => content.WellFormed
  | and left right => left.WellFormed ∧ right.WellFormed
  | or left right => left.WellFormed ∧ right.WellFormed

theorem depth_eq_nesting (f : Filter) : f.depth = f.nesting + 1 := by
  induction f with
  | condition => rfl
  | and left right ihl ihr => simp only [depth, nesting, ihl, ihr]; omega
  | or left right ihl ihr => simp only [depth, nesting, ihl, ihr]; omega

end Filter

namespace Reader

variable {α β : Type} {p q : Prop} {input mid rest : List Char}

def TakesIf (p : Prop) (r : Reader α) (input : List Char) (value : α) (rest : List Char) : Prop :=
  (p → r.run input = .ok (value, rest)) ∧
    (¬ p → ∃ ahead, r.run input = .error ⟨ahead, .tooDeep maxNesting⟩)

namespace TakesIf

theorem of_ok {r : Reader α} {value : α} (h : r.run input = .ok (value, rest)) :
    TakesIf True r input value rest :=
  ⟨fun _ => h, fun hn => absurd trivial hn⟩

theorem congr {r : Reader α} {value : α} (h : TakesIf p r input value rest) (hpq : p ↔ q) :
    TakesIf q r input value rest :=
  ⟨fun hq => h.1 (hpq.mpr hq), fun hq => h.2 fun hp => hq (hpq.mp hp)⟩

theorem bind {first : Reader α} {next : α → Reader β} {value : α} {result : β}
    (hfirst : TakesIf p first input value mid)
    (hnext : p → TakesIf q (next value) mid result rest) :
    TakesIf (p ∧ q) (first >>= next) input result rest := by
  constructor
  · rintro ⟨hp, hq⟩
    rw [run_bind_of_ok (hfirst.1 hp)]
    exact (hnext hp).1 hq
  · intro hn
    by_cases hp : p
    · rw [run_bind_of_ok (hfirst.1 hp)]
      exact (hnext hp).2 fun hq => hn ⟨hp, hq⟩
    · obtain ⟨ahead, herror⟩ := hfirst.2 hp
      exact ⟨ahead, run_bind_error herror⟩

theorem after {first : Reader α} {next : α → Reader β} {value : α} {result : β}
    (hfirst : first.run input = .ok (value, mid)) (hnext : TakesIf p (next value) mid result rest) :
    TakesIf p (first >>= next) input result rest :=
  ((of_ok hfirst).bind fun _ => hnext).congr (⟨And.right, fun hp => ⟨trivial, hp⟩⟩)

theorem map {r : Reader α} {value : α} (h : TakesIf p r input value rest) (f : α → β) :
    TakesIf p (do let value ← r; return f value) input (f value) rest := by
  have hpure : TakesIf True (pure (f value) : Reader β) rest (f value) rest :=
    of_ok (run_pure_ok.mpr rfl)
  exact (h.bind fun _ => hpure).congr (iff_of_eq (and_true p))

theorem many_cons {opener : Opener α} {part : α → Reader β} {kind : α} {inside : List Char}
    {value : β} {values : List β} (hopen : opener.after? input = some (kind, inside))
    (hpart : TakesIf p (part kind) inside value mid)
    (hmany : TakesIf q (many opener part) mid values rest) :
    TakesIf (p ∧ q) (many opener part) input (value :: values) rest := by
  have hround : TakesIf (p ∧ q) (do
      let value ← part kind
      let values ← many opener part
      return value :: values) inside (value :: values) rest :=
    hpart.bind fun _ => hmany.map (value :: ·)
  simpa only [TakesIf, run_many_open hopen] using hround

theorem optional_some {opener : Opener α} {part : α → Reader β} {kind : α} {inside : List Char}
    {value : β} (hopen : opener.after? input = some (kind, inside))
    (hpart : TakesIf p (part kind) inside value rest) :
    TakesIf p (optional opener part) input (some value) rest := by
  simpa only [TakesIf, run_optional_open hopen] using hpart.map some

end TakesIf

def groups : Nat → Option (Reader Term)
  | 0 => none
  | more + 1 => some (nested more)

theorem nested_eq (limit : Nat) :
    nested limit = chain .or .or (chain .and .and (atom (groups limit))) := by
  cases limit <;> rfl

def termOf (f : Filter) (start : List Char) : Term := ⟨f, f.depth, start⟩

section
variable {c : Connective} {term : Reader Term} {f g : Filter} {inside start start' : List Char}

theorem chain_one (hf : TakesIf p term input (termOf f start) rest)
    (hend : c.keyword.after? rest = none) (hdeep : p → f.depth ≤ Term.maxDepth) :
    TakesIf p (chain c.keyword c.combine term) input (termOf f start) rest := by
  have hmany : (many (Opener.keyword c.keyword ()) fun _ => term).run rest = .ok ([], rest) :=
    run_many_absent (by simp [Opener.keyword, hend])
  have hchain (hp : p) : Term.chain c.combine (termOf f start) [] = .ok (termOf f start) :=
    (Term.chain_ok c.combine_depth (by simp [Term.Measured, termOf])).mpr
      ⟨rfl, rfl, rfl, hdeep hp⟩
  refine (hf.bind fun hp => TakesIf.after hmany ?_).congr (iff_of_eq (and_true p))
  exact .of_ok (run_of_except_ok.mpr ⟨hchain hp, rfl⟩)

theorem chain_two (hf : TakesIf p term input (termOf f start) mid)
    (hopen : c.keyword.after? mid = some inside)
    (hg : TakesIf q term inside (termOf g start') rest) (hend : c.keyword.after? rest = none)
    (hdeep : p → q → (c.combine f g).depth ≤ Term.maxDepth) :
    TakesIf (p ∧ q) (chain c.keyword c.combine term) input (termOf (c.combine f g) start) rest := by
  have hnil : TakesIf True (many (Opener.keyword c.keyword ()) fun _ => term) rest [] rest :=
    .of_ok (run_many_absent (by simp [Opener.keyword, hend]))
  have hopener : (Opener.keyword c.keyword ()).after? mid = some ((), inside) := by
    simp [Opener.keyword, hopen]
  have hmany : TakesIf q (many (Opener.keyword c.keyword ()) fun _ => term) mid
      [termOf g start'] rest :=
    (TakesIf.many_cons hopener hg hnil).congr (iff_of_eq (and_true q))
  have hchain (hp : p) (hq : q) : Term.chain c.combine (termOf f start) [termOf g start'] =
      .ok (termOf (c.combine f g) start) :=
    (Term.chain_ok c.combine_depth (by simp [Term.Measured, termOf])).mpr
      ⟨rfl, rfl, rfl, hdeep hp hq⟩
  refine hf.bind fun hp => (hmany.bind fun hq => ?_).congr (iff_of_eq (and_true q))
  exact .of_ok (run_of_except_ok.mpr ⟨hchain hp hq, rfl⟩)

end

theorem skip_blanks_space (s : List Char) : skipBlanks (' ' :: s) = skipBlanks s := rfl

theorem display_condition (c : Condition) (rest : List Char) :
    (Filter.condition c).display.toList ++ rest =
      c.left.toList ++ ' ' :: (c.operator.toList ++ ' ' :: (c.right.toList ++ rest)) := by
  simp [Filter.display, Condition.display]

def joined (c : Connective) (f g : Filter) (rest : List Char) : List Char :=
  f.display.toList ++
    ' ' :: (c.keyword.spelling.toList ++ ' ' :: (g.display.toList ++ ')' :: rest))

theorem display_combine (c : Connective) (f g : Filter) (rest : List Char) :
    (c.combine f g).display.toList ++ rest = '(' :: joined c f g rest := by
  cases c <;>
    simp [Connective.combine, Connective.keyword, Keyword.spelling, Filter.display, joined]

theorem skip_blanks_display {f : Filter} (hf : f.WellFormed) (rest : List Char) :
    skipBlanks (f.display.toList ++ rest) = f.display.toList ++ rest := by
  cases f with
  | condition c =>
    rw [display_condition]
    exact skip_blanks_word (fun _ => ends_operand_of_is_blank) hf.1 _
  | and f g =>
    rw [show f.and g = Connective.and.combine f g from rfl, display_combine]
    exact skip_blanks_cons (by decide) _
  | or f g =>
    rw [show f.or g = Connective.or.combine f g from rfl, display_combine]
    exact skip_blanks_cons (by decide) _

theorem derives_display {c : Condition} (hc : c.WellFormed) (hrest : StopsAt endsOperand rest) :
    Derives .atom ((Filter.condition c).display.toList ++ rest) (.condition c) 0 rest := by
  obtain ⟨hleft, hoperator, hright⟩ := hc
  rw [display_condition]
  exact .condition ⟨[], blanks_nil, rfl, hleft, stops_at_cons.mpr (by decide)⟩
    ⟨[' '], blanks_space, rfl, hoperator, stops_at_cons.mpr (by decide)⟩
    ⟨[' '], blanks_space, rfl, hright, hrest⟩

def TakesPrinted (f : Filter) : Prop :=
  ∀ limit ≤ maxNesting, ∀ rest, StopsAt endsOperand rest →
    TakesIf (f.nesting ≤ limit) (atom (groups limit)) (f.display.toList ++ rest)
      (termOf f (f.display.toList ++ rest)) (skipBlanks rest)

theorem takes_printed_condition {c : Condition} (hc : c.WellFormed) :
    TakesPrinted (.condition c) := by
  intro limit _ rest hrest
  have hderives := derives_display hc hrest
  have hstart := skip_blanks_display (f := .condition c) hc rest
  have habsent := symbol_condition hderives
  have hrun := run_condition_ok.mpr ⟨rest, hderives, rfl⟩
  rw [hstart] at habsent hrun
  have hatom : (atom (groups limit)).run ((Filter.condition c).display.toList ++ rest) =
      .ok (termOf (.condition c) ((Filter.condition c).display.toList ++ rest),
        skipBlanks rest) := by
    rw [run_atom_absent habsent, run_bind_of_ok hrun]
    rfl
  exact (TakesIf.of_ok hatom).congr (by simp [Filter.nesting])

theorem nesting_combine (c : Connective) (f g : Filter) :
    (c.combine f g).nesting = max f.nesting g.nesting + 1 := by
  cases c <;> rfl

section
variable {f g : Filter} (hf : TakesPrinted f) (hg : TakesPrinted g) (hwf : g.WellFormed)
include hf hg hwf

theorem nested_joined (c : Connective) {limit : Nat} (hlimit : limit < maxNesting)
    (rest : List Char) :
    TakesIf (f.nesting ≤ limit ∧ g.nesting ≤ limit) (nested limit) (joined c f g rest)
      (termOf (c.combine f g) (joined c f g rest)) (')' :: rest) := by
  have hleft := hf limit hlimit.le
    (' ' :: (c.keyword.spelling.toList ++ ' ' :: (g.display.toList ++ ')' :: rest)))
    (stops_at_cons.mpr (by decide))
  have hright := hg limit hlimit.le (')' :: rest) (stops_at_cons.mpr (by decide))
  rw [skip_blanks_cons (c := ')') (by decide)] at hright
  have hboundary : StopsAt isBoundary (' ' :: (g.display.toList ++ ')' :: rest)) :=
    stops_at_cons.mpr (by decide)
  have hkeyword := c.keyword.after?_spelling blanks_space hboundary
  rw [skip_blanks_space, skip_blanks_display hwf] at hkeyword
  have hlimits : maxNesting + 2 ≤ Term.maxDepth := by decide
  have hdeep {h : Filter} (hh : h.nesting ≤ limit) : h.depth ≤ Term.maxDepth := by
    rw [h.depth_eq_nesting]
    omega
  have hdeeper (hp : f.nesting ≤ limit) (hq : g.nesting ≤ limit) :
      (c.combine f g).depth ≤ Term.maxDepth := by
    rw [Filter.depth_eq_nesting, nesting_combine]
    omega
  rw [nested_eq]
  cases c with
  | and =>
    exact chain_one (c := .or) (chain_two (c := .and) hleft hkeyword hright rfl hdeeper) rfl
      fun h => hdeeper h.1 h.2
  | or =>
    have hnone := Connective.operand_ends_at (c := .or) hkeyword
    exact chain_two (c := .or) (chain_one (c := .and) hleft hnone hdeep) hkeyword
      (chain_one (c := .and) hright rfl hdeep) rfl hdeeper

theorem takes_printed_combine (c : Connective) (hwf' : f.WellFormed) :
    TakesPrinted (c.combine f g) := by
  intro limit hlimit rest _
  have hopen : (Opener.symbol '(').after? ('(' :: joined c f g rest) =
      some ((), joined c f g rest) := by
    simp [Opener.symbol, joined, skip_blanks_display hwf']
  rw [display_combine, nesting_combine]
  cases limit with
  | zero =>
    constructor
    · intro h
      omega
    · intro _
      exact ⟨'(' :: joined c f g rest, run_atom_open hopen⟩
  | succ limit =>
    have hless : limit < maxNesting := by omega
    have hinside := nested_joined hf hg hwf c hless rest
    have hclose : (opening (Opener.symbol ')') .closing).run (')' :: rest) =
        .ok ((), skipBlanks rest) := rfl
    have hgroup : TakesIf (f.nesting ≤ limit ∧ g.nesting ≤ limit)
        (group ('(' :: joined c f g rest) (groups (limit + 1))) (joined c f g rest)
        (termOf (c.combine f g) ('(' :: joined c f g rest)) (skipBlanks rest) :=
      (hinside.bind fun _ => (TakesIf.of_ok hclose).map fun _ =>
        termOf (c.combine f g) ('(' :: joined c f g rest)).congr (iff_of_eq (and_true _))
    have hatom : TakesIf (f.nesting ≤ limit ∧ g.nesting ≤ limit) (atom (groups (limit + 1)))
        ('(' :: joined c f g rest) (termOf (c.combine f g) ('(' :: joined c f g rest))
        (skipBlanks rest) := by
      simpa only [TakesIf, run_atom_open hopen] using hgroup
    exact hatom.congr (by omega)

end

/-- A printed filter is taken as an atom, if its parentheses may be opened. -/
theorem takes_printed {f : Filter} (hf : f.WellFormed) : TakesPrinted f := by
  induction f with
  | condition c => exact takes_printed_condition hf
  | and f g ihf ihg => exact takes_printed_combine (ihf hf.1) (ihg hf.2) hf.2 .and hf.1
  | or f g ihf ihg => exact takes_printed_combine (ihf hf.1) (ihg hf.2) hf.2 .or hf.1

/-- A printed filter is read back where no connective follows it. -/
theorem filter_display {f : Filter} (hf : f.WellFormed) (hrest : StopsAt endsOperand rest)
    (hend : (Phrase.chain .or).EndsAt (skipBlanks rest)) :
    TakesIf (f.nesting ≤ 64) filter (f.display.toList ++ rest) f (skipBlanks rest) := by
  have hatom := takes_printed hf maxNesting (le_refl _) rest hrest
  have hdeep (h : f.nesting ≤ maxNesting) : f.depth ≤ Term.maxDepth := by
    have hlimits : maxNesting + 1 ≤ Term.maxDepth := by decide
    rw [f.depth_eq_nesting]
    omega
  have hnested : TakesIf (f.nesting ≤ maxNesting) (nested maxNesting) (f.display.toList ++ rest)
      (termOf f (f.display.toList ++ rest)) (skipBlanks rest) := by
    rw [nested_eq]
    exact chain_one (c := .or) (chain_one (c := .and) hatom hend.1 hdeep) hend.2 hdeep
  exact hnested.map Term.filter

end Reader
end RelationalQuery
