import RelationalQuery.Proofs.Statement.Faults
import RelationalQuery.Proofs.Statement.Portable

/-!
# What a reader looks at

A reader decides what to do at a place by the characters up to the next boundary. So when it stops,
or finds something missing, no text that is the same up to there and on to the next boundary lets it
go on differently. The values that are read play no part in this, and are not compared.
-/

set_option autoImplicit false

namespace RelationalQuery

inductive AgreeToBoundary : List Char → List Char → Prop
  | boundary {c : Char} {later later' : List Char} :
      isBoundary c = true → AgreeToBoundary (c :: later) (c :: later')
  | cons {c : Char} {rest rest' : List Char} :
      AgreeToBoundary rest rest' → AgreeToBoundary (c :: rest) (c :: rest')

def Tidy (input : List Char) : Prop := skipBlanks input = input

theorem tidy_skip_blanks (input : List Char) : Tidy (skipBlanks input) :=
  skip_blanks_skip_blanks input

theorem tidy_cons {c : Char} {rest : List Char} : Tidy (c :: rest) ↔ isBlank c = false := by
  constructor
  · intro h
    cases hc : isBlank c with
    | false => rfl
    | true =>
      have hlength := congrArg List.length h
      have hsuffix := (skip_blanks_suffix rest).length_le
      simp only [skipBlanks, List.dropWhile_cons, hc, if_true, List.length_cons] at hlength hsuffix
      omega
  · exact fun hc => skip_blanks_cons hc rest

namespace AgreeToBoundary

variable {rest rest' : List Char}

theorem exists_cons (h : AgreeToBoundary rest rest') :
    ∃ c later later', rest = c :: later ∧ rest' = c :: later' := by
  cases h <;> exact ⟨_, _, _, rfl, rfl⟩

theorem append_left (h : AgreeToBoundary rest rest') (read : List Char) :
    AgreeToBoundary (read ++ rest) (read ++ rest') := by
  induction read with
  | nil => exact h
  | cons c read ih => exact .cons ih

theorem word {c : Char} (hc : isBoundary c = true) (w later later' : List Char) :
    AgreeToBoundary (w ++ c :: later) (w ++ c :: later') :=
  (boundary hc).append_left w

theorem tidy (h : AgreeToBoundary rest rest') (htidy : Tidy rest) : Tidy rest' := by
  obtain ⟨c, later, later', rfl, rfl⟩ := h.exists_cons
  exact tidy_cons.mpr (tidy_cons.mp htidy)

theorem ends_alike (h : AgreeToBoundary rest rest') : EndsAlike rest rest' := by
  obtain ⟨c, later, later', rfl, rfl⟩ := h.exists_cons
  exact fun _ _ hstops => stops_at_cons.mpr (stops_at_cons.mp hstops)

end AgreeToBoundary

/-- A part that was read up to a place is read up to the same place when the text differs only
later. -/
theorem Portable.reread {Part : List Char → List Char → Prop} (hpart : Portable Part)
    {read rest rest' after : List Char} (h : Part (read ++ rest) after)
    (hafter : rest = skipBlanks after) (hagree : AgreeToBoundary rest rest') :
    ∃ after', Part (read ++ rest') after' ∧ rest' = skipBlanks after' := by
  obtain ⟨blanks, hblanks, hsplit⟩ := exists_blanks after
  rw [← hafter] at hsplit
  subst hsplit
  have htidy : Tidy rest' := hagree.tidy (hafter ▸ tidy_skip_blanks _)
  obtain ⟨read', hinput, hmoved⟩ := hpart _ _ h
  rw [← List.append_assoc] at hinput
  obtain rfl := List.append_cancel_right hinput
  refine ⟨blanks ++ rest', ?_, ?_⟩
  · rw [List.append_assoc]
    exact hmoved _ (hagree.append_left blanks).ends_alike
  · rw [skip_blanks_append hblanks, htidy]

theorem exists_split {read rest mid : List Char} (hmid : mid <:+ read ++ rest)
    (hrest : rest <:+ mid) : ∃ before inside, read = before ++ inside ∧ mid = inside ++ rest := by
  obtain ⟨inside, rfl⟩ := hrest
  obtain ⟨before, hsplit⟩ := hmid
  rw [← List.append_assoc] at hsplit
  exact ⟨before, inside, (List.append_cancel_right hsplit).symm, rfl⟩

namespace Keyword

theorem to_lower_boundary {c : Char} (h : isBoundary c = true) : c.toLower = c := by
  simp only [isBoundary, isBlank, isParenthesis, Bool.or_eq_true, decide_eq_true_eq] at h
  rcases h with (((((rfl | rfl) | rfl) | rfl) | rfl | rfl) | rfl) <;> rfl

theorem after_letters?_agree {letters input input' : List Char}
    (hletters : ∀ c ∈ letters, isBoundary c = false) (h : AgreeToBoundary input input') :
    (afterLetters? letters input = none ∧ afterLetters? letters input' = none) ∨
      ∃ rest rest', afterLetters? letters input = some rest ∧
        afterLetters? letters input' = some rest' ∧ AgreeToBoundary rest rest' := by
  induction h generalizing letters with
  | @boundary c later later' hc =>
    cases letters with
    | nil => exact .inr ⟨_, _, rfl, rfl, .boundary hc⟩
    | cons letter letters =>
      have hne : c.toLower ≠ letter := by
        rintro rfl
        have hletter := hletters _ List.mem_cons_self
        rw [to_lower_boundary hc, hc] at hletter
        cases hletter
      exact .inl ⟨by simp [afterLetters?, hne], by simp [afterLetters?, hne]⟩
  | @cons c rest rest' h ih =>
    cases letters with
    | nil => exact .inr ⟨_, _, rfl, rfl, .cons h⟩
    | cons letter letters =>
      simp only [afterLetters?]
      by_cases hc : c.toLower = letter
      · rw [if_pos hc, if_pos hc]
        exact ih fun d hd => hletters d (List.mem_cons_of_mem _ hd)
      · rw [if_neg hc, if_neg hc]
        exact .inl ⟨rfl, rfl⟩

theorem after?_agree {k : Keyword} {input input' : List Char} (h : AgreeToBoundary input input')
    (hnone : k.after? input = none) : k.after? input' = none := by
  have hletters : ∀ c ∈ k.spelling.toList, isBoundary c = false := by
    cases k <;> simp [spelling, isBoundary, isBlank, isParenthesis]
  rcases after_letters?_agree hletters h with ⟨_, hafter'⟩ | ⟨rest, rest', hafter, hafter', hagree⟩
  · simp [after?, hafter']
  · obtain ⟨c, later, later', rfl, rfl⟩ := hagree.exists_cons
    simp only [after?, hafter, ite_eq_right_iff, reduceCtorEq] at hnone
    simp only [after?, hafter', ite_eq_right_iff, reduceCtorEq]
    exact hnone

end Keyword

namespace Opener

variable {α : Type}

structure Takes (opener : Opener α) (Part : α → List Char → List Char → Prop) : Prop where
  portable : ∀ kind, Portable (Part kind)
  after?_iff : ∀ {kind : α} {input ahead : List Char},
    opener.after? (skipBlanks input) = some (kind, ahead) ↔
      ∃ rest, Part kind input rest ∧ ahead = skipBlanks rest
  none : ∀ {input input' : List Char}, AgreeToBoundary input input' →
    opener.after? input = none → opener.after? input' = none

theorem keyword_takes (k : Keyword) (value : α) :
    (keyword k value).Takes fun found input rest => KeywordAt k input rest ∧ found = value where
  portable _ := .and_const (.keyword k)
  after?_iff {found input ahead} := by
    simp only [keyword, Option.map_eq_some_iff, Keyword.after?_eq_some, Prod.mk.injEq]
    constructor
    · rintro ⟨_, ⟨rest, hkeyword, rfl⟩, rfl, rfl⟩
      exact ⟨rest, ⟨hkeyword, rfl⟩, rfl⟩
    · rintro ⟨rest, ⟨hkeyword, rfl⟩, rfl⟩
      exact ⟨_, ⟨rest, hkeyword, rfl⟩, rfl, rfl⟩
  none h hnone := by
    simp only [keyword, Option.map_eq_none_iff] at hnone ⊢
    exact Keyword.after?_agree h hnone

theorem symbol_takes {c : Char} (hc : isBlank c = false) :
    (symbol c).Takes fun _ => SymbolAt c where
  portable _ := .symbol c
  after?_iff := symbol_eq_some hc
  none h hnone := by
    obtain ⟨d, later, later', rfl, rfl⟩ := h.exists_cons
    simp only [symbol, ite_eq_right_iff, reduceCtorEq] at hnone ⊢
    exact hnone

theorem join_kind_takes : joinKind.Takes fun kind => KeywordAt kind.firstWord where
  portable kind := .keyword kind.firstWord
  after?_iff := Reader.join_kind_eq_some.trans Keyword.after?_eq_some
  none {input input'} h hnone := by
    cases hfound : joinKind.after? input' with
    | none => rfl
    | some found =>
      obtain ⟨kind, inside⟩ := found
      have hword : kind.firstWord.after? input = none := by
        cases hafter : kind.firstWord.after? input with
        | none => rfl
        | some after => cases (Reader.join_kind_of_first_word hafter).symm.trans hnone
      cases (Reader.join_kind_eq_some.mp hfound).symm.trans (Keyword.after?_agree h hword)

namespace Takes

variable {opener : Opener α} {Part : α → List Char → List Char → Prop}

theorem tidy (h : opener.Takes Part) {kind : α} {input ahead : List Char} (hinput : Tidy input)
    (hopen : opener.after? input = some (kind, ahead)) : Tidy ahead := by
  rw [← hinput] at hopen
  obtain ⟨rest, _, rfl⟩ := h.after?_iff.mp hopen
  exact tidy_skip_blanks rest

theorem reopen (h : opener.Takes Part) {kind : α} {read rest rest' inside : List Char}
    (hinput : Tidy (read ++ rest)) (hopen : opener.after? (read ++ rest) = some (kind, inside))
    (hrest : rest <:+ inside) (hagree : AgreeToBoundary rest rest') :
    ∃ within, inside = within ++ rest ∧
      opener.after? (read ++ rest') = some (kind, within ++ rest') := by
  obtain ⟨before, within, rfl, rfl⟩ := exists_split (opener.shorter hopen).1 hrest
  have hlater := hagree.append_left within
  rw [List.append_assoc] at hinput hopen ⊢
  rw [← hinput] at hopen
  obtain ⟨after, hpart, hafter⟩ := h.after?_iff.mp hopen
  obtain ⟨after', hpart', hafter'⟩ := (h.portable kind).reread hpart hafter hlater
  refine ⟨within, rfl, ?_⟩
  rw [← (hlater.append_left before).tidy hinput]
  exact h.after?_iff.mpr ⟨after', hpart', hafter'⟩

end Takes
end Opener

namespace Reader

variable {α β γ : Type}

theorem run_word_error {expectation : Expectation} {ends : Char → Bool} {input : List Char}
    {fault : Fault} (h : (word expectation ends).run input = .error fault) :
    fault.ahead = input ∧ StopsAt ends input := by
  simp only [word] at h
  split at h
  · rename_i hnil
    cases h
    refine ⟨rfl, ?_⟩
    cases input with
    | nil => exact stops_at_nil ends
    | cons c rest => simpa using List.takeWhile_eq_nil_iff.mp hnil
  · cases h

/-- What the first reader does is settled for the second one by the text up to the next boundary.
Where the first one stops, the second one stops, if it does not fail; where the first one finds
something missing, the second one fails. -/
structure Settles (r s : Reader α) : Prop where
  tidy : ∀ {input rest : List Char} {value : α}, Tidy input →
    r.run input = .ok (value, rest) → Tidy rest
  place : ∀ {input ahead : List Char} {e : Expectation}, Tidy input →
    r.run input = .error ⟨ahead, .missing e⟩ → Tidy ahead ∧ ahead <:+ input
  stops : ∀ {read rest rest' stop : List Char} {value value' : α}, Tidy (read ++ rest) →
    r.run (read ++ rest) = .ok (value, rest) → AgreeToBoundary rest rest' →
    s.run (read ++ rest') = .ok (value', stop) → stop = rest'
  fails : ∀ {read ahead ahead' : List Char} {e : Expectation} {result : α × List Char},
    Tidy (read ++ ahead) → r.run (read ++ ahead) = .error ⟨ahead, .missing e⟩ →
    AgreeToBoundary ahead ahead' → s.run (read ++ ahead') ≠ .ok result

namespace Settles

theorem restop {r s : Reader α} (h : Settles r s) {read rest rest' mid mid' : List Char}
    {value value' : α} (hinput : Tidy (read ++ rest))
    (hrun : r.run (read ++ rest) = .ok (value, mid)) (hrest : rest <:+ mid)
    (hagree : AgreeToBoundary rest rest') (hrun' : s.run (read ++ rest') = .ok (value', mid')) :
    ∃ inside, mid = inside ++ rest ∧ mid' = inside ++ rest' := by
  obtain ⟨before, inside, rfl, rfl⟩ := exists_split (r.suffix hrun) hrest
  rw [List.append_assoc] at hinput hrun hrun'
  exact ⟨inside, rfl, h.stops hinput hrun (hagree.append_left inside) hrun'⟩

theorem of_except (result result' : Except Fault α)
    (h : ∀ ahead e, result ≠ .error ⟨ahead, .missing e⟩) :
    Settles (Reader.ofExcept result) (Reader.ofExcept result') where
  tidy hinput hrun := (run_of_except_ok.mp hrun).2 ▸ hinput
  place {input ahead e} _ hrun := by
    cases result with
    | ok value => cases hrun
    | error fault =>
      cases hrun
      exact absurd rfl (h ahead e)
  stops _ hrun _ hrun' := by
    obtain rfl := List.self_eq_append_left.mp (run_of_except_ok.mp hrun).2
    exact (run_of_except_ok.mp hrun').2
  fails {read ahead _ e _} _ hrun := by
    cases result with
    | ok value => cases hrun
    | error fault =>
      cases hrun
      exact absurd rfl (h ahead e)

theorem pure (value value' : α) :
    Settles (Pure.pure value : Reader α) (Pure.pure value' : Reader α) :=
  of_except (.ok value) (.ok value') (by simp)

theorem bind {first first' : Reader α} {next next' : α → Reader β} (hfirst : Settles first first')
    (hnext : ∀ value value', Settles (next value) (next' value')) :
    Settles (first >>= next) (first' >>= next') where
  tidy hinput hrun := by
    obtain ⟨value, mid, hread, hrun⟩ := run_bind_ok.mp hrun
    exact (hnext value value).tidy (hfirst.tidy hinput hread) hrun
  place hinput hrun := by
    rcases run_bind_error_iff.mp hrun with hrun | ⟨value, mid, hread, hrun⟩
    · exact hfirst.place hinput hrun
    · obtain ⟨htidy, hahead⟩ := (hnext value value).place (hfirst.tidy hinput hread) hrun
      exact ⟨htidy, hahead.trans (first.suffix hread)⟩
  stops {read rest rest' stop _ _} hinput hrun hagree hrun' := by
    obtain ⟨value, mid, hread, hlater⟩ := run_bind_ok.mp hrun
    obtain ⟨value', mid', hread', hlater'⟩ := run_bind_ok.mp hrun'
    obtain ⟨inside, rfl, rfl⟩ :=
      hfirst.restop hinput hread ((next value).suffix hlater) hagree hread'
    exact (hnext value value').stops (hfirst.tidy hinput hread) hlater hagree hlater'
  fails {read ahead ahead' e result} hinput hrun hagree hrun' := by
    obtain ⟨value', mid', hread', hlater'⟩ := run_bind_ok.mp hrun'
    rcases run_bind_error_iff.mp hrun with hfault | ⟨value, mid, hread, hlater⟩
    · exact hfirst.fails hinput hfault hagree hread'
    · have hmid := hfirst.tidy hinput hread
      have hahead := ((hnext value value).place hmid hlater).2
      obtain ⟨inside, rfl, rfl⟩ := hfirst.restop hinput hread hahead hagree hread'
      exact (hnext value value').fails hmid hlater hagree hlater'

theorem word (expectation : Expectation) {ends : Char → Bool}
    (hends : ∀ c, isBlank c = true → ends c = true) :
    Settles (Reader.word expectation ends) (Reader.word expectation ends) where
  tidy hinput hrun := by
    rw [← hinput] at hrun
    obtain ⟨after, _, rfl⟩ := (run_word_ok hends).mp hrun
    exact tidy_skip_blanks after
  place {input ahead e} hinput hrun := by
    obtain rfl : ahead = input := (run_word_error hrun).1
    exact ⟨hinput, List.suffix_rfl⟩
  stops hinput hrun hagree hrun' := by
    rw [← hinput] at hrun
    obtain ⟨after, hword, hafter⟩ := (run_word_ok hends).mp hrun
    obtain ⟨after', hword', hafter'⟩ := (Portable.word hends _).reread hword hafter hagree
    have hreread : (Reader.word expectation ends).run (skipBlanks _) = _ :=
      (run_word_ok hends).mpr ⟨after', hword', hafter'⟩
    rw [(hagree.append_left _).tidy hinput, hrun'] at hreread
    cases hreread
    rfl
  fails {read ahead ahead' e result} hinput hrun hagree hrun' := by
    obtain ⟨hahead, hstops⟩ := run_word_error hrun
    obtain rfl := List.self_eq_append_left.mp hahead
    obtain ⟨c, later, later', rfl, rfl⟩ := hagree.exists_cons
    simp [Reader.word, stops_at_cons.mp hstops] at hrun'

section
variable {opener : Opener γ} {Part : γ → List Char → List Char → Prop}

theorem opening (h : opener.Takes Part) (expectation : Expectation) :
    Settles (Reader.opening opener expectation) (Reader.opening opener expectation) where
  tidy hinput hrun := h.tidy hinput (run_opening_ok.mp hrun)
  place hinput hrun := by
    cases (run_opening_error.mp hrun).2
    exact ⟨hinput, List.suffix_rfl⟩
  stops hinput hrun hagree hrun' := by
    obtain ⟨within, hwithin, hopen⟩ :=
      h.reopen hinput (run_opening_ok.mp hrun) List.suffix_rfl hagree
    obtain rfl := List.self_eq_append_left.mp hwithin
    cases hopen.symm.trans (run_opening_ok.mp hrun')
    rfl
  fails {read ahead ahead' e result} hinput hrun hagree hrun' := by
    obtain ⟨hnone, hfault⟩ := run_opening_error.mp hrun
    have hopen := run_opening_ok.mp hrun'
    rw [h.none (hagree.append_left read) hnone] at hopen
    cases hopen

theorem choice (h : opener.Takes Part) {r : Reader α} (opened : List Char → γ → Reader α)
    (absent : List Char → Reader α)
    (hopen : ∀ {input kind inside}, opener.after? input = some (kind, inside) →
      r.run input = (opened input kind).run inside)
    (hnone : ∀ {input}, opener.after? input = none → r.run input = (absent input).run input)
    (hopened : ∀ input input' kind, Settles (opened input kind) (opened input' kind))
    (habsent : ∀ input input', Settles (absent input) (absent input')) : Settles r r where
  tidy {input rest value} hinput hrun := by
    cases hafter : opener.after? input with
    | none =>
      rw [hnone hafter] at hrun
      exact (habsent input input).tidy hinput hrun
    | some found =>
      obtain ⟨kind, inside⟩ := found
      rw [hopen hafter] at hrun
      exact (hopened input input kind).tidy (h.tidy hinput hafter) hrun
  place {input ahead e} hinput hrun := by
    cases hafter : opener.after? input with
    | none =>
      rw [hnone hafter] at hrun
      exact (habsent input input).place hinput hrun
    | some found =>
      obtain ⟨kind, inside⟩ := found
      rw [hopen hafter] at hrun
      obtain ⟨htidy, hahead⟩ := (hopened input input kind).place (h.tidy hinput hafter) hrun
      exact ⟨htidy, hahead.trans (opener.shorter hafter).1⟩
  stops {read rest rest' stop value value'} hinput hrun hagree hrun' := by
    cases hafter : opener.after? (read ++ rest) with
    | none =>
      rw [hnone hafter] at hrun
      rw [hnone (h.none (hagree.append_left read) hafter)] at hrun'
      exact (habsent _ _).stops hinput hrun hagree hrun'
    | some found =>
      obtain ⟨kind, inside⟩ := found
      have hinside := h.tidy hinput hafter
      rw [hopen hafter] at hrun
      obtain ⟨within, rfl, hafter'⟩ :=
        h.reopen hinput hafter ((opened _ kind).suffix hrun) hagree
      rw [hopen hafter'] at hrun'
      exact (hopened _ _ kind).stops hinside hrun hagree hrun'
  fails {read ahead ahead' e result} hinput hrun hagree hrun' := by
    cases hafter : opener.after? (read ++ ahead) with
    | none =>
      rw [hnone hafter] at hrun
      rw [hnone (h.none (hagree.append_left read) hafter)] at hrun'
      exact (habsent _ _).fails hinput hrun hagree hrun'
    | some found =>
      obtain ⟨kind, inside⟩ := found
      have hinside := h.tidy hinput hafter
      rw [hopen hafter] at hrun
      have hahead := ((hopened _ (read ++ ahead) kind).place hinside hrun).2
      obtain ⟨within, rfl, hafter'⟩ := h.reopen hinput hafter hahead hagree
      rw [hopen hafter'] at hrun'
      exact (hopened _ _ kind).fails hinside hrun hagree hrun'

theorem optional (h : opener.Takes Part) {part : γ → Reader β}
    (hpart : ∀ kind, Settles (part kind) (part kind)) :
    Settles (Reader.optional opener part) (Reader.optional opener part) :=
  choice h (fun _ kind => do return some (← part kind)) (fun _ => Pure.pure none)
    run_optional_open run_optional_absent
    (fun _ _ kind => bind (hpart kind) fun _ _ => pure _ _) fun _ _ => pure _ _

section
variable {part : γ → Reader β}

theorem tidy_rounds (h : opener.Takes Part) (hpart : ∀ kind, Settles (part kind) (part kind))
    {values : List β} {input mid : List Char}
    (hrounds : Sequence (Round opener part) values input mid)
    (hinput : Tidy input) : Tidy mid ∧ mid <:+ input := by
  induction hrounds with
  | nil => exact ⟨hinput, List.suffix_rfl⟩
  | cons hround _ ih =>
    obtain ⟨kind, inside, hopen, hrun⟩ := hround
    obtain ⟨htidy, hmid⟩ := ih ((hpart kind).tidy (h.tidy hinput hopen) hrun)
    exact ⟨htidy, hmid.trans (((part kind).suffix hrun).trans (opener.shorter hopen).1)⟩

theorem retake_round (h : opener.Takes Part) (hpart : ∀ kind, Settles (part kind) (part kind))
    {read rest rest' next stop : List Char} {value : β} {values' : List β}
    (hinput : Tidy (read ++ rest)) (hround : Round opener part value (read ++ rest) next)
    (hnext : rest <:+ next) (hagree : AgreeToBoundary rest rest')
    (hrun' : (many opener part).run (read ++ rest') = .ok (values', stop)) :
    ∃ mid values'', next = mid ++ rest ∧ Tidy (mid ++ rest) ∧
      (many opener part).run (mid ++ rest') = .ok (values'', stop) := by
  obtain ⟨kind, inside, hopen, hrun⟩ := hround
  have hinside := h.tidy hinput hopen
  have htidy := (hpart kind).tidy hinside hrun
  obtain ⟨within, rfl, hopen'⟩ :=
    h.reopen hinput hopen (hnext.trans ((part kind).suffix hrun)) hagree
  rw [run_many_open hopen'] at hrun'
  obtain ⟨_, next', hpart', hlater⟩ := run_bind_ok.mp hrun'
  obtain ⟨values'', _, hmany, hpure⟩ := run_bind_ok.mp hlater
  cases run_pure_ok.mp hpure
  obtain ⟨mid, rfl, rfl⟩ := (hpart kind).restop hinside hrun hnext hagree hpart'
  exact ⟨mid, values'', rfl, htidy, hmany⟩

/-- The rounds before the one that fails are taken again, and then that one fails again. -/
theorem fails_after_rounds (h : opener.Takes Part) (hpart : ∀ kind, Settles (part kind) (part kind))
    {read ahead ahead' mid inside : List Char} {values : List β} {kind : γ} {e : Expectation}
    {result : List β × List Char} (hinput : Tidy (read ++ ahead))
    (hrounds : Sequence (Round opener part) values (read ++ ahead) mid)
    (hopen : opener.after? mid = some (kind, inside))
    (hfault : (part kind).run inside = .error ⟨ahead, .missing e⟩)
    (hagree : AgreeToBoundary ahead ahead') :
    (many opener part).run (read ++ ahead') ≠ .ok result := by
  intro hrun'
  obtain ⟨values', stop⟩ := result
  induction values generalizing read values' with
  | nil =>
    cases hrounds
    have hinside := h.tidy hinput hopen
    have hahead := ((hpart kind).place hinside hfault).2
    obtain ⟨within, rfl, hopen'⟩ := h.reopen hinput hopen hahead hagree
    rw [run_many_open hopen'] at hrun'
    obtain ⟨_, _, hpart', _⟩ := run_bind_ok.mp hrun'
    exact (hpart kind).fails hinside hfault hagree hpart'
  | cons value values ih =>
    cases hrounds with
    | @cons _ _ _ next _ hround hrounds =>
      have hnext := (tidy_rounds h hpart (.cons hround .nil) hinput).1
      obtain ⟨hmid, hsuffix⟩ := tidy_rounds h hpart hrounds hnext
      have hahead := ((hpart kind).place (h.tidy hmid hopen) hfault).2
      have hwithin : ahead <:+ next := hahead.trans ((opener.shorter hopen).1.trans hsuffix)
      obtain ⟨mid', values'', rfl, _, hmany'⟩ :=
        retake_round h hpart hinput hround hwithin hagree hrun'
      exact ih hnext hrounds values'' hmany'

theorem many (h : opener.Takes Part) (hpart : ∀ kind, Settles (part kind) (part kind)) :
    Settles (Reader.many opener part) (Reader.many opener part) where
  tidy hinput hrun := (tidy_rounds h hpart (run_many_ok_iff.mp hrun).1 hinput).1
  place hinput hrun := by
    obtain ⟨_, mid, kind, inside, hrounds, hopen, hrun⟩ := run_many_error_iff.mp hrun
    obtain ⟨hmid, hsuffix⟩ := tidy_rounds h hpart hrounds hinput
    obtain ⟨htidy, hahead⟩ := (hpart kind).place (h.tidy hmid hopen) hrun
    exact ⟨htidy, hahead.trans ((opener.shorter hopen).1.trans hsuffix)⟩
  stops {read rest rest' stop values values'} hinput hrun hagree hrun' := by
    induction values generalizing read values' with
    | nil =>
      obtain ⟨hnone, hread⟩ := run_many_nil.mp hrun
      obtain rfl := List.self_eq_append_left.mp hread
      cases (run_many_absent (h.none hagree hnone)).symm.trans hrun'
      rfl
    | cons value values ih =>
      obtain ⟨next, hround, hmany⟩ := run_many_round.mp hrun
      obtain ⟨mid, _, rfl, hmid, hmany'⟩ :=
        retake_round h hpart hinput hround ((Reader.many opener part).suffix hmany) hagree hrun'
      exact ih hmid hmany hmany'
  fails hinput hrun hagree hrun' := by
    obtain ⟨_, _, _, _, hrounds, hopen, hfault⟩ := run_many_error_iff.mp hrun
    exact fails_after_rounds h hpart hinput hrounds hopen hfault hagree hrun'

end
end

theorem operand : Settles Reader.operand Reader.operand := word _ fun _ => ends_operand_of_is_blank

theorem condition : Settles Reader.condition Reader.condition :=
  bind operand fun _ _ => bind (word _ fun _ => ends_operand_of_is_blank) fun _ _ =>
    bind operand fun _ _ => pure _ _

theorem keyword (k : Keyword) : Settles (Reader.keyword k) (Reader.keyword k) :=
  opening (Opener.keyword_takes k ()) _

theorem group {inner : Option (Reader Term)} (hinner : ∀ r ∈ inner, Settles r r)
    (start start' : List Char) :
    Settles (Reader.group start inner) (Reader.group start' inner) := by
  cases inner with
  | none =>
    exact of_except (.error ⟨start, .tooDeep maxNesting⟩) (.error ⟨start', .tooDeep maxNesting⟩)
      (by simp)
  | some r =>
    exact bind (hinner r rfl) fun _ _ => bind (opening (Opener.symbol_takes (by decide)) _)
      fun _ _ => pure _ _

theorem atom {inner : Option (Reader Term)} (hinner : ∀ r ∈ inner, Settles r r) :
    Settles (Reader.atom inner) (Reader.atom inner) :=
  choice (Opener.symbol_takes (by decide)) (fun start _ => Reader.group start inner)
    (fun start => do return ⟨.condition (← Reader.condition), 1, start⟩)
    run_atom_open run_atom_absent (fun start start' _ => group hinner start start')
    fun _ _ => bind condition fun _ _ => pure _ _

theorem chain (k : Keyword) (combine : Filter → Filter → Filter) {term : Reader Term}
    (hterm : Settles term term) :
    Settles (Reader.chain k combine term) (Reader.chain k combine term) :=
  bind hterm fun first _ => bind (many (Opener.keyword_takes k ()) fun _ => hterm) fun later _ =>
    of_except _ _ fun ahead e h => by
      obtain ⟨_, _, hfault⟩ := Term.chain_error h
      cases hfault

theorem nested (limit : Nat) : Settles (Reader.nested limit) (Reader.nested limit) := by
  induction limit with
  | zero => exact chain _ _ (chain _ _ (atom (by simp)))
  | succ limit ih => exact chain _ _ (chain _ _ (atom (by simpa using ih)))

theorem filter : Settles Reader.filter Reader.filter := bind (nested _) fun _ _ => pure _ _

theorem name : Settles Reader.name Reader.name := word _ fun _ => ends_name_of_is_blank

theorem names : Settles Reader.names Reader.names :=
  bind name fun _ _ => bind (many (Opener.symbol_takes (by decide)) fun _ => name) fun _ _ =>
    pure _ _

theorem after_keywords {part : Reader α} (hpart : Settles part part) (ks : List Keyword) :
    Settles (Reader.afterKeywords part ks) (Reader.afterKeywords part ks) := by
  induction ks with
  | nil => exact hpart
  | cons k ks ih => exact bind (keyword k) fun _ _ => ih

theorem join_clause (kind : JoinKind) :
    Settles (Reader.joinClause kind) (Reader.joinClause kind) := by
  rw [join_clause_eq]
  exact after_keywords (bind name fun _ _ => bind (keyword _) fun _ _ => bind filter fun _ _ =>
    pure _ _) _

theorem statement : Settles Reader.statement Reader.statement :=
  bind (keyword _) fun _ _ => bind names fun _ _ => bind (keyword _) fun _ _ =>
    bind names fun _ _ => bind (many Opener.join_kind_takes join_clause) fun _ _ =>
      bind (optional (Opener.keyword_takes _ ()) fun _ => filter) fun _ _ => pure _ _

end Settles

def MissingAt (part : Reader α) (before ahead : List Char) : Prop :=
  (∃ e, part.run (skipBlanks (before ++ ahead)) = .error ⟨ahead, .missing e⟩) ∨
    ∃ value rest, part.run (skipBlanks (before ++ ahead)) = .ok (value, rest) ∧
      ahead = skipBlanks rest ∧ ahead ≠ []

variable {part : Reader α}

theorem Settles.place_of_missing_at (h : Settles part part) {before ahead : List Char}
    (hmissing : MissingAt part before ahead) :
    Tidy ahead ∧ ahead <:+ skipBlanks (before ++ ahead) := by
  have hinput := tidy_skip_blanks (before ++ ahead)
  rcases hmissing with ⟨e, hrun⟩ | ⟨value, rest, hrun, hahead, _⟩
  · exact h.place hinput hrun
  · obtain rfl : ahead = rest := hahead.trans (h.tidy hinput hrun)
    exact ⟨h.tidy hinput hrun, part.suffix hrun⟩

/-- Where a text is refused for a token, no text is accepted that is the same up to the end of that
token. -/
theorem Settles.parse_ne_ok (h : Settles part part) {before ahead ahead' : List Char}
    (hmissing : MissingAt part before ahead) (hagree : AgreeToBoundary ahead ahead') (value : α) :
    part.parse (String.ofList (before ++ ahead')) ≠ .ok value := by
  obtain ⟨_, inside, hinside⟩ := h.place_of_missing_at hmissing
  obtain ⟨blanks, hblanks, hsplit⟩ := exists_blanks (before ++ ahead)
  have hinput := tidy_skip_blanks (before ++ ahead)
  rw [MissingAt, ← hinside] at hmissing
  rw [← hinside, ← List.append_assoc] at hsplit
  rw [← hinside] at hinput
  obtain rfl := List.append_cancel_right hsplit
  have hstart : skipBlanks (blanks ++ inside ++ ahead') = inside ++ ahead' := by
    rw [List.append_assoc, skip_blanks_append hblanks]
    exact (hagree.append_left inside).tidy hinput
  intro hparse
  obtain ⟨rest', hrun', hend⟩ := parse_ok.mp hparse
  rw [String.toList_ofList, hstart] at hrun'
  rcases hmissing with ⟨e, hrun⟩ | ⟨_, rest, hrun, hahead, _⟩
  · exact h.fails hinput hrun hagree hrun'
  · obtain rfl : ahead = rest := hahead.trans (h.tidy hinput hrun)
    obtain rfl := h.stops hinput hrun hagree hrun'
    rw [hagree.tidy (h.tidy hinput hrun)] at hend
    obtain ⟨c, later, later', _, hcons⟩ := hagree.exists_cons
    exact List.cons_ne_nil c later' (hcons.symm.trans hend)

theorem missing_at_of_parse (h : Settles part part) {text found : String} {position : Nat}
    {expected : List String}
    (hparse : part.parse text = .error (.invalidToken position expected found)) :
    ∃ before ahead, text.toList = before ++ ahead ∧ byteSize before = position ∧
      found = SyntaxError.foundAt ahead ∧ MissingAt part before ahead := by
  obtain ⟨⟨ahead, cause⟩, hlocate, hfault⟩ := parse_error_iff.mp hparse
  have hinput := tidy_skip_blanks text.toList
  have hcause : ∃ e, cause = .missing e := by
    cases cause with
    | missing e => exact ⟨e, rfl⟩
    | tooDeep limit => cases hlocate
  obtain ⟨e, rfl⟩ := hcause
  have hsuffix : ahead <:+ text.toList := by
    refine List.IsSuffix.trans ?_ (skip_blanks_suffix text.toList)
    rcases hfault with hrun | ⟨_, rest, hrun, _, heq⟩
    · exact (h.place hinput hrun).2
    · cases heq
      exact (skip_blanks_suffix rest).trans (part.suffix hrun)
  obtain ⟨before, hbefore⟩ := hsuffix
  cases hlocate
  refine ⟨before, ahead, hbefore.symm, ?_, rfl, ?_⟩
  · rw [← hbefore, byte_size_append, Nat.add_sub_cancel]
  · rw [MissingAt, hbefore]
    rcases hfault with hrun | ⟨value, rest, hrun, hne, heq⟩
    · exact .inl ⟨e, hrun⟩
    · cases heq
      exact .inr ⟨value, rest, hrun, rfl, hne⟩

end Reader
end RelationalQuery
