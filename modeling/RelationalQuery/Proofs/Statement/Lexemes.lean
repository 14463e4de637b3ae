import Mathlib.Data.List.TakeWhile
import RelationalQuery.Proofs.Statement.Readers
import RelationalQuery.Statement.Reading

/-!
# Words, keywords and symbols in a text

The parts of a text that have no parts of their own. Each may stand after blanks. A word goes on
for as long as it can; a keyword counts only where a word could end. A part is described by the
text before it and the text after it, so the descriptions can be chained.

The readers skip the blanks after a part as soon as they have read it. So they agree with the
descriptions up to the blanks that come next.
-/

set_option autoImplicit false

namespace RelationalQuery

def Blanks (s : List Char) : Prop := ∀ c ∈ s, isBlank c = true

def StopsAt (ends : Char → Bool) (rest : List Char) : Prop := ∀ c ∈ rest.head?, ends c = true

def IsWord (ends : Char → Bool) (w : String) : Prop := w ≠ "" ∧ ∀ c ∈ w.toList, ends c = false

instance (ends : Char → Bool) (w : String) : Decidable (IsWord ends w) :=
  @instDecidableAnd _ _ _ (List.decidableBAll _ _)

def WordAt (ends : Char → Bool) (w : String) (input rest : List Char) : Prop :=
  ∃ blanks, Blanks blanks ∧ input = blanks ++ (w.toList ++ rest) ∧ IsWord ends w ∧ StopsAt ends rest

def KeywordAt (k : Keyword) (input rest : List Char) : Prop :=
  ∃ blanks letters, Blanks blanks ∧ input = blanks ++ (letters ++ rest) ∧
    letters.map Char.toLower = k.spelling.toList ∧ StopsAt isBoundary rest

def SymbolAt (c : Char) (input rest : List Char) : Prop :=
  ∃ blanks, Blanks blanks ∧ input = blanks ++ c :: rest

@[simp] theorem stops_at_nil (ends : Char → Bool) : StopsAt ends [] := by
  intro c hc
  cases hc

@[simp] theorem stops_at_cons {ends : Char → Bool} {c : Char} {rest : List Char} :
    StopsAt ends (c :: rest) ↔ ends c = true := by
  simp [StopsAt]

theorem blanks_nil : Blanks [] := by simp [Blanks]

theorem blanks_space : Blanks [' '] := by simp [Blanks, isBlank]

theorem skip_blanks_append {blanks : List Char} (h : Blanks blanks) (s : List Char) :
    skipBlanks (blanks ++ s) = skipBlanks s :=
  List.dropWhile_append_of_pos h

theorem skip_blanks_cons {c : Char} (h : isBlank c = false) (s : List Char) :
    skipBlanks (c :: s) = c :: s := by
  simp [skipBlanks, h]

theorem skip_blanks_eq_nil {s : List Char} : skipBlanks s = [] ↔ Blanks s :=
  List.dropWhile_eq_nil_iff

theorem exists_blanks (s : List Char) : ∃ blanks, Blanks blanks ∧ s = blanks ++ skipBlanks s :=
  ⟨s.takeWhile isBlank, fun _ hc => List.mem_takeWhile_imp hc,
    (List.takeWhile_append_dropWhile).symm⟩

theorem skip_blanks_eq_iff {input part : List Char} (h : skipBlanks part = part) :
    skipBlanks input = part ↔ ∃ blanks, Blanks blanks ∧ input = blanks ++ part := by
  constructor
  · rintro rfl
    exact exists_blanks input
  · rintro ⟨blanks, hblanks, rfl⟩
    rw [skip_blanks_append hblanks, h]

@[simp] theorem skip_blanks_skip_blanks (s : List Char) :
    skipBlanks (skipBlanks s) = skipBlanks s := by
  obtain ⟨blanks, hblanks, heq⟩ := exists_blanks s
  calc skipBlanks (skipBlanks s)
      = skipBlanks (blanks ++ skipBlanks s) := (skip_blanks_append hblanks _).symm
    _ = skipBlanks s := by rw [← heq]

theorem skip_blanks_word {ends : Char → Bool} (hends : ∀ c, isBlank c = true → ends c = true)
    {w : String} (hw : IsWord ends w) (rest : List Char) :
    skipBlanks (w.toList ++ rest) = w.toList ++ rest := by
  obtain ⟨hne, hchars⟩ := hw
  cases hlist : w.toList with
  | nil => exact absurd (String.toList_eq_nil_iff.mp hlist) hne
  | cons c letters =>
    have hc : ends c = false := hchars c (by simp [hlist])
    apply skip_blanks_cons
    cases hblank : isBlank c with
    | false => rfl
    | true => exact absurd (hends c hblank) (by simp [hc])

theorem take_while_word {ends : Char → Bool} {w : String} (hw : IsWord ends w) {rest : List Char}
    (hrest : StopsAt ends rest) :
    (w.toList ++ rest).takeWhile (fun c => !ends c) = w.toList ∧
      (w.toList ++ rest).dropWhile (fun c => !ends c) = rest := by
  have hall : ∀ c ∈ w.toList, (!ends c) = true := by
    intro c hc
    simp [hw.2 c hc]
  rw [List.takeWhile_append_of_pos hall, List.dropWhile_append_of_pos hall]
  cases rest with
  | nil => simp
  | cons c rest => simp [stops_at_cons.mp hrest]

theorem symbol_word {ends : Char → Bool} {w : String} (hw : IsWord ends w) {c : Char}
    (hc : ends c = true) (rest : List Char) :
    (Opener.symbol c).after? (w.toList ++ rest) = none := by
  obtain ⟨hne, hchars⟩ := hw
  cases hlist : w.toList with
  | nil => exact absurd (String.toList_eq_nil_iff.mp hlist) hne
  | cons d letters =>
    have hd : ends d = false := hchars d (by simp [hlist])
    have hdc : d ≠ c := by
      rintro rfl
      simp [hc] at hd
    simp [Opener.symbol, hdc]

namespace Reader

theorem run_word_ok {expectation : Expectation} {ends : Char → Bool}
    (hends : ∀ c, isBlank c = true → ends c = true) {input ahead : List Char} {w : String} :
    (word expectation ends).run (skipBlanks input) = .ok (w, ahead) ↔
      ∃ rest, WordAt ends w input rest ∧ ahead = skipBlanks rest := by
  constructor
  · intro h
    simp only [word] at h
    split at h
    · cases h
    · rename_i c letters hletters
      simp only [Except.ok.injEq, Prod.mk.injEq] at h
      obtain ⟨rfl, rfl⟩ := h
      obtain ⟨blanks, hblanks, hinput⟩ := exists_blanks input
      refine ⟨(skipBlanks input).dropWhile fun c => !ends c, ⟨blanks, hblanks, ?_, ?_, ?_⟩, rfl⟩
      · rw [String.toList_ofList, ← hletters, List.takeWhile_append_dropWhile]
        exact hinput
      · refine ⟨by simp [← String.toList_eq_nil_iff], ?_⟩
        intro d hd
        rw [String.toList_ofList, ← hletters] at hd
        simpa using List.mem_takeWhile_imp hd
      · intro d hd
        have := List.head?_dropWhile_not (fun c => !ends c) (skipBlanks input)
        rw [hd] at this
        simpa using this
  · rintro ⟨rest, ⟨blanks, hblanks, rfl, hw, hrest⟩, rfl⟩
    rw [skip_blanks_append hblanks, skip_blanks_word hends hw]
    obtain ⟨htake, hdrop⟩ := take_while_word hw hrest
    simp only [word, htake, hdrop]
    split
    · rename_i hnil
      exact absurd (String.toList_eq_nil_iff.mp hnil) hw.1
    · rename_i c letters hcons
      rw [← hcons, String.ofList_toList]

theorem run_word_append {expectation : Expectation} {ends : Char → Bool}
    (hends : ∀ c, isBlank c = true → ends c = true) {w : String} (hw : IsWord ends w)
    {rest : List Char} (hrest : StopsAt ends rest) :
    (word expectation ends).run (w.toList ++ rest) = .ok (w, skipBlanks rest) := by
  rw [← skip_blanks_word hends hw rest]
  exact (run_word_ok hends).mpr ⟨rest, ⟨[], blanks_nil, rfl, hw, hrest⟩, rfl⟩

end Reader

theorem Keyword.after_letters?_eq_some {letters input rest : List Char} :
    afterLetters? letters input = some rest ↔
      ∃ read : List Char, read.map Char.toLower = letters ∧ input = read ++ rest := by
  induction letters generalizing input with
  | nil => simp [afterLetters?]
  | cons letter letters ih =>
    cases input with
    | nil =>
      simp only [afterLetters?, reduceCtorEq, false_iff, not_exists, not_and]
      rintro (_ | ⟨d, read⟩) hread heq
      · simp at hread
      · simp at heq
    | cons c input =>
      simp only [afterLetters?]
      split
      · rename_i hc
        rw [ih]
        constructor
        · rintro ⟨read, hread, rfl⟩
          exact ⟨c :: read, by simp [hc, hread], rfl⟩
        · rintro ⟨_ | ⟨d, read⟩, hread, heq⟩
          · simp at hread
          · simp only [List.map_cons, List.cons.injEq] at hread
            simp only [List.cons_append, List.cons.injEq] at heq
            exact ⟨read, hread.2, heq.2⟩
      · rename_i hc
        simp only [reduceCtorEq, false_iff, not_exists, not_and]
        rintro (_ | ⟨d, read⟩) hread heq
        · simp at hread
        · simp only [List.map_cons, List.cons.injEq] at hread
          simp only [List.cons_append, List.cons.injEq] at heq
          exact hc (heq.1 ▸ hread.1)

theorem skip_blanks_letters {k : Keyword} {letters : List Char}
    (h : letters.map Char.toLower = k.spelling.toList) (rest : List Char) :
    skipBlanks (letters ++ rest) = letters ++ rest := by
  have hfirst : ∀ c : Char, isBlank c = true → ∀ s, k.spelling.toList ≠ c.toLower :: s := by
    intro c hc s
    simp only [isBlank, Bool.or_eq_true, decide_eq_true_eq] at hc
    rcases hc with ((rfl | rfl) | rfl) | rfl <;> cases k <;> simp [Keyword.spelling]
  cases letters with
  | nil => cases k <;> simp [Keyword.spelling] at h
  | cons c letters =>
    apply skip_blanks_cons
    cases hc : isBlank c with
    | false => rfl
    | true => exact absurd h.symm (hfirst c hc _)

/-- A keyword takes its letters, where a word may end after them, and the blanks that follow. -/
theorem Keyword.after?_eq_some_iff {k : Keyword} {input ahead : List Char} :
    k.after? input = some ahead ↔ ∃ letters rest, input = letters ++ rest ∧
      letters.map Char.toLower = k.spelling.toList ∧ StopsAt isBoundary rest ∧
      ahead = skipBlanks rest := by
  have key : k.after? input = some ahead ↔
      ∃ rest, afterLetters? k.spelling.toList input = some rest ∧ StopsAt isBoundary rest ∧
        ahead = skipBlanks rest := by
    unfold after?
    split
    · rename_i h
      simp [h, eq_comm, show skipBlanks [] = [] from rfl]
    · rename_i c rest h
      simp only [h, Option.ite_none_right_eq_some, Option.some.injEq, exists_eq_left',
        stops_at_cons]
      rw [eq_comm (a := ahead)]
    · rename_i h
      simp [h]
  simp only [key, after_letters?_eq_some]
  constructor
  · rintro ⟨rest, ⟨letters, hletters, rfl⟩, hrest, rfl⟩
    exact ⟨letters, rest, rfl, hletters, hrest, rfl⟩
  · rintro ⟨letters, rest, rfl, hletters, hrest, rfl⟩
    exact ⟨rest, ⟨letters, hletters, rfl⟩, hrest, rfl⟩

theorem Keyword.after?_eq_some {k : Keyword} {input ahead : List Char} :
    k.after? (skipBlanks input) = some ahead ↔
      ∃ rest, KeywordAt k input rest ∧ ahead = skipBlanks rest := by
  rw [after?_eq_some_iff]
  constructor
  · rintro ⟨letters, rest, heq, hletters, hrest, rfl⟩
    obtain ⟨blanks, hblanks, hinput⟩ :=
      (skip_blanks_eq_iff (skip_blanks_letters hletters rest)).mp heq
    exact ⟨rest, ⟨blanks, letters, hblanks, hinput, hletters, hrest⟩, rfl⟩
  · rintro ⟨rest, ⟨blanks, letters, hblanks, rfl, hletters, hrest⟩, rfl⟩
    refine ⟨letters, rest, ?_, hletters, hrest, rfl⟩
    rw [skip_blanks_append hblanks, skip_blanks_letters hletters]

theorem Keyword.after?_spelling (k : Keyword) {blanks rest : List Char} (hblanks : Blanks blanks)
    (h : StopsAt isBoundary rest) :
    k.after? (skipBlanks (blanks ++ (k.spelling.toList ++ rest))) = some (skipBlanks rest) := by
  have hlower : k.spelling.toList.map Char.toLower = k.spelling.toList := by cases k <;> rfl
  exact after?_eq_some.mpr ⟨rest, ⟨blanks, k.spelling.toList, hblanks, rfl, hlower, h⟩, rfl⟩

theorem Reader.run_keyword (k : Keyword) {blanks rest : List Char} (hblanks : Blanks blanks)
    (h : StopsAt isBoundary rest) :
    (keyword k).run (skipBlanks (blanks ++ (k.spelling.toList ++ rest))) =
      .ok ((), skipBlanks rest) := by
  apply run_opening_ok.mpr
  simp [Opener.keyword, k.after?_spelling hblanks h]

theorem Opener.symbol_eq_some {c : Char} (hc : isBlank c = false) {input ahead : List Char} :
    (Opener.symbol c).after? (skipBlanks input) = some ((), ahead) ↔
      ∃ rest, SymbolAt c input rest ∧ ahead = skipBlanks rest := by
  have key : (Opener.symbol c).after? (skipBlanks input) = some ((), ahead) ↔
      ∃ rest, skipBlanks input = c :: rest ∧ ahead = skipBlanks rest := by
    cases skipBlanks input with
    | nil => simp [symbol]
    | cons d rest =>
      by_cases h : d = c
      · simp [symbol, h, eq_comm]
      · simp [symbol, h]
  rw [key]
  constructor
  · rintro ⟨rest, heq, rfl⟩
    obtain ⟨blanks, hblanks, hinput⟩ := (skip_blanks_eq_iff (skip_blanks_cons hc rest)).mp heq
    exact ⟨rest, ⟨blanks, hblanks, hinput⟩, rfl⟩
  · rintro ⟨rest, ⟨blanks, hblanks, rfl⟩, rfl⟩
    exact ⟨rest, by rw [skip_blanks_append hblanks, skip_blanks_cons hc], rfl⟩

end RelationalQuery
