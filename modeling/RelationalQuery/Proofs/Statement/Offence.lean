import RelationalQuery.Proofs.Statement.Completion

/-!
# The first offending token

A syntax error that names a token points at the first place where the text goes wrong. What stands
before that place could still have become a text of the grammar, if the limits on open parentheses
and on depth are set aside. Once the token at that place has been seen to its end, nothing that
follows makes the text acceptable.
-/

set_option autoImplicit false

namespace RelationalQuery

def IsStatementText (text : String) : Prop :=
  ∃ s rest, StatementWith UnboundedFilterAt s text.toList rest ∧ Blanks rest

def IsFilterText (text : String) : Prop := ∃ f opened, Filter.DerivedFrom f text opened

/-- As much of a text as shows where the token that was found ends: a parenthesis or a comma by
itself, any token with the boundary after it. -/
inductive TokenSeen (found : String) : List Char → Prop
  | symbol {c : Char} :
      isParenthesis c = true ∨ c = ',' → found = String.ofList [c] → TokenSeen found [c]
  | followed {c : Char} : isBoundary c = true → TokenSeen found (found.toList ++ [c])

def PointsAtOffence {α : Type} (parse : String → Except SyntaxError α) (IsText : String → Prop)
    (text : String) (position : Nat) (found : String) : Prop :=
  ∃ before ahead, text.toList = before ++ ahead ∧ byteSize before = position ∧
    found = SyntaxError.foundAt ahead ∧
    (∃ more, IsText (String.ofList (before ++ more))) ∧
    ∀ seen later value, seen <+: ahead → TokenSeen found seen →
      parse (String.ofList (before ++ (seen ++ later))) ≠ .ok value

theorem TokenSeen.agree_to_boundary {found : String} {seen ahead : List Char}
    (h : TokenSeen found seen) (hahead : seen <+: ahead) (later : List Char) :
    AgreeToBoundary ahead (seen ++ later) := by
  obtain ⟨rest, rfl⟩ := hahead
  cases h with
  | @symbol c hc _ =>
    have hboundary : isBoundary c = true := by
      rcases hc with hc | rfl
      · simp [isBoundary, hc]
      · rfl
    exact .boundary hboundary
  | followed hc =>
    rw [List.append_assoc, List.append_assoc]
    exact .word hc _ _ _

namespace Reader

theorem parse_points_at_offence {α : Type} {part : Reader α} {Part : List Char → List Char → Prop}
    {IsText : String → Prop} (hsettles : Settles part part) (hcompletable : Completable part Part)
    (htext : ∀ text rest, Part text rest → Blanks rest → IsText (String.ofList text))
    {text found : String} {position : Nat} {expected : List String}
    (h : part.parse text = .error (.invalidToken position expected found)) :
    PointsAtOffence part.parse IsText text position found := by
  obtain ⟨before, ahead, hsplit, hposition, hfound, hmissing⟩ := missing_at_of_parse hsettles h
  refine ⟨before, ahead, hsplit, hposition, hfound, ?_, ?_⟩
  · obtain ⟨more, rest, hpart, hblanks⟩ := hcompletable.exists_text hmissing
    exact ⟨more, htext _ rest hpart hblanks⟩
  · intro seen later value hseen htoken
    exact hsettles.parse_ne_ok hmissing (htoken.agree_to_boundary hseen later) value

end Reader

/-- Every error that names a token, of a statement or of a filter, points at the first token that is
wrong. -/
theorem invalid_token_points_at_offence (text : String) (position : Nat) (expected : List String)
    (found : String) :
    (Statement.parse text = .error (.invalidToken position expected found) →
      PointsAtOffence Statement.parse IsStatementText text position found) ∧
    (Filter.parse text = .error (.invalidToken position expected found) →
      PointsAtOffence Filter.parse IsFilterText text position found) := by
  constructor
  · refine Reader.parse_points_at_offence Reader.Settles.statement Reader.Completable.statement ?_
    rintro text rest ⟨s, hs⟩ hblanks
    exact ⟨s, rest, by rwa [String.toList_ofList], hblanks⟩
  · refine Reader.parse_points_at_offence Reader.Settles.filter Reader.Completable.filter ?_
    rintro text rest ⟨f, opened, hf⟩ hblanks
    exact ⟨f, opened, rest, by rwa [String.toList_ofList], hblanks⟩

theorem invalid_token_points_at_offence_nested :
    Statement.parse "select é from t where (b = 1 andx c = 2)" =
        .error (.invalidToken 30 [")"] "andx") ∧
      PointsAtOffence Statement.parse IsStatementText "select é from t where (b = 1 andx c = 2)" 30
        "andx" ∧
      Filter.parse "(a = 1 or )" = .error (.invalidToken 10 ["operand"] ")") ∧
      PointsAtOffence Filter.parse IsFilterText "(a = 1 or )" 10 ")" := by
  have hstatement : Statement.parse "select é from t where (b = 1 andx c = 2)" =
      .error (.invalidToken 30 [")"] "andx") := by decide +kernel
  have hfilter : Filter.parse "(a = 1 or )" = .error (.invalidToken 10 ["operand"] ")") := by
    decide +kernel
  exact ⟨hstatement, (invalid_token_points_at_offence _ _ _ _).1 hstatement, hfilter,
    (invalid_token_points_at_offence _ _ _ _).2 hfilter⟩

end RelationalQuery
