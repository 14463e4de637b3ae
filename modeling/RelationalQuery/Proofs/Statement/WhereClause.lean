import RelationalQuery.Proofs.Statement.Faults
import RelationalQuery.Proofs.Statement.Portable

/-!
# Where clauses

A filter is read after `where` as it is read by itself. The statement before it is read as it would
be without a where clause, for it ends at a blank in place of the end of the text, and nothing is
carried over from its joins. An error in the filter is the same error, as many bytes further on as
stand before the filter.
-/

set_option autoImplicit false

namespace RelationalQuery

def SyntaxError.shift (bytes : Nat) : SyntaxError → SyntaxError
  | invalidToken position expected found => invalidToken (position + bytes) expected found
  | tooDeep position limit => tooDeep (position + bytes) limit

theorem Fault.locate_append {fault : Fault} {text : List Char} (h : fault.ahead <:+ text)
    (before : List Char) :
    fault.locate (before ++ text) = (fault.locate text).shift (byteSize before) := by
  obtain ⟨ahead, cause⟩ := fault
  obtain ⟨read, rfl⟩ := h
  have hposition : byteSize (before ++ (read ++ ahead)) - byteSize ahead =
      byteSize (read ++ ahead) - byteSize ahead + byteSize before := by
    rw [byte_size_append, byte_size_append]
    omega
  cases cause with
  | missing expectation => simp only [locate, SyntaxError.shift, hposition]
  | tooDeep limit => simp only [locate, SyntaxError.shift, hposition]

def whereClause (filter : List Char) : List Char :=
  ' ' :: (Keyword.where.spelling.toList ++ ' ' :: filter)

theorem after?_where_clause {blanks : List Char} (h : Blanks blanks) (filter : List Char) :
    Keyword.where.after? (skipBlanks (blanks ++ whereClause filter)) =
      some (skipBlanks filter) := by
  rw [skip_blanks_append h]
  exact Keyword.after?_spelling .where blanks_space (stops_at_cons.mpr (by decide))

namespace Reader

theorem join_kind_none_of_where {ahead inside : List Char}
    (h : Keyword.where.after? ahead = some inside) : Opener.joinKind.after? ahead = none := by
  cases hjoin : Opener.joinKind.after? ahead with
  | none => rfl
  | some found =>
    obtain ⟨kind, inside'⟩ := found
    have hnone := Keyword.after?_eq_none (l := kind.firstWord) h (by cases kind <;> decide)
    cases (join_kind_eq_some.mp hjoin).symm.trans hnone

theorem run_statement_of_parts {s : Statement} {input rest : List Char}
    (h : StatementWith FilterAt s input rest) (hcondition : s.condition? = none)
    (hclause : ClauseAhead (skipBlanks rest))
    (hnone : Opener.joinKind.after? (skipBlanks rest) = none) :
    statement.run (skipBlanks input) =
      (do let condition? ← optional (Opener.keyword .where ()) fun _ => filter
          return { s with condition? } : Reader Statement).run (skipBlanks rest) := by
  rw [StatementWith, hcondition, join_clause_with_filter_at] at h
  obtain ⟨input₁, hselect, input₂, hcolumns, input₃, hfrom, input₄, htables, _, hjoins, rfl⟩ := h
  have hkeyword := Keyword.after?_eq_some.mpr ⟨input₃, hfrom, rfl⟩
  have hcomma := (ClauseAhead.of_keyword (by decide) hkeyword).comma_none
  obtain ⟨h₅, hjoinsAhead⟩ := run_many_of_sequence join_clause_accepts ClauseAhead
    (fun _ _ _ => join_kind_clause_ahead) (fun _ => ClauseAhead.ends_at) hjoins hclause hnone
  have h₄ := run_of_names_at htables hjoinsAhead.comma_none
  have h₃ := run_keyword_ok.mpr ⟨input₃, hfrom, rfl⟩
  have h₂ := run_of_names_at hcolumns hcomma
  have h₁ := run_keyword_ok.mpr ⟨input₁, hselect, rfl⟩
  rw [statement, run_bind_of_ok h₁, run_bind_of_ok h₂, run_bind_of_ok h₃, run_bind_of_ok h₄,
    run_bind_of_ok h₅]

end Reader

namespace Statement

/-- A statement without a where clause is read on at the filter of one. -/
theorem run_where {header : String} {s : Statement} (h : Statement.parse header = .ok s)
    (hs : s.condition? = none) (text : String) :
    Reader.statement.run (skipBlanks (header ++ " where " ++ text).toList) =
      (do let f ← Reader.filter
          return { s with condition? := some f } : Reader Statement).run
        (skipBlanks text.toList) := by
  obtain ⟨rest, hparts, hblanks⟩ := derived_from_iff_statement_with.mp (derived_from_of_parse h)
  obtain ⟨read, hheader, hread⟩ := Portable.statement_with Portable.filter_at s _ _ hparts
  have htext : (header ++ " where " ++ text).toList =
      read ++ (rest ++ whereClause text.toList) := by
    simp [hheader, whereClause, Keyword.spelling]
  have hspace : StopsAt isBlank (whereClause text.toList) := stops_at_cons.mpr (by decide)
  have hmoved := hread _ (EndsAlike.append_right hspace)
  have hwhere := after?_where_clause hblanks text.toList
  have hopen : (Opener.keyword .where ()).after? (skipBlanks (rest ++ whereClause text.toList)) =
      some ((), skipBlanks text.toList) := by
    simp [Opener.keyword, hwhere]
  rw [htext, Reader.run_statement_of_parts hmoved hs (.of_keyword (by decide) hwhere)
    (Reader.join_kind_none_of_where hwhere)]
  cases hrun : Reader.filter.run (skipBlanks text.toList) with
  | error fault =>
    rw [Reader.run_bind_error hrun, Reader.run_bind_error]
    exact Reader.run_optional_error.mpr ⟨(), _, hopen, hrun⟩
  | ok found =>
    obtain ⟨f, ahead⟩ := found
    rw [Reader.run_bind_of_ok hrun,
      Reader.run_bind_of_ok (Reader.run_optional_some.mpr ⟨(), _, hopen, hrun⟩)]

/-- After a statement without a where clause, a filter is read as it is by itself. It becomes the
where clause, or its error is found as many bytes further on as the statement and `where` take. -/
theorem parse_where (header text : String) (s : Statement) (h : Statement.parse header = .ok s)
    (hs : s.condition? = none) :
    Statement.parse (header ++ " where " ++ text) =
      match Filter.parse text with
      | .ok f => .ok { s with condition? := some f }
      | .error error => .error (error.shift (byteSize header.toList + 7)) := by
  have hrun := run_where h hs text
  have hbefore : (header ++ " where " ++ text).toList =
      (header.toList ++ " where ".toList) ++ text.toList := by
    rw [String.toList_append, String.toList_append]
  have hlocate (fault : Fault) (hahead : fault.ahead <:+ text.toList) :
      fault.locate (header ++ " where " ++ text).toList =
        (fault.locate text.toList).shift (byteSize header.toList + 7) := by
    rw [hbefore, Fault.locate_append hahead, byte_size_append]
    rfl
  cases hparse : Filter.parse text with
  | ok f =>
    obtain ⟨ahead, hfilter, hend⟩ := Reader.parse_ok.mp hparse
    rw [Reader.run_bind_of_ok hfilter] at hrun
    exact Reader.parse_ok.mpr ⟨ahead, hrun, hend⟩
  | error error =>
    obtain ⟨fault, rfl, hfilter | ⟨f, ahead, hfilter, hend, rfl⟩⟩ :=
      Reader.parse_error_iff.mp hparse
    · have hahead := Reader.within_filter.fault (skip_blanks_suffix text.toList) hfilter
      rw [Reader.run_bind_error hfilter] at hrun
      show _ = Except.error _
      rw [← hlocate fault hahead]
      exact Reader.parse_error hrun
    · have hahead : skipBlanks ahead <:+ text.toList := (skip_blanks_suffix ahead).trans
        ((Reader.filter.suffix hfilter).trans (skip_blanks_suffix text.toList))
      rw [Reader.run_bind_of_ok hfilter] at hrun
      show _ = Except.error _
      rw [← hlocate _ hahead]
      exact Reader.parse_error_iff.mpr ⟨_, rfl, .inr ⟨_, ahead, hrun, hend, rfl⟩⟩

def joinedHeader : Statement :=
  ⟨["a", "b"], ["t"], [⟨.inner, "on", .condition ⟨"é", "=", "1"⟩⟩], none⟩

def joinedHeaderText : String := "select a, b from t inner join on on (é = 1)"

theorem parse_where_joined_header :
    Statement.parse joinedHeaderText = .ok joinedHeader ∧ joinedHeader.condition? = none ∧
      Statement.parse (joinedHeaderText ++ " where " ++ "p = 1") =
        .ok { joinedHeader with condition? := some (.condition ⟨"p", "=", "1"⟩) } ∧
      Statement.parse (joinedHeaderText ++ " where " ++ "p = 1 or )") =
        .error (.invalidToken (9 + (44 + 7)) ["operand"] ")") := by
  have hheader : Statement.parse joinedHeaderText = .ok joinedHeader := by decide +kernel
  have haccepted : Filter.parse "p = 1" = .ok (.condition ⟨"p", "=", "1"⟩) := by decide +kernel
  have hrefused : Filter.parse "p = 1 or )" = .error (.invalidToken 9 ["operand"] ")") := by
    decide +kernel
  have hsize : byteSize joinedHeaderText.toList = 44 := by decide +kernel
  refine ⟨hheader, rfl, ?_, ?_⟩
  · rw [parse_where joinedHeaderText "p = 1" joinedHeader hheader rfl, haccepted]
  · rw [parse_where joinedHeaderText "p = 1 or )" joinedHeader hheader rfl, hrefused, hsize]
    rfl

end Statement
end RelationalQuery
