import RelationalQuery.Proofs.Statement.Places

/-!
# Reports of syntax errors

A report shows the line of the text around the place of its error, and below it a mark. The numbers
of the line and of the column are those of that place. The mark is put five columns and the column
of the place to the right, which is where the character is shown as long as the number of the line
has no more than three digits.
-/

set_option autoImplicit false

namespace RelationalQuery

def ended (lines : List (List Char)) : List Char := lines.flatMap (· ++ ['\n'])

theorem split_on_ended_append {lines : List (List Char)} (h : ∀ l ∈ lines, '\n' ∉ l)
    (rest : List Char) : (ended lines ++ rest).splitOn '\n' = lines ++ rest.splitOn '\n' := by
  induction lines with
  | nil => rfl
  | cons l lines ih =>
    obtain ⟨hl, hlines⟩ := List.forall_mem_cons.mp h
    have hsplit : ended (l :: lines) ++ rest = l ++ '\n' :: (ended lines ++ rest) := by
      simp [ended]
    rw [hsplit, List.splitOn_append_cons_self_of_not_mem hl, ih hlines, List.cons_append]

/-- A text consists of the lines that have ended and of the beginning of one more. -/
theorem exists_ended (text : List Char) : ∃ lines left, text = ended lines ++ left ∧
    (∀ l ∈ lines, '\n' ∉ l) ∧ '\n' ∉ left := by
  induction text with
  | nil => exact ⟨[], [], rfl, List.forall_mem_nil _, List.not_mem_nil⟩
  | cons c text ih =>
    obtain ⟨lines, left, rfl, hlines, hleft⟩ := ih
    by_cases hc : c = '\n'
    · exact ⟨[] :: lines, left, by simp [ended, hc],
        List.forall_mem_cons.mpr ⟨List.not_mem_nil, hlines⟩, hleft⟩
    · cases lines with
      | nil => exact ⟨[], c :: left, rfl, List.forall_mem_nil _, by simp [Ne.symm hc, hleft]⟩
      | cons l lines =>
        obtain ⟨hl, hlines⟩ := List.forall_mem_cons.mp hlines
        exact ⟨(c :: l) :: lines, left, by simp [ended],
          List.forall_mem_cons.mpr ⟨by simp [Ne.symm hc, hl], hlines⟩, hleft⟩

theorem ended_ends (lines : List (List Char)) :
    ended lines = [] ∨ (ended lines).getLast? = some '\n' := by
  rcases List.eq_nil_or_concat' lines with rfl | ⟨lines, l, rfl⟩
  · exact .inl rfl
  · refine .inr ?_
    rw [ended, List.flatMap_append, List.flatMap_singleton, ← List.append_assoc,
      List.getLast?_concat]

theorem count_ended {lines : List (List Char)} (h : ∀ l ∈ lines, '\n' ∉ l) :
    (ended lines).count '\n' = lines.length := by
  induction lines with
  | nil => rfl
  | cons l lines ih =>
    obtain ⟨hl, hlines⟩ := List.forall_mem_cons.mp h
    have hcons : ended (l :: lines) = l ++ '\n' :: ended lines := by simp [ended]
    rw [hcons, List.count_append, List.count_eq_zero.mpr hl, List.count_cons_self, ih hlines,
      Nat.zero_add, List.length_cons]

namespace Place

theorem advance_byte_size (p : Place) (before ahead : List Char) :
    p.advance (before ++ ahead) (byteSize before) = before.foldl next p := by
  induction before generalizing p with
  | nil => cases ahead <;> rfl
  | cons c before ih =>
    obtain ⟨bytes, hsize, _, hrest⟩ := exists_byte_size_cons c before
    rw [hsize, List.cons_append, advance, hrest, ih, List.foldl_cons]
    exact Nat.succ_ne_zero bytes

theorem foldl_next_line {left : List Char} (h : '\n' ∉ left) (p : Place) :
    left.foldl next p = ⟨p.line, p.column + left.length⟩ := by
  induction left generalizing p with
  | nil => rfl
  | cons c left ih =>
    have hc : c ≠ '\n' := fun hc => h (hc ▸ List.mem_cons_self)
    have hleft : '\n' ∉ left := fun hmem => h (List.mem_cons_of_mem _ hmem)
    rw [List.foldl_cons, next, if_neg hc, ih hleft, List.length_cons, Nat.add_right_comm,
      Nat.add_assoc]

theorem foldl_next_ended {lines : List (List Char)} (h : ∀ l ∈ lines, '\n' ∉ l) (line : Nat) :
    (ended lines).foldl next ⟨line, 1⟩ = ⟨line + lines.length, 1⟩ := by
  induction lines generalizing line with
  | nil => rfl
  | cons l lines ih =>
    obtain ⟨hl, hlines⟩ := List.forall_mem_cons.mp h
    have hcons : ended (l :: lines) = l ++ '\n' :: ended lines := by simp [ended]
    rw [hcons, List.foldl_append, List.foldl_cons, foldl_next_line hl, next, if_pos rfl,
      ih hlines, List.length_cons, Nat.add_right_comm, Nat.add_assoc]

/-- Lines and columns are counted from the line breaks before a place. -/
theorem of_position_eq {text : String} {lines : List (List Char)} {left ahead : List Char}
    (h : text.toList = ended lines ++ left ++ ahead) (hlines : ∀ l ∈ lines, '\n' ∉ l)
    (hleft : '\n' ∉ left) :
    ofPosition text (byteSize (ended lines ++ left)) = ⟨lines.length + 1, left.length + 1⟩ := by
  rw [ofPosition, h, advance_byte_size, List.foldl_append]
  change left.foldl next ((ended lines).foldl next ⟨1, 1⟩) = _
  rw [foldl_next_ended hlines, foldl_next_line hleft, Nat.add_comm 1, Nat.add_comm 1]

end Place

inductive LineEnds (line : List Char) : List Char → Prop
  | last : LineEnds line []
  | lineFeed {more : List Char} : line.getLast? ≠ some '\r' → LineEnds line ('\n' :: more)
  | carriageReturn {more : List Char} : LineEnds line ('\r' :: '\n' :: more)

structure LineAround (before ahead left right : List Char) : Prop where
  left : ∃ earlier, before = earlier ++ left ∧ '\n' ∉ left ∧
    (earlier = [] ∨ earlier.getLast? = some '\n')
  right : ∃ later, ahead = right ++ later ∧ '\n' ∉ right ∧ LineEnds right later

theorem exists_line_ends {ahead : List Char} (hhead : ∀ c ∈ ahead.head?, isBlank c = false) :
    ∃ right later, ahead = right ++ later ∧ '\n' ∉ right ∧ LineEnds right later ∧
      right.head? = ahead.head? := by
  have hblank {c : Char} {rest : List Char} (h : ahead = c :: rest) (hc : isBlank c = true) :
      False := by
    rw [hhead c (by rw [h]; rfl)] at hc
    cases hc
  by_cases hmem : '\n' ∈ ahead
  · obtain ⟨front, more, rfl, hfront⟩ := List.eq_append_cons_of_mem hmem
    rcases List.eq_nil_or_concat' front with rfl | ⟨right, c, rfl⟩
    · exact (hblank rfl rfl).elim
    · by_cases hc : c = '\r'
      · cases right with
        | nil => exact (hblank rfl (by rw [hc]; rfl)).elim
        | cons d right =>
          refine ⟨d :: right, '\r' :: '\n' :: more, by simp [hc], fun h => hfront ?_,
            .carriageReturn, rfl⟩
          exact List.mem_append_left _ h
      · refine ⟨right ++ [c], '\n' :: more, rfl, hfront, .lineFeed ?_, ?_⟩
        · simpa using hc
        · cases right <;> rfl
  · exact ⟨ahead, [], (List.append_nil _).symm, hmem, .last, rfl⟩

theorem drop_carriage_return_of_ne {line : List Char} (h : line.getLast? ≠ some '\r') :
    dropCarriageReturn line = line := if_neg h

theorem drop_carriage_return_append (line : List Char) :
    dropCarriageReturn (line ++ ['\r']) = line := by
  rw [dropCarriageReturn, if_pos List.getLast?_concat, List.dropLast_concat]

/-- The line with the number of a place is the line around it. -/
theorem line_of_eq {text : String} {lines : List (List Char)} {left right later : List Char}
    (h : text.toList = ended lines ++ (left ++ (right ++ later))) (hlines : ∀ l ∈ lines, '\n' ∉ l)
    (hleft : '\n' ∉ left) (hright : '\n' ∉ right) (hends : LineEnds right later)
    (hlast : right = [] → later = []) :
    lineOf text (lines.length + 1) = String.ofList (left ++ right) := by
  have hline : '\n' ∉ left ++ right := by simp [hleft, hright]
  have hbreak (line more : List Char) (hnot : '\n' ∉ line) : ∃ next others,
      (line ++ '\n' :: more).splitOn '\n' = line :: next :: others := by
    rw [List.splitOn_append_cons_self_of_not_mem hnot]
    cases hmore : more.splitOn '\n' with
    | nil => exact absurd hmore (List.splitOn_ne_nil _ _)
    | cons next others => exact ⟨next, others, rfl⟩
  rw [lineOf, Nat.add_sub_cancel, h, split_on_ended_append hlines, List.drop_left,
    ← List.append_assoc]
  cases hends with
  | last => rw [List.append_nil, List.splitOn_eq_singleton hline]
  | @lineFeed more hne =>
    obtain ⟨next, others, hsplit⟩ := hbreak (left ++ right) more hline
    have hlastChar : (left ++ right).getLast? ≠ some '\r' := by
      cases right with
      | nil => cases hlast rfl
      | cons c right =>
        rwa [List.getLast?_append_of_ne_nil _ (List.cons_ne_nil c right)]
    rw [hsplit]
    exact congrArg String.ofList (drop_carriage_return_of_ne hlastChar)
  | @carriageReturn more =>
    obtain ⟨next, others, hsplit⟩ := hbreak (left ++ right ++ ['\r']) more (by simp [hleft, hright])
    rw [List.append_assoc, List.singleton_append] at hsplit
    rw [hsplit]
    exact congrArg String.ofList (drop_carriage_return_append _)

theorem newline_not_mem_to_digits (n : Nat) : '\n' ∉ Nat.toDigits 10 n := by
  intro h
  cases Nat.isDigit_of_mem_toDigits (by decide) (by decide) h

theorem FoundAt.newline_not_mem {ahead : List Char} {found : String} (h : FoundAt ahead found) :
    '\n' ∉ found.toList := by
  cases h with
  | endOfInput => decide
  | @symbol c _ hc =>
    have hne : c ≠ '\n' := by
      rintro rfl
      revert hc
      decide
    simpa [Char.toString, eq_comm] using hne
  | word hword _ =>
    intro hmem
    cases hword.2 _ hmem

namespace SyntaxError

variable {e : SyntaxError} {text : String}

theorem message_invalid_token (position : Nat) (expected found : String) :
    message (.invalidToken position [expected] found) = "invalid token at position " ++
      toString position ++ ": expected " ++ ("`" ++ expected ++ "`") ++ ", found " ++
        ("`" ++ found ++ "`") := rfl

theorem message_too_deep (position limit : Nat) :
    message (.tooDeep position limit) = "filter nesting at position " ++ toString position ++
      " exceeds the limit of " ++ toString limit := rfl

theorem newline_not_mem_message {Starts : List Char → Prop} {before ahead : List Char}
    (h : WellPlaced Starts before ahead e) : '\n' ∉ e.message.toList := by
  cases h with
  | @token expectation found hfound =>
    have hlabel : '\n' ∉ expectation.label.toList := by
      cases expectation with
      | keyword k => cases k <;> simp [Expectation.label, Keyword.spelling]
      | _ => simp [Expectation.label, endOfInput]
    rw [message_invalid_token]
    simp [newline_not_mem_to_digits, hlabel, hfound.newline_not_mem]
  | limit _ _ _ =>
    rw [message_too_deep]
    simp [newline_not_mem_to_digits]

def gutter (line : Nat) : List Char := (alignRight 3 line ++ "| ").toList

def indent (column : Nat) : List Char := "   |".toList ++ List.replicate column ' '

theorem length_gutter (line : Nat) : (gutter line).length = max 3 (toString line).length + 2 := by
  rw [gutter, alignRight, String.length_toList, String.length_append, String.length_append,
    String.length_ofList, List.length_replicate]
  have hbar : "| ".length = 2 := rfl
  omega

theorem length_indent (column : Nat) : (indent column).length = column + 4 := by
  rw [indent, List.length_append, List.length_replicate, Nat.add_comm]
  rfl

/-- The gutter has room for three digits. -/
theorem length_gutter_eq_iff (line : Nat) : (gutter line).length = 5 ↔ line < 1000 := by
  have hdigits : (toString line).length ≤ 3 ↔ line < 10 ^ 3 :=
    Nat.length_repr_le_iff (by decide)
  rw [length_gutter, ← show 10 ^ 3 = 1000 from rfl, ← hdigits]
  omega

theorem newline_not_mem_gutter (line : Nat) : '\n' ∉ gutter line := by
  simp [gutter, alignRight, newline_not_mem_to_digits]

theorem report_eq {line column : Nat} (h : Place.ofPosition text e.position = ⟨line, column⟩) :
    e.report text = "error: " ++ e.message ++ "\n" ++
      "  --> line " ++ toString line ++ ":" ++ toString column ++ "\n" ++
      "   |\n" ++
      alignRight 3 line ++ "| " ++ lineOf text line ++ "\n" ++
      "   |" ++ String.ofList (List.replicate column ' ') ++ "^\n" := by
  delta report
  rw [h]

theorem split_on_report {lines : List (List Char)} {left right later : List Char}
    (h : text.toList = ended lines ++ (left ++ (right ++ later))) (hlines : ∀ l ∈ lines, '\n' ∉ l)
    (hleft : '\n' ∉ left) (hright : '\n' ∉ right) (hends : LineEnds right later)
    (hlast : right = [] → later = []) (hposition : e.position = byteSize (ended lines ++ left))
    (hmessage : '\n' ∉ e.message.toList) :
    (e.report text).toList.splitOn '\n' =
      [("error: " ++ e.message).toList,
        ("  --> line " ++ toString (lines.length + 1) ++ ":" ++ toString (left.length + 1)).toList,
        "   |".toList,
        gutter (lines.length + 1) ++ (left ++ right),
        indent (left.length + 1) ++ ['^'],
        []] := by
  have hplace : Place.ofPosition text e.position = ⟨lines.length + 1, left.length + 1⟩ := by
    rw [hposition]
    exact Place.of_position_eq (by rw [h, List.append_assoc]) hlines hleft
  have hline := line_of_eq h hlines hleft hright hends hlast
  have hreport : (e.report text).toList = ended [("error: " ++ e.message).toList,
      ("  --> line " ++ toString (lines.length + 1) ++ ":" ++ toString (left.length + 1)).toList,
      "   |".toList, gutter (lines.length + 1) ++ (left ++ right),
      indent (left.length + 1) ++ ['^']] ++ [] := by
    rw [report_eq hplace, hline]
    simp only [String.toList_append, String.toList_ofList]
    simp [ended, gutter, indent]
  rw [hreport, split_on_ended_append]
  · rfl
  · simp [hmessage, newline_not_mem_to_digits, newline_not_mem_gutter, hleft, hright, indent]

/-- The report of an error about a place in a text. The numbers of the place count the line breaks
before it and the characters after the last of them, the line around it is shown after the gutter,
and the mark is below its character as long as the number of the line has three digits at most. -/
structure Reported (text : String) (e : SyntaxError) (before ahead left right : List Char)
    (line : Nat) : Prop where
  split : text.toList = before ++ ahead
  position : e.position = byteSize before
  around : LineAround before ahead left right
  first : right.head? = ahead.head?
  number : line = before.count '\n' + 1
  lines : (e.report text).toList.splitOn '\n' =
    [("error: " ++ e.message).toList,
      ("  --> line " ++ toString line ++ ":" ++ toString (left.length + 1)).toList,
      "   |".toList,
      gutter line ++ (left ++ right),
      indent (left.length + 1) ++ ['^'],
      []]
  mark : (indent (left.length + 1)).length = (gutter line).length + left.length ↔ line < 1000

/-- Every text that is refused, as a statement or as a filter, has its error reported so. -/
theorem exists_reported (text : String) (e : SyntaxError)
    (h : Statement.parse text = .error e ∨ Filter.parse text = .error e) :
    ∃ before ahead left right line, Reported text e before ahead left right line := by
  have hplaced : ∃ (Starts : List Char → Prop) (before ahead : List Char),
      text.toList = before ++ ahead ∧ (∀ c ∈ ahead.head?, isBlank c = false) ∧
        WellPlaced Starts before ahead e := by
    rcases h with h | h
    · exact ⟨_, Statement.well_placed_of_parse h⟩
    · exact ⟨_, Filter.well_placed_of_parse h⟩
  obtain ⟨_, before, ahead, hsplit, hhead, hplaced⟩ := hplaced
  obtain ⟨lines, left, rfl, hlines, hleft⟩ := exists_ended before
  obtain ⟨right, later, rfl, hright, hends, hfirst⟩ := exists_line_ends hhead
  have hcount : (ended lines ++ left).count '\n' = lines.length := by
    rw [List.count_append, count_ended hlines, List.count_eq_zero.mpr hleft, Nat.add_zero]
  have hlast : right = [] → later = [] := by
    rintro rfl
    exact List.head?_eq_none_iff.mp hfirst.symm
  exact ⟨ended lines ++ left, right ++ later, left, right, lines.length + 1,
    { split := hsplit
      position := hplaced.position_eq
      around := ⟨⟨ended lines, rfl, hleft, ended_ends lines⟩, later, rfl, hright, hends⟩
      first := hfirst
      number := by rw [hcount]
      lines := split_on_report (by rw [hsplit, List.append_assoc]) hlines hleft hright hends hlast
        hplaced.position_eq (newline_not_mem_message hplaced)
      mark := by
        rw [← length_gutter_eq_iff, length_indent]
        omega }⟩

theorem exists_reported_second_line :
    Statement.parse "select é\r\nfrom ü where ñ = 1 )\r\n" =
        .error (.invalidToken 32 ["end of input"] ")") ∧
      ∃ before ahead left right line, Reported "select é\r\nfrom ü where ñ = 1 )\r\n"
        (.invalidToken 32 ["end of input"] ")") before ahead left right line := by
  have hparse : Statement.parse "select é\r\nfrom ü where ñ = 1 )\r\n" =
      .error (.invalidToken 32 ["end of input"] ")") := by decide +kernel
  exact ⟨hparse, exists_reported _ _ (.inl hparse)⟩

def farDown : String := String.ofList (List.replicate 999 '\n' ++ ['x'])

theorem to_list_far_down : farDown.toList = List.replicate 999 '\n' ++ ['x'] :=
  String.toList_ofList

theorem ended_replicate (n : Nat) : ended (List.replicate n []) = List.replicate n '\n' := by
  induction n with
  | zero => rfl
  | succ n ih =>
    rw [List.replicate_succ, List.replicate_succ, ← ih]
    rfl

theorem byte_size_replicate (n : Nat) : byteSize (List.replicate n '\n') = n := by
  induction n with
  | zero => rfl
  | succ n ih =>
    rw [List.replicate_succ, byteSize, ih, Nat.add_comm]
    rfl

theorem parse_far_down :
    Statement.parse farDown = .error (.invalidToken 999 ["select"] "x") := by
  have hblanks : Blanks (List.replicate 999 '\n') := by
    intro c hc
    rw [List.eq_of_mem_replicate hc]
    rfl
  have hskip : skipBlanks farDown.toList = ['x'] := by
    rw [to_list_far_down, skip_blanks_append hblanks]
    rfl
  have hrun : Reader.statement.run (skipBlanks farDown.toList) =
      .error ⟨['x'], .missing (.keyword .select)⟩ := by
    rw [hskip]
    rfl
  rw [Statement.parse, Reader.parse_error hrun, Fault.locate, to_list_far_down, byte_size_append,
    byte_size_replicate, Nat.add_sub_cancel]
  rfl

/-- On line 1000 the mark stands one column before the character. -/
theorem mark_far_down :
    Statement.parse farDown = .error (.invalidToken 999 ["select"] "x") ∧
      (report (.invalidToken 999 ["select"] "x") farDown).toList.splitOn '\n' =
        ["error: invalid token at position 999: expected `select`, found `x`".toList,
          "  --> line 1000:1".toList, "   |".toList, "1000| x".toList, "   | ^".toList, []] ∧
      "1000| x".toList.idxOf 'x' = 6 ∧ "   | ^".toList.idxOf '^' = 5 := by
  have hlines : ∀ l ∈ List.replicate 999 ([] : List Char), '\n' ∉ l := by
    intro l hl
    rw [List.eq_of_mem_replicate hl]
    exact List.not_mem_nil
  have hsplit : farDown.toList =
      ended (List.replicate 999 []) ++ ([] ++ (['x'] ++ [])) := by
    rw [to_list_far_down, ended_replicate]
    rfl
  have hposition : position (.invalidToken 999 ["select"] "x") =
      byteSize (ended (List.replicate 999 []) ++ []) := by
    rw [List.append_nil, ended_replicate, byte_size_replicate]
    rfl
  have hreport := split_on_report hsplit hlines List.not_mem_nil (by decide) .last (fun _ => rfl)
    hposition (by decide +kernel)
  rw [List.length_replicate] at hreport
  exact ⟨parse_far_down, hreport.trans (by decide +kernel), by decide +kernel, by decide +kernel⟩

end SyntaxError
end RelationalQuery
