import RelationalQuery.Proofs.Statement.Scans
import RelationalQuery.Proofs.Statement.TooDeep

/-!
# Places of syntax errors

Every error is about a place in the text that no blank follows. An error that names a token tells
the token at that place, an error that tells a limit is at the start of an atom of a filter. The
places are those of a cursor that moves through the text by bytes and stays on the boundaries of
its characters.
-/

set_option autoImplicit false

namespace RelationalQuery

inductive FoundAt : List Char → String → Prop
  | endOfInput : FoundAt [] "end of input"
  | symbol {c : Char} {rest : List Char} : isParenthesis c = true ∨ c = ',' →
      FoundAt (c :: rest) c.toString
  | word {w : String} {rest : List Char} : IsWord isBoundary w → StopsAt isBoundary rest →
      FoundAt (w.toList ++ rest) w

inductive DeepIn (inside ahead : List Char) : Nat → Prop
  | nesting {here : List Char} : AtomAt (inside ++ ahead) 64 here → ahead = skipBlanks here →
      ahead.head? = some '(' → openParentheses inside = 64 → DeepIn inside ahead 64
  | depth {opened depth : Nat} {here rest : List Char} {f : Filter} :
      AtomAt (inside ++ ahead) opened here → ahead = skipBlanks here →
      Derives .atom ahead f depth rest → DeepIn inside ahead 512

inductive WellPlaced (Starts : List Char → Prop) (before ahead : List Char) : SyntaxError → Prop
  | token {expectation : Expectation} {found : String} : FoundAt ahead found →
      WellPlaced Starts before ahead (.invalidToken (byteSize before) [expectation.label] found)
  | limit {outside inside : List Char} {limit : Nat} : before = outside ++ inside →
      Starts (inside ++ ahead) → DeepIn inside ahead limit →
      WellPlaced Starts before ahead (.tooDeep (byteSize before) limit)

theorem WellPlaced.position_eq {Starts : List Char → Prop} {before ahead : List Char}
    {e : SyntaxError} (h : WellPlaced Starts before ahead e) : e.position = byteSize before := by
  cases h with
  | token _ => rfl
  | limit _ _ _ => rfl

theorem found_at_of_tidy {ahead : List Char} (h : Tidy ahead) :
    FoundAt ahead (SyntaxError.foundAt ahead) := by
  cases ahead with
  | nil => exact .endOfInput
  | cons c rest =>
    have hblank : isBlank c = false := tidy_cons.mp h
    cases hc : isBoundary c with
    | true =>
      have hsymbol : isParenthesis c = true ∨ c = ',' := by
        simpa [isBoundary, hblank] using hc
      have hfound : SyntaxError.foundAt (c :: rest) = c.toString := by
        rw [SyntaxError.foundAt, if_pos hc]
        rfl
      rw [hfound]
      exact .symbol hsymbol
    | false =>
      have hfound : SyntaxError.foundAt (c :: rest) =
          String.ofList ((c :: rest).takeWhile fun c => !isBoundary c) := by
        simp [SyntaxError.foundAt, hc]
      have hword : IsWord isBoundary (SyntaxError.foundAt (c :: rest)) := by
        rw [hfound]
        refine ⟨by simp [hc, ← String.toList_eq_nil_iff], fun d hd => ?_⟩
        rw [String.toList_ofList] at hd
        simpa using List.mem_takeWhile_imp hd
      have hstops : StopsAt isBoundary ((c :: rest).dropWhile fun c => !isBoundary c) := by
        intro d hd
        have hstop := List.head?_dropWhile_not (fun c => !isBoundary c) (c :: rest)
        rw [hd] at hstop
        simpa using hstop
      have hahead := FoundAt.word hword hstops
      rw [hfound, String.toList_ofList, List.takeWhile_append_dropWhile] at hahead
      rwa [hfound]

theorem Derives.atom_skip_blanks {input rest : List Char} {f : Filter} {depth : Nat}
    (h : Derives .atom input f depth rest) : Derives .atom (skipBlanks input) f depth rest := by
  cases h with
  | condition hleft hoperator hright =>
    obtain ⟨blanks, hblanks, rfl, hword, hends⟩ := hleft
    rw [skip_blanks_append hblanks,
      skip_blanks_word (fun _ => Reader.ends_operand_of_is_blank) hword]
    exact .condition ⟨[], blanks_nil, rfl, hword, hends⟩ hoperator hright
  | group hopen hinside hclose =>
    obtain ⟨blanks, hblanks, rfl⟩ := hopen
    rw [skip_blanks_append hblanks, skip_blanks_cons (by decide)]
    exact .group ⟨[], blanks_nil, rfl⟩ hinside hclose

theorem TooDeepAt.deep_in {start ahead : List Char} {limit : Nat}
    (h : TooDeepAt start ahead limit) :
    ∃ inside, start = inside ++ ahead ∧ DeepIn inside ahead limit := by
  cases h with
  | @nesting _ inside hhere hopen =>
    obtain ⟨part, rfl, hpart⟩ := hhere.open_parentheses_eq
    obtain ⟨blanks, hblanks, rfl⟩ := hopen
    have hskip : skipBlanks (blanks ++ '(' :: inside) = '(' :: inside :=
      (skip_blanks_append hblanks _).trans (skip_blanks_cons (by decide) _)
    refine ⟨part ++ blanks, by rw [hskip, List.append_assoc], .nesting ?_ rfl ?_ ?_⟩
    · rwa [hskip, List.append_assoc]
    · rw [hskip]
      rfl
    · rw [openParentheses] at hpart ⊢
      rw [List.foldl_append, hpart, Closed.blanks hblanks]
  | @depth _ _ here _ _ hhere hatom =>
    obtain ⟨part, rfl, _⟩ := hhere.open_parentheses_eq
    obtain ⟨blanks, hblanks, hsplit⟩ := exists_blanks here
    have hstart : part ++ here = part ++ blanks ++ skipBlanks here := by
      rw [List.append_assoc, ← hsplit]
    exact ⟨part ++ blanks, hstart, .depth (hstart ▸ hhere) rfl hatom.atom_skip_blanks⟩

theorem TooDeepAt.tidy {start ahead : List Char} {limit : Nat} (h : TooDeepAt start ahead limit) :
    Tidy ahead := by
  cases h with
  | nesting _ _ => exact tidy_skip_blanks _
  | depth _ _ => exact tidy_skip_blanks _

/-- A text is read in place: the cursor takes no position outside the text or inside a character,
it ends with what the reader gives, and each error is about a place that no blank follows. -/
structure ReadInPlace {α : Type} (scan : Scan α) (parse : String → Except SyntaxError α)
    (Starts : List Char → List Char → Prop) (text : String) : Prop where
  positions : ∃ cursor, scan.parse text = ((parse text).mapError .refused, cursor) ∧
    ∀ p ∈ cursor.visited, p ≤ text.utf8ByteSize ∧ (⟨p⟩ : String.Pos.Raw).IsValid text
  errors : ∀ e, parse text = .error e → ∃ before ahead, text.toList = before ++ ahead ∧
    (∀ c ∈ ahead.head?, isBlank c = false) ∧ WellPlaced (Starts text.toList) before ahead e

theorem utf8_byte_size_of_list (s : List Char) : (String.ofList s).utf8ByteSize = byteSize s := by
  induction s with
  | nil => rfl
  | cons c s ih =>
    rw [String.ofList_cons, String.utf8ByteSize_append, String.utf8ByteSize_singleton, ih, byteSize]

/-- The boundaries of characters are the valid positions of the standard library. -/
theorem Cursor.Sound.is_valid {text : String} {cursor : Cursor} (h : cursor.Sound text.toList)
    {p : Nat} (hp : p ∈ cursor.visited) :
    p ≤ text.utf8ByteSize ∧ (⟨p⟩ : String.Pos.Raw).IsValid text := by
  obtain ⟨before, after, hsplit, hsize⟩ := h p hp
  have hvalid : (⟨p⟩ : String.Pos.Raw).IsValid text := by
    refine String.Pos.Raw.isValid_iff_exists_append.mpr
      ⟨String.ofList before, String.ofList after, ?_, ?_⟩
    · rw [← String.ofList_append, ← hsplit, String.ofList_toList]
    · rw [← hsize, ← utf8_byte_size_of_list]
      rfl
  exact ⟨hvalid.le_utf8ByteSize, hvalid⟩

theorem Reader.well_placed_of_parse {α : Type} {part : Reader α} {Starts : List Char → Prop}
    {text : String} {e : SyntaxError} (hsettles : Settles part part)
    (hdeep : ∀ ahead limit, part.run (skipBlanks text.toList) = .error ⟨ahead, .tooDeep limit⟩ →
      ∃ start, start <:+ text.toList ∧ Starts start ∧ TooDeepAt start ahead limit)
    (h : part.parse text = .error e) :
    ∃ before ahead, text.toList = before ++ ahead ∧ (∀ c ∈ ahead.head?, isBlank c = false) ∧
      WellPlaced Starts before ahead e := by
  obtain ⟨⟨ahead, cause⟩, rfl, hfault⟩ := parse_error_iff.mp h
  have hinput := tidy_skip_blanks text.toList
  have hhead (htidy : Tidy ahead) : ∀ c ∈ ahead.head?, isBlank c = false := by
    intro c hc
    obtain ⟨rest, rfl⟩ := List.head?_eq_some_iff.mp hc
    exact tidy_cons.mp htidy
  have hsize {before : List Char} (hsplit : text.toList = before ++ ahead) :
      byteSize text.toList - byteSize ahead = byteSize before := by
    rw [hsplit, byte_size_append, Nat.add_sub_cancel]
  cases cause with
  | missing expectation =>
    have hplace : Tidy ahead ∧ ahead <:+ skipBlanks text.toList := by
      rcases hfault with hrun | ⟨_, rest, hrun, _, heq⟩
      · exact hsettles.place hinput hrun
      · cases heq
        exact ⟨tidy_skip_blanks rest, (skip_blanks_suffix rest).trans (part.suffix hrun)⟩
    obtain ⟨htidy, hsuffix⟩ := hplace
    obtain ⟨before, hsplit⟩ := hsuffix.trans (skip_blanks_suffix text.toList)
    refine ⟨before, ahead, hsplit.symm, hhead htidy, ?_⟩
    rw [Fault.locate, hsize hsplit.symm]
    exact .token (found_at_of_tidy htidy)
  | tooDeep limit =>
    rcases hfault with hrun | ⟨_, _, _, _, heq⟩
    · obtain ⟨start, ⟨outside, houtside⟩, hstart, hdeepAt⟩ := hdeep ahead limit hrun
      obtain ⟨inside, rfl, hdeepIn⟩ := hdeepAt.deep_in
      have hsplit : text.toList = outside ++ inside ++ ahead := by
        rw [List.append_assoc, houtside]
      refine ⟨outside ++ inside, ahead, hsplit, hhead hdeepAt.tidy, ?_⟩
      rw [Fault.locate, hsize hsplit]
      exact .limit rfl hstart hdeepIn
    · cases heq

theorem Statement.well_placed_of_parse {text : String} {e : SyntaxError}
    (h : Statement.parse text = .error e) :
    ∃ before ahead, text.toList = before ++ ahead ∧ (∀ c ∈ ahead.head?, isBlank c = false) ∧
      WellPlaced (FilterStart text.toList) before ahead e := by
  refine Reader.well_placed_of_parse .statement (fun ahead limit hrun => ?_) h
  obtain ⟨start, hstart, hdeep⟩ := Reader.too_deep_at_of_statement hrun
  exact ⟨start, hstart.suffix, hstart, hdeep⟩

theorem Filter.well_placed_of_parse {text : String} {e : SyntaxError}
    (h : Filter.parse text = .error e) :
    ∃ before ahead, text.toList = before ++ ahead ∧ (∀ c ∈ ahead.head?, isBlank c = false) ∧
      WellPlaced (fun start => start = text.toList) before ahead e := by
  refine Reader.well_placed_of_parse .filter (fun ahead limit hrun => ?_) h
  exact ⟨text.toList, List.suffix_rfl, rfl, Reader.too_deep_at_of_filter hrun⟩

/-- Every text is read in place, as a statement and as a filter. -/
theorem read_in_place (text : String) :
    ReadInPlace Scan.statement Statement.parse FilterStart text ∧
      ReadInPlace Scan.filter Filter.parse (fun text start => start = text) text := by
  obtain ⟨cursor, hscan, hsound⟩ := Scan.Follows.parse text Scan.Follows.statement
  obtain ⟨cursor', hscan', hsound'⟩ := Scan.Follows.parse text Scan.Follows.filter
  exact ⟨⟨⟨cursor, hscan, fun _ hp => hsound.is_valid hp⟩, fun _ => Statement.well_placed_of_parse⟩,
    ⟨⟨cursor', hscan', fun _ hp => hsound'.is_valid hp⟩, fun _ => Filter.well_placed_of_parse⟩⟩

def tooManyParentheses : String := "é = 1 and " ++ String.ofList (List.replicate 65 '(')

theorem read_in_place_too_many_parentheses :
    Filter.parse tooManyParentheses = .error (.tooDeep 75 64) ∧
      (∃ before ahead, tooManyParentheses.toList = before ++ ahead ∧
        (∀ c ∈ ahead.head?, isBlank c = false) ∧
        WellPlaced (fun start => start = tooManyParentheses.toList) before ahead
          (.tooDeep 75 64)) ∧
      Statement.parse "select é from t where (b = 1 andx c = 2)" =
        .error (.invalidToken 30 [")"] "andx") ∧
      ∃ before ahead, "select é from t where (b = 1 andx c = 2)".toList = before ++ ahead ∧
        (∀ c ∈ ahead.head?, isBlank c = false) ∧
        WellPlaced (FilterStart "select é from t where (b = 1 andx c = 2)".toList) before ahead
          (.invalidToken 30 [")"] "andx") := by
  have hfilter : Filter.parse tooManyParentheses = .error (.tooDeep 75 64) := by decide +kernel
  have hstatement : Statement.parse "select é from t where (b = 1 andx c = 2)" =
      .error (.invalidToken 30 [")"] "andx") := by decide +kernel
  exact ⟨hfilter, (read_in_place _).2.errors _ hfilter, hstatement,
    (read_in_place _).1.errors _ hstatement⟩

end RelationalQuery
