import RelationalQuery.Statement.Cursor
import RelationalQuery.Proofs.Statement.Faults

/-!
# A cursor on the boundaries of the characters

The cursor stands in the text between what has been read and the input that is left. It moves over
whole characters, whether it takes a blank, a keyword or a word, so it stays on boundaries and every
slice is there.
-/

set_option autoImplicit false

namespace RelationalQuery

theorem byte_size_eq_zero {s : List Char} : byteSize s = 0 ↔ s = [] := by
  cases s with
  | nil => simp [byteSize]
  | cons c s =>
    have hpos := c.utf8Size_pos
    simp only [byteSize, reduceCtorEq, iff_false]
    omega

theorem exists_byte_size_cons (c : Char) (s : List Char) :
    ∃ bytes, byteSize (c :: s) = bytes + 1 ∧ c.utf8Size ≤ bytes + 1 ∧
      bytes + 1 - c.utf8Size = byteSize s := by
  have hpos := c.utf8Size_pos
  refine ⟨c.utf8Size + byteSize s - 1, ?_, ?_, ?_⟩
  · rw [byteSize]
    omega
  · omega
  · omega

theorem slice_from?_byte_size (before rest : List Char) :
    sliceFrom? (before ++ rest) (byteSize before) = some rest := by
  induction before with
  | nil => cases rest <;> rfl
  | cons c before ih =>
    obtain ⟨bytes, hsize, hle, hrest⟩ := exists_byte_size_cons c before
    rw [hsize, List.cons_append, sliceFrom?, if_pos hle, hrest, ih]

theorem slice_to?_eq_some {text head : List Char} {bytes : Nat} :
    sliceTo? text bytes = some head ↔ ∃ rest, text = head ++ rest ∧ byteSize head = bytes := by
  constructor
  · intro h
    fun_induction sliceTo? text bytes generalizing head with
    | case1 text =>
      cases h
      exact ⟨text, rfl, rfl⟩
    | case2 => cases h
    | case3 c text bytes hle ih =>
      obtain ⟨head, hhead, rfl⟩ := Option.map_eq_some_iff.mp h
      obtain ⟨rest, rfl, hsize⟩ := ih hhead
      refine ⟨rest, rfl, ?_⟩
      rw [byteSize, hsize]
      omega
    | case4 => cases h
  · rintro ⟨rest, rfl, rfl⟩
    induction head with
    | nil => cases rest <;> rfl
    | cons c head ih =>
      obtain ⟨bytes, hsize, hle, hrest⟩ := exists_byte_size_cons c head
      rw [hsize, List.cons_append, sliceTo?, if_pos hle, hrest, ih]
      rfl

theorem find_bytes?_get_d (ends : Char → Bool) (text : List Char) :
    (findBytes? ends text).getD (byteSize text) = byteSize (text.takeWhile fun c => !ends c) := by
  induction text with
  | nil => rfl
  | cons c text ih =>
    cases hc : ends c with
    | true => simp [findBytes?, hc, byteSize]
    | false =>
      cases hfind : findBytes? ends text with
      | none => simp_all [findBytes?, byteSize]
      | some bytes => simp_all [findBytes?, byteSize]

theorem slice_to?_take_while (ends : Char → Bool) (text : List Char) :
    sliceTo? text (byteSize (text.takeWhile fun c => !ends c)) =
      some (text.takeWhile fun c => !ends c) :=
  slice_to?_eq_some.mpr ⟨_, List.takeWhile_append_dropWhile.symm, rfl⟩

theorem take_while_eq_self {ends : Char → Bool} {text : List Char}
    (h : findBytes? ends text = none) : (text.takeWhile fun c => !ends c) = text := by
  have hsize := find_bytes?_get_d ends text
  have hsplit := List.takeWhile_append_dropWhile (p := fun c => !ends c) (l := text)
  have hwhole := congrArg byteSize hsplit
  rw [h, Option.getD_none] at hsize
  rw [byte_size_append, hsize, Nat.add_eq_left, byte_size_eq_zero] at hwhole
  rwa [hwhole, List.append_nil] at hsplit

theorem utf8_size_to_lower (c : Char) : c.toLower.utf8Size = c.utf8Size := by
  have hsmall (d : Char) (hd : d.val.toNat ≤ 127) : d.utf8Size = 1 := by
    rw [Char.utf8Size, if_pos (UInt32.le_iff_toNat_le.mpr hd)]
  unfold Char.toLower
  split
  · rename_i h
    obtain ⟨hlow, hhigh⟩ := h
    have hlow : 65 ≤ c.val.toNat := UInt32.le_iff_toNat_le.mp hlow
    have hhigh : c.val.toNat ≤ 90 := UInt32.le_iff_toNat_le.mp hhigh
    rw [hsmall c (by omega), hsmall]
    have hshift : ('a'.val - 'A'.val).toNat = 32 := rfl
    simp only [UInt32.toNat_add, hshift]
    omega
  · rfl

theorem byte_size_map_to_lower (s : List Char) : byteSize (s.map Char.toLower) = byteSize s := by
  induction s with
  | nil => rfl
  | cons c s ih => rw [List.map_cons, byteSize, byteSize, utf8_size_to_lower, ih]

def OnBoundary (text : List Char) (position : Nat) : Prop :=
  ∃ before after, text = before ++ after ∧ byteSize before = position

namespace Cursor

variable {text input : List Char} {cursor : Cursor}

def Sound (text : List Char) (cursor : Cursor) : Prop := ∀ p ∈ cursor.visited, OnBoundary text p

structure At (text : List Char) (cursor : Cursor) (input : List Char) : Prop where
  place : ∃ before, text = before ++ input ∧ byteSize before = cursor.position
  sound : cursor.Sound text

theorem at_start (text : List Char) : At text .atStart text where
  place := ⟨[], rfl, rfl⟩
  sound p hp := by
    obtain rfl := List.mem_singleton.mp hp
    exact ⟨[], text, rfl, rfl⟩

namespace At

theorem position_eq (h : At text cursor input) :
    cursor.position = byteSize text - byteSize input := by
  obtain ⟨before, rfl, hbefore⟩ := h.place
  rw [byte_size_append, ← hbefore]
  omega

theorem length_lt (h : At text cursor input) : input.length < byteSize text + 1 := by
  have hlength (s : List Char) : s.length ≤ byteSize s := by
    induction s with
    | nil => exact Nat.le_refl 0
    | cons c s ih =>
      have hpos := c.utf8Size_pos
      rw [List.length_cons, byteSize]
      omega
  obtain ⟨before, rfl, _⟩ := h.place
  have hinput := hlength input
  rw [byte_size_append]
  omega

theorem advance {read rest : List Char} (h : At text cursor (read ++ rest)) :
    At text (cursor.advance (byteSize read)) rest := by
  obtain ⟨before, rfl, hbefore⟩ := h.place
  have hsize : byteSize (before ++ read) = cursor.position + byteSize read := by
    rw [byte_size_append, hbefore]
  refine ⟨⟨before ++ read, (List.append_assoc _ _ _).symm, hsize⟩, fun p hp => ?_⟩
  rcases List.mem_cons.mp hp with rfl | hp
  · exact ⟨before ++ read, rest, (List.append_assoc _ _ _).symm, hsize⟩
  · exact h.sound p hp

theorem advance_cons {c : Char} {rest : List Char} (h : At text cursor (c :: rest)) :
    At text (cursor.advance (byteSize [c])) rest := advance h

end At
end Cursor

namespace Scan

open Cursor

variable {α β : Type} {text input : List Char} {cursor cursor' : Cursor}

theorem run_bind_of_ok {first : Scan α} {next : α → Scan β} {value : α}
    (h : first.run text cursor = (.ok value, cursor')) :
    (first >>= next).run text cursor = (next value).run text cursor' := by
  show (Scan.bind first next).run text cursor = _
  simp only [Scan.bind, h]

theorem run_bind_error {first : Scan α} {next : α → Scan β} {halt : Halt}
    (h : first.run text cursor = (.error halt, cursor')) :
    (first >>= next).run text cursor = (.error halt, cursor') := by
  show (Scan.bind first next).run text cursor = _
  simp only [Scan.bind, h]

theorem run_rest (h : At text cursor input) : rest.run text cursor = (.ok input, cursor) := by
  obtain ⟨before, rfl, hbefore⟩ := h.place
  simp only [rest, ← hbefore, slice_from?_byte_size]
  rfl

theorem run_sliced (part : List Char) :
    (sliced (some part)).run text cursor = (.ok part, cursor) := rfl

theorem run_peek (h : At text cursor input) : peek.run text cursor = (.ok input.head?, cursor) := by
  rw [peek, run_bind_of_ok (run_rest h)]
  rfl

theorem run_advance {c : Char} (h : At text cursor (c :: input)) :
    advance.run text cursor = (.ok (), cursor.advance (byteSize [c])) := by
  rw [advance, run_bind_of_ok (run_peek h)]
  rfl

theorem run_rounds_absent {step : Scan (Option α)} {more : Nat}
    (h : step.run text cursor = (.ok none, cursor')) :
    (rounds step (more + 1)).run text cursor = (.ok [], cursor') := by
  rw [rounds, run_bind_of_ok h]
  rfl

theorem run_rounds_round {step : Scan (Option α)} {more : Nat} {value : α}
    (h : step.run text cursor = (.ok (some value), cursor')) :
    (rounds step (more + 1)).run text cursor =
      (do return value :: (← rounds step more) : Scan (List α)).run text cursor' := by
  rw [rounds, run_bind_of_ok h]

theorem run_skip_blank_stop (h : At text cursor input)
    (hstop : ∀ c ∈ input.head?, isBlank c = false) :
    skipBlank.run text cursor = (.ok none, cursor) := by
  rw [skipBlank, run_bind_of_ok (run_peek h)]
  cases input with
  | nil => rfl
  | cons c input =>
    simp only [List.head?_cons, hstop c rfl]
    rfl

theorem run_skip_blank_step {c : Char} (h : At text cursor (c :: input)) (hc : isBlank c = true) :
    skipBlank.run text cursor = (.ok (some ()), cursor.advance (byteSize [c])) := by
  rw [skipBlank, run_bind_of_ok (run_peek h)]
  simp only [List.head?_cons, hc, if_true]
  rw [run_bind_of_ok (run_advance h)]
  rfl

theorem run_rounds_skip_blank {more : Nat} (h : At text cursor input)
    (hmore : input.length < more) :
    ∃ values cursor', (rounds skipBlank more).run text cursor = (.ok values, cursor') ∧
      At text cursor' (RelationalQuery.skipBlanks input) := by
  induction more generalizing cursor input with
  | zero => exact absurd hmore (Nat.not_lt_zero _)
  | succ more ih =>
    cases input with
    | nil => exact ⟨[], cursor, run_rounds_absent (run_skip_blank_stop h (by simp)), h⟩
    | cons c input =>
      cases hc : isBlank c with
      | false =>
        refine ⟨[], cursor, run_rounds_absent (run_skip_blank_stop h (by simpa using hc)), ?_⟩
        rwa [skip_blanks_cons hc]
      | true =>
        obtain ⟨values, cursor', hrounds, hat⟩ := ih h.advance_cons (Nat.lt_of_succ_lt_succ hmore)
        refine ⟨() :: values, cursor', ?_, ?_⟩
        · rw [run_rounds_round (run_skip_blank_step h hc), run_bind_of_ok hrounds]
          rfl
        · rwa [RelationalQuery.skipBlanks, List.dropWhile_cons, if_pos hc]

theorem run_skip_blanks (h : At text cursor input) :
    ∃ cursor', skipBlanks.run text cursor = (.ok (), cursor') ∧
      At text cursor' (RelationalQuery.skipBlanks input) := by
  obtain ⟨values, cursor', hrounds, hat⟩ := run_rounds_skip_blank h h.length_lt
  have hloop : (loop skipBlank).run text cursor = (.ok values, cursor') := hrounds
  refine ⟨cursor', ?_, hat⟩
  rw [skipBlanks, run_bind_of_ok hloop]
  rfl

theorem run_found (h : At text cursor input) :
    found.run text cursor = (.ok (SyntaxError.foundAt input), cursor) := by
  rw [found, run_bind_of_ok (run_rest h)]
  cases input with
  | nil => rfl
  | cons c input =>
    cases hc : isBoundary c with
    | true =>
      simp only [findBytes?, hc, SyntaxError.foundAt, if_true]
      rfl
    | false =>
      have hfound : SyntaxError.foundAt (c :: input) =
          String.ofList ((c :: input).takeWhile fun c => !isBoundary c) := by
        simp [SyntaxError.foundAt, hc]
      rw [hfound]
      cases hfind : findBytes? isBoundary (c :: input) with
      | none =>
        rw [take_while_eq_self hfind]
        rfl
      | some bytes =>
        have hsize := find_bytes?_get_d isBoundary (c :: input)
        rw [hfind, Option.getD_some] at hsize
        have hslice := slice_to?_take_while isBoundary (c :: input)
        rw [← hsize] at hslice
        cases bytes with
        | zero =>
          rw [eq_comm, byte_size_eq_zero, List.takeWhile_cons, hc] at hsize
          cases hsize
        | succ bytes =>
          simp only [hslice]
          rfl

theorem run_refuse (h : At text cursor input) (expectation : Expectation) :
    (refuse (α := α) expectation.label).run text cursor =
      (.error (.refused (Fault.locate ⟨input, .missing expectation⟩ text)), cursor) := by
  have hposition : position.run text cursor = (.ok cursor.position, cursor) := rfl
  rw [refuse, run_bind_of_ok hposition, run_bind_of_ok (run_found h), h.position_eq]
  rfl

structure Opens (text : List Char) (scan : Scan Bool) (opener : Opener Unit) : Prop where
  taken : ∀ {cursor input inside}, At text cursor input → opener.after? input = some ((), inside) →
    ∃ cursor', scan.run text cursor = (.ok true, cursor') ∧ At text cursor' inside
  absent : ∀ {cursor input}, At text cursor input → opener.after? input = none →
    scan.run text cursor = (.ok false, cursor)

theorem opens_symbol (c : Char) : Opens text (eatSymbol c) (.symbol c) where
  taken {cursor input inside} h hopen := by
    cases input with
    | nil => cases hopen
    | cons d input =>
      simp only [Opener.symbol, Option.ite_none_right_eq_some, Option.some.injEq,
        Prod.mk.injEq] at hopen
      obtain ⟨rfl, _, rfl⟩ := hopen
      obtain ⟨cursor', hskip, hat⟩ := run_skip_blanks h.advance_cons
      refine ⟨cursor', ?_, hat⟩
      rw [eatSymbol, run_bind_of_ok (run_peek h), List.head?_cons, if_pos rfl,
        run_bind_of_ok (run_advance h), run_bind_of_ok hskip]
      rfl
  absent {cursor input} h hopen := by
    have hne : input.head? ≠ some c := by
      cases input with
      | nil => simp
      | cons d input => simpa [Opener.symbol] using hopen
    rw [eatSymbol, run_bind_of_ok (run_peek h), if_neg hne]
    rfl

theorem bytes_spelling {k : Keyword} {letters : List Char}
    (h : letters.map Char.toLower = k.spelling.toList) : bytes k.spelling = byteSize letters := by
  rw [bytes, ← h, byte_size_map_to_lower]

theorem run_at_keyword {k : Keyword} {letters rest : List Char}
    (h : At text cursor (letters ++ rest)) (hletters : letters.map Char.toLower = k.spelling.toList)
    (hrest : StopsAt isBoundary rest) : (atKeyword k).run text cursor = (.ok true, cursor) := by
  have hslice : sliceTo? (letters ++ rest) (byteSize letters) = some letters :=
    slice_to?_eq_some.mpr ⟨rest, rfl, rfl⟩
  rw [atKeyword, run_bind_of_ok (run_rest h), bytes_spelling hletters]
  simp only [hslice, if_pos hletters, slice_from?_byte_size]
  cases rest with
  | nil => rfl
  | cons c rest =>
    rw [run_bind_of_ok (run_sliced _)]
    simp only [List.head?_cons, stops_at_cons.mp hrest]
    rfl

theorem run_at_keyword_absent {k : Keyword} (h : At text cursor input)
    (habsent : k.after? input = none) : (atKeyword k).run text cursor = (.ok false, cursor) := by
  rw [atKeyword, run_bind_of_ok (run_rest h)]
  cases hslice : sliceTo? input (bytes k.spelling) with
  | none => rfl
  | some letters =>
    obtain ⟨rest, rfl, hsize⟩ := slice_to?_eq_some.mp hslice
    by_cases hletters : letters.map Char.toLower = k.spelling.toList
    · have hgoes : ¬ StopsAt isBoundary rest := fun hrest => by
        rw [Keyword.after?_eq_some_iff.mpr ⟨letters, rest, rfl, hletters, hrest, rfl⟩] at habsent
        cases habsent
      simp only [if_pos hletters, ← hsize, slice_from?_byte_size]
      cases rest with
      | nil => exact absurd (stops_at_nil _) hgoes
      | cons c rest =>
        have hc : isBoundary c = false := by simpa using hgoes
        rw [run_bind_of_ok (run_sliced _)]
        simp only [List.head?_cons, hc]
        rfl
    · simp only [if_neg hletters]
      rfl

theorem opens_keyword (k : Keyword) : Opens text (eatKeyword k) (.keyword k ()) where
  taken {cursor input inside} h hopen := by
    have hafter : k.after? input = some inside := by simpa [Opener.keyword] using hopen
    obtain ⟨letters, rest, rfl, hletters, hrest, rfl⟩ := Keyword.after?_eq_some_iff.mp hafter
    have hmove : (move (byteSize letters)).run text cursor =
        (.ok (), cursor.advance (byteSize letters)) := rfl
    obtain ⟨cursor', hskip, hat⟩ := run_skip_blanks h.advance
    refine ⟨cursor', ?_, hat⟩
    rw [eatKeyword, run_bind_of_ok (run_at_keyword h hletters hrest), if_pos rfl,
      bytes_spelling hletters, run_bind_of_ok hmove, run_bind_of_ok hskip]
    rfl
  absent {cursor input} h hopen := by
    have hafter : k.after? input = none := by simpa [Opener.keyword] using hopen
    rw [eatKeyword, run_bind_of_ok (run_at_keyword_absent h hafter)]
    rfl

end Scan
end RelationalQuery
