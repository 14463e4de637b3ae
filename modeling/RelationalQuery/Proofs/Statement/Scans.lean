import Mathlib.Data.List.Forall2
import RelationalQuery.Proofs.Statement.Cursor

/-!
# Scans and readers end alike

A scan follows a reader: with the cursor before the input of the reader, it gives the same value and
leaves the cursor before the input that the reader leaves, or it gives the same error. This passes
from the parts of a scan to the whole. A repetition comes to its end before its rounds do, because
each round takes what opens it.
-/

set_option autoImplicit false

namespace RelationalQuery

theorem Reader.bind_assoc {α β γ : Type} (first : Reader α) (next : α → Reader β)
    (last : β → Reader γ) :
    first >>= next >>= last = first >>= fun value => next value >>= last := by
  have hrun : (first >>= next >>= last).run =
      (first >>= fun value => next value >>= last).run := by
    funext input
    cases hfirst : first.run input with
    | error fault => rw [run_bind_error (run_bind_error hfirst), run_bind_error hfirst]
    | ok read =>
      obtain ⟨value, rest⟩ := read
      rw [run_bind_of_ok hfirst]
      show (Reader.bind (first >>= next) last).run input = (Reader.bind (next value) last).run rest
      simp only [Reader.bind, run_bind_of_ok hfirst]
  generalize first >>= next >>= last = r at hrun
  generalize (first >>= fun value => next value >>= last) = s at hrun
  cases r
  cases s
  cases hrun
  rfl

theorem Reader.run_many_eq {α β : Type} {opener : Opener α} {part : α → Reader β}
    {input : List Char} : (many opener part).run input =
      (do match ← optional opener part with
          | some value => return value :: (← many opener part)
          | none => return [] : Reader (List β)).run input := by
  cases hopen : opener.after? input with
  | none =>
    rw [run_many_absent hopen, run_bind_of_ok (run_optional_absent hopen)]
    rfl
  | some found =>
    obtain ⟨kind, inside⟩ := found
    rw [run_many_open hopen]
    cases hpart : (part kind).run inside with
    | error fault =>
      have hoptional : (optional opener part).run input = .error fault :=
        run_optional_error.mpr ⟨kind, inside, hopen, hpart⟩
      rw [run_bind_error hpart, run_bind_error hoptional]
    | ok read =>
      obtain ⟨value, rest⟩ := read
      have hoptional : (optional opener part).run input = .ok (some value, rest) :=
        run_optional_some.mpr ⟨kind, inside, hopen, hpart⟩
      rw [run_bind_of_ok hpart, run_bind_of_ok hoptional]

namespace Scan

open Cursor

variable {α β γ δ : Type} {text input : List Char} {cursor cursor' : Cursor}

theorem bind_assoc (first : Scan α) (next : α → Scan β) (last : β → Scan γ) :
    first >>= next >>= last = first >>= fun value => next value >>= last := by
  have hrun (text : List Char) (cursor : Cursor) : (first >>= next >>= last).run text cursor =
      (first >>= fun value => next value >>= last).run text cursor := by
    rcases hfirst : first.run text cursor with ⟨halt | value, cursor'⟩
    · rw [run_bind_error (run_bind_error hfirst), run_bind_error hfirst]
    · rw [run_bind_of_ok hfirst]
      show (Scan.bind (first >>= next) last).run text cursor =
        (Scan.bind (next value) last).run text cursor'
      simp only [Scan.bind, run_bind_of_ok hfirst]
  exact congrArg Scan.mk (funext fun text => funext fun cursor => hrun text cursor)

inductive Outcome (text : List Char) (Agree : α → β → Prop) :
    Except Halt α × Cursor → Except Fault (β × List Char) → Prop
  | value {a : α} {b : β} {cursor : Cursor} {rest : List Char} :
      Agree a b → At text cursor rest → Outcome text Agree (.ok a, cursor) (.ok (b, rest))
  | fault {fault : Fault} {cursor : Cursor} : cursor.Sound text →
      Outcome text Agree (.error (.refused (fault.locate text)), cursor) (.error fault)

def Follows (text : List Char) (scan : Scan α) (reader : Reader β) (Agree : α → β → Prop) : Prop :=
  ∀ ⦃cursor input⦄, At text cursor input →
    Outcome text Agree (scan.run text cursor) (reader.run input)

/-- Scans in a row end like readers in a row. The second ones start where the first ones stopped. -/
theorem Outcome.bind {Agree : α → β → Prop} {Agree' : γ → δ → Prop} {scan : Scan α}
    {reader : Reader β} {next : α → Scan γ} {next' : β → Reader δ}
    (h : Outcome text Agree (scan.run text cursor) (reader.run input))
    (hnext : ∀ a b cursor' rest, reader.run input = .ok (b, rest) → Agree a b →
      At text cursor' rest → Outcome text Agree' ((next a).run text cursor') ((next' b).run rest)) :
    Outcome text Agree' ((scan >>= next).run text cursor) ((reader >>= next').run input) := by
  generalize hscan : scan.run text cursor = result at h
  generalize hread : reader.run input = result' at h
  cases h with
  | value hagree hrest =>
    rw [run_bind_of_ok hscan, Reader.run_bind_of_ok hread]
    exact hnext _ _ _ _ hread hagree hrest
  | fault hsound =>
    rw [run_bind_error hscan, Reader.run_bind_error hread]
    exact .fault hsound

namespace Follows

variable {Agree : α → β → Prop} {Agree' : γ → δ → Prop}

theorem pure {a : α} {b : β} (h : Agree a b) :
    Follows text (Pure.pure a) (Pure.pure b) Agree := fun _ _ hat => .value h hat

theorem bind {scan : Scan α} {reader : Reader β} {next : α → Scan γ} {next' : β → Reader δ}
    (h : Follows text scan reader Agree)
    (hnext : ∀ a b, Agree a b → Follows text (next a) (next' b) Agree') :
    Follows text (scan >>= next) (reader >>= next') Agree' :=
  fun _ _ hat => (h hat).bind fun a b _ _ _ hagree hrest => hnext a b hagree hrest

theorem refuse {cursor : Cursor} {input : List Char} (h : At text cursor input)
    (expectation : Expectation) :
    Outcome text Agree ((Scan.refuse expectation.label).run text cursor)
      (.error ⟨input, .missing expectation⟩) := by
  rw [run_refuse h]
  exact .fault h.sound

theorem token (expectation : Expectation) (ends : Char → Bool) :
    Follows text (Scan.token expectation.label ends) (Reader.word expectation ends) Eq := by
  intro cursor input h
  have hsplit := List.takeWhile_append_dropWhile (p := fun c => !ends c) (l := input)
  rw [Scan.token, run_bind_of_ok (run_rest h), find_bytes?_get_d]
  simp only [Reader.word]
  cases hword : input.takeWhile fun c => !ends c with
  | nil => exact refuse h expectation
  | cons c letters =>
    have hpos : byteSize (c :: letters) ≠ 0 := by simp [byte_size_eq_zero]
    rw [hword] at hsplit
    have hslice : sliceTo? input (byteSize (c :: letters)) = some (c :: letters) :=
      slice_to?_eq_some.mpr ⟨_, hsplit.symm, rfl⟩
    rw [← hsplit] at h
    have hmove : (move (byteSize (c :: letters))).run text cursor =
        (.ok (), cursor.advance (byteSize (c :: letters))) := rfl
    obtain ⟨cursor', hskip, hat⟩ := run_skip_blanks h.advance
    simp only [hslice, if_neg hpos]
    rw [run_bind_of_ok (run_sliced _), run_bind_of_ok hmove, run_bind_of_ok hskip]
    exact .value rfl hat

theorem opening {scan : Scan Bool} {opener : Opener Unit} (h : Opens text scan opener)
    (expectation : Expectation) :
    Follows text (do if ← scan then return () else Scan.refuse expectation.label)
      (Reader.opening opener expectation) fun _ _ => True := by
  intro cursor input hat
  simp only [Reader.opening]
  cases hopen : opener.after? input with
  | none =>
    rw [run_bind_of_ok (h.absent hat hopen)]
    exact refuse hat expectation
  | some found =>
    obtain ⟨⟨⟩, inside⟩ := found
    obtain ⟨cursor', hscan, hinside⟩ := h.taken hat hopen
    rw [run_bind_of_ok hscan]
    exact .value trivial hinside

theorem optional {scan : Scan Bool} {opener : Opener Unit} (h : Opens text scan opener)
    {part : Scan α} {part' : Reader β} (hpart : Follows text part part' Agree) :
    Follows text (Scan.optional scan part) (Reader.optional opener fun _ => part')
      (Option.Rel Agree) := by
  intro cursor input hat
  cases hopen : opener.after? input with
  | none =>
    rw [Scan.optional, run_bind_of_ok (h.absent hat hopen), Reader.run_optional_absent hopen]
    exact .value .none hat
  | some found =>
    obtain ⟨⟨⟩, inside⟩ := found
    obtain ⟨cursor', hscan, hinside⟩ := h.taken hat hopen
    rw [Scan.optional, run_bind_of_ok hscan, Reader.run_optional_open hopen]
    exact bind hpart (fun _ _ hagree => pure (.some hagree)) hinside

theorem rounds {opener : Opener γ} {step : Scan (Option α)} {part : γ → Reader β}
    (hstep : Follows text step (Reader.optional opener part) (Option.Rel Agree)) {more : Nat}
    {cursor : Cursor} {input : List Char} (hat : At text cursor input)
    (hmore : input.length < more) :
    Outcome text (List.Forall₂ Agree) ((Scan.rounds step more).run text cursor)
      ((Reader.many opener part).run input) := by
  induction more generalizing cursor input with
  | zero => exact absurd hmore (Nat.not_lt_zero _)
  | succ more ih =>
    rw [Scan.rounds, Reader.run_many_eq]
    refine (hstep hat).bind fun found found' cursor' rest hread hagree hrest => ?_
    cases hagree with
    | none => exact .value .nil hrest
    | some hvalue =>
      -- What opened the round is not ahead any more, so the rounds that are left are enough.
      obtain ⟨kind, inside, hopen, hpart⟩ := Reader.run_optional_some.mp hread
      have hshorter := (opener.shorter hopen).2
      have hsuffix := ((part kind).suffix hpart).length_le
      exact (ih hrest (by omega)).bind fun _ _ _ _ _ hvalues hend =>
        .value (.cons hvalue hvalues) hend

theorem loop {opener : Opener γ} {step : Scan (Option α)} {part : γ → Reader β}
    (hstep : Follows text step (Reader.optional opener part) (Option.Rel Agree)) :
    Follows text (Scan.loop step) (Reader.many opener part) (List.Forall₂ Agree) :=
  fun _ _ hat => rounds hstep hat hat.length_lt

theorem keyword (k : Keyword) :
    Follows text (expectKeyword k) (Reader.keyword k) fun _ _ => True :=
  opening (opens_keyword k) (.keyword k)

theorem closing :
    Follows text (expectSymbol ')') (Reader.opening (.symbol ')') .closing) fun _ _ => True :=
  opening (opens_symbol ')') .closing

theorem finish : Follows text expectEnd Reader.finish fun _ _ => True := by
  intro cursor input h
  obtain ⟨cursor', hskip, hat⟩ := run_skip_blanks h
  rw [expectEnd, run_bind_of_ok hskip, run_bind_of_ok (run_peek hat)]
  simp only [Reader.finish]
  cases hrest : RelationalQuery.skipBlanks input with
  | nil =>
    rw [hrest] at hat
    exact .value trivial hat
  | cons c rest =>
    rw [hrest] at hat
    exact refuse hat .endOfInput

theorem condition : Follows text Scan.condition Reader.condition Eq := by
  refine bind (token .operand _) ?_
  rintro left _ rfl
  refine bind (token .operator _) ?_
  rintro operator _ rfl
  refine bind (token .operand _) ?_
  rintro right _ rfl
  exact pure rfl

end Follows

structure Placed (text : List Char) (t : PlacedTerm) (u : Term) : Prop where
  filter : t.filter = u.filter
  depth : t.depth = u.depth
  position : t.position = byteSize text - byteSize u.start

def ofResult (text : List Char) : Except Fault α → Scan α
  | .ok value => Pure.pure value
  | .error fault => halt (.refused (fault.locate text))

theorem of_result_bind (result : Except Fault α) (next : α → Except Fault β) :
    ofResult text (result >>= next) =
      ofResult text result >>= fun value => ofResult text (next value) := by
  cases result with
  | error fault => rfl
  | ok value => rfl

section
variable {t : PlacedTerm} {u : Term} {later : List PlacedTerm} {later' : List Term}

theorem reach_eq (h : Placed text t u) (above : Nat) :
    t.reach above = ofResult text (u.reach above) := by
  rw [PlacedTerm.reach, Term.reach, h.depth, h.position]
  split <;> rfl

theorem reach_of_chain_eq (h : Placed text t u) (hlater : List.Forall₂ (Placed text) later later')
    (above : Nat) :
    PlacedTerm.reachOfChain above t later = ofResult text (Term.reachOfChain above u later') := by
  induction hlater generalizing t u above with
  | nil => exact reach_eq h above
  | cons hnext _ ih =>
    rw [PlacedTerm.reachOfChain, Term.reachOfChain, of_result_bind, reach_eq h]
    simp only [of_result_bind, ih hnext]
    rfl

theorem combine_chain_eq (combine : Filter → Filter → Filter) (h : Placed text t u)
    (hlater : List.Forall₂ (Placed text) later later') :
    PlacedTerm.combineChain combine t later = Term.combineChain combine u later' := by
  induction hlater generalizing t u with
  | nil => exact h.filter
  | cons hnext _ ih => rw [PlacedTerm.combineChain, Term.combineChain, h.filter, ih hnext]

theorem follows_placed_chain (combine : Filter → Filter → Filter) (h : Placed text t u)
    (hlater : List.Forall₂ (Placed text) later later') :
    Follows text (PlacedTerm.chain combine t later)
      (Reader.ofExcept (Term.chain combine u later')) (Placed text) := by
  have hreach := reach_of_chain_eq h hlater 0
  intro cursor input hat
  simp only [PlacedTerm.chain, Term.chain, hreach]
  cases Term.reachOfChain 0 u later' with
  | error fault => exact .fault hat.sound
  | ok depth => exact .value ⟨combine_chain_eq combine h hlater, rfl, h.position⟩ hat

end

namespace Follows

theorem group {inner : Option (Scan PlacedTerm)} {inner' : Option (Reader Term)}
    (hinner : Option.Rel (fun scan reader => Follows text scan reader (Placed text)) inner inner')
    {rest : List Char} (h : At text cursor ('(' :: rest)) :
    Outcome text (Placed text) ((Scan.group cursor.position inner).run text cursor)
      ((Reader.group ('(' :: rest) inner').run (RelationalQuery.skipBlanks rest)) := by
  cases hinner with
  | none =>
    have hlocate : SyntaxError.tooDeep cursor.position Reader.maxNesting =
        Fault.locate ⟨'(' :: rest, .tooDeep Reader.maxNesting⟩ text :=
      congrArg (SyntaxError.tooDeep · Reader.maxNesting) h.position_eq
    rw [Scan.group, hlocate]
    exact .fault h.sound
  | some hinner =>
    obtain ⟨cursor', hskip, hat⟩ := run_skip_blanks h.advance_cons
    rw [Scan.group, run_bind_of_ok (run_advance h), run_bind_of_ok hskip]
    refine bind hinner (fun t u htu => ?_) hat
    refine bind closing fun _ _ _ => ?_
    exact pure ⟨htu.filter, htu.depth, h.position_eq⟩

theorem atom {inner : Option (Scan PlacedTerm)} {inner' : Option (Reader Term)}
    (hinner : Option.Rel (fun scan reader => Follows text scan reader (Placed text)) inner inner') :
    Follows text (Scan.atom inner) (Reader.atom inner') (Placed text) := by
  intro cursor input h
  have hposition : position.run text cursor = (.ok cursor.position, cursor) := rfl
  rw [Scan.atom, run_bind_of_ok hposition, run_bind_of_ok (run_peek h)]
  cases hopen : (Opener.symbol '(').after? input with
  | none =>
    have hne : input.head? ≠ some '(' := by
      cases input with
      | nil => simp
      | cons c input => simpa [Opener.symbol] using hopen
    rw [if_neg hne, Reader.run_atom_absent hopen]
    exact bind condition (fun c _ hc => pure ⟨congrArg _ hc, rfl, h.position_eq⟩) h
  | some found =>
    obtain ⟨⟨⟩, inside⟩ := found
    cases input with
    | nil => cases hopen
    | cons c input =>
      have hcases : c = '(' ∧ inside = RelationalQuery.skipBlanks input := by
        simpa [Opener.symbol, eq_comm] using hopen
      obtain ⟨rfl, rfl⟩ := hcases
      rw [List.head?_cons, if_pos rfl, Reader.run_atom_open hopen]
      exact group hinner h

theorem chain (k : Keyword) (combine : Filter → Filter → Filter) {term : Scan PlacedTerm}
    {term' : Reader Term} (hterm : Follows text term term' (Placed text)) :
    Follows text (Scan.chain k combine term) (Reader.chain k combine term') (Placed text) :=
  bind hterm fun _ _ hfirst => bind (loop (optional (opens_keyword k) hterm)) fun _ _ hlater =>
    follows_placed_chain combine hfirst hlater

theorem nested (limit : Nat) :
    Follows text (Scan.nested limit) (Reader.nested limit) (Placed text) := by
  induction limit with
  | zero => exact chain _ _ (chain _ _ (atom .none))
  | succ limit ih => exact chain _ _ (chain _ _ (atom (.some ih)))

theorem filter : Follows text Scan.filter Reader.filter Eq :=
  bind (nested _) fun _ _ h => pure h.filter

theorem name : Follows text Scan.name Reader.name Eq := token .name _

theorem names : Follows text Scan.names Reader.names Eq := by
  refine bind name ?_
  rintro first _ rfl
  refine bind (loop (optional (opens_symbol ',') name)) fun later later' hlater => ?_
  rw [List.forall₂_eq_eq_eq] at hlater
  exact pure (congrArg _ hlater)

end Follows

def joinBody (kind : JoinKind) : Scan (Option JoinClause) := do
  let table ← Scan.name
  expectKeyword .on
  let on ← Scan.filter
  return some ⟨kind, table, on⟩

def afterKeywords (part : Scan α) : List Keyword → Scan α
  | [] => part
  | k :: ks => do expectKeyword k; afterKeywords part ks

namespace Follows

theorem join_body (kind : JoinKind) (ks : List Keyword) :
    Follows text (afterKeywords (Scan.joinBody kind) ks)
      (do return some (← Reader.afterKeywords (Reader.joinBody kind) ks)) (Option.Rel Eq) := by
  induction ks with
  | nil =>
    simp only [Reader.afterKeywords, Reader.joinBody, Reader.bind_assoc]
    refine bind name ?_
    rintro table _ rfl
    refine bind (keyword .on) fun _ _ _ => ?_
    refine bind filter ?_
    rintro on _ rfl
    exact pure (.some rfl)
  | cons k ks ih =>
    simp only [Reader.afterKeywords, Reader.bind_assoc]
    exact bind (keyword k) fun _ _ _ => ih

theorem join_clause_opened {kind : JoinKind} {cursor : Cursor} {input inside : List Char}
    (h : At text cursor input) (hfirst : kind.firstWord.after? input = some inside) :
    ∃ cursor', (eatKeyword kind.firstWord).run text cursor = (.ok true, cursor') ∧
      Outcome text (Option.Rel Eq)
        ((afterKeywords (Scan.joinBody kind) kind.keywords.tail).run text cursor')
        ((Reader.optional Opener.joinKind Reader.joinClause).run input) := by
  have hkeyword : (Opener.keyword kind.firstWord ()).after? input = some ((), inside) := by
    simp [Opener.keyword, hfirst]
  obtain ⟨cursor', hscan, hat⟩ := (opens_keyword kind.firstWord).taken h hkeyword
  refine ⟨cursor', hscan, ?_⟩
  rw [Reader.run_optional_open (Reader.join_kind_of_first_word hfirst), Reader.join_clause_eq]
  exact join_body kind _ hat

theorem join_clause :
    Follows text Scan.joinClause (Reader.optional Opener.joinKind Reader.joinClause)
      (Option.Rel Eq) := by
  intro cursor input h
  have habsent {k : Keyword} (hk : k.after? input = none) :
      (eatKeyword k).run text cursor = (.ok false, cursor) :=
    (opens_keyword k).absent h (by simp [Opener.keyword, hk])
  have hopened (kind : JoinKind) {inside : List Char}
      (hk : kind.firstWord.after? input = some inside) := join_clause_opened h hk
  rw [Scan.joinClause, joinKind, Scan.bind_assoc]
  cases hleft : Keyword.left.after? input with
  | some inside =>
    obtain ⟨cursor', hscan, houtcome⟩ := hopened .leftOuter hleft
    have hscan : (eatKeyword .left).run text cursor = (.ok true, cursor') := hscan
    rw [run_bind_of_ok hscan, if_pos rfl]
    simp only [Scan.bind_assoc]
    exact houtcome
  | none =>
    rw [run_bind_of_ok (habsent hleft), if_neg Bool.false_ne_true, Scan.bind_assoc]
    cases hinner : Keyword.inner.after? input with
    | some inside =>
      obtain ⟨cursor', hscan, houtcome⟩ := hopened .inner hinner
      have hscan : (eatKeyword .inner).run text cursor = (.ok true, cursor') := hscan
      rw [run_bind_of_ok hscan, if_pos rfl]
      simp only [Scan.bind_assoc]
      exact houtcome
    | none =>
      rw [run_bind_of_ok (habsent hinner), if_neg Bool.false_ne_true, Scan.bind_assoc]
      cases hjoin : Keyword.join.after? input with
      | some inside =>
        obtain ⟨cursor', hscan, houtcome⟩ := hopened .plain hjoin
        have hscan : (eatKeyword .join).run text cursor = (.ok true, cursor') := hscan
        rw [run_bind_of_ok hscan, if_pos rfl]
        exact houtcome
      | none =>
        have hopen : Opener.joinKind.after? input = none := by
          simp [Opener.joinKind, Opener.orElse, Opener.keyword, hleft, hinner, hjoin]
        rw [run_bind_of_ok (habsent hjoin), if_neg Bool.false_ne_true,
          Reader.run_optional_absent hopen]
        exact .value .none h

theorem statement : Follows text Scan.statement Reader.statement Eq := by
  refine bind (keyword .select) fun _ _ _ => ?_
  refine bind names ?_
  rintro columns _ rfl
  refine bind (keyword .from) fun _ _ _ => ?_
  refine bind names ?_
  rintro tables _ rfl
  refine bind (loop join_clause) fun joins joins' hjoins => ?_
  rw [List.forall₂_eq_eq_eq] at hjoins
  refine bind (optional (opens_keyword .where) filter) fun condition? condition?' hcondition => ?_
  have hcondition : condition? = condition?' := by
    cases hcondition with
    | none => rfl
    | some h => rw [h]
  rw [hjoins, hcondition]
  exact pure rfl

/-- A scan of a whole text gives what the reader gives, and its cursor stays on the boundaries of
the characters. -/
theorem parse (text : String) {scan : Scan α} {reader : Reader α}
    (h : Follows text.toList scan reader Eq) :
    ∃ cursor, scan.parse text = ((reader.parse text).mapError .refused, cursor) ∧
      cursor.Sound text.toList := by
  have hwhole : Follows text.toList (do let value ← scan; expectEnd; return value)
      (do let value ← reader; Reader.finish; return value) Eq :=
    bind h fun _ _ hvalue => bind finish fun _ _ _ => pure hvalue
  obtain ⟨cursor, hskip, hat⟩ := run_skip_blanks (at_start text.toList)
  have houtcome := hwhole hat
  rw [Scan.parse, run_bind_of_ok hskip, Reader.parse]
  generalize hscan : Scan.run _ _ _ = result at houtcome ⊢
  generalize hread : Reader.run _ _ = result' at houtcome ⊢
  cases houtcome with
  | value hagree hrest => exact ⟨_, hagree ▸ rfl, hrest.sound⟩
  | fault hsound => exact ⟨_, rfl, hsound⟩

end Follows
end Scan
end RelationalQuery
