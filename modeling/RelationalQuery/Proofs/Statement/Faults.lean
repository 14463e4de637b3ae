import RelationalQuery.Proofs.Statement.Acceptance

/-!
# Where readers find faults

A composed reader fails where one of its parts fails, after the parts before it have been read. The
place at fault always lies in the text that is read, also when it is the start of a term that was
read before: a chain that is too deep is refused at one of its terms.
-/

set_option autoImplicit false

namespace RelationalQuery

theorem byte_size_append (a b : List Char) : byteSize (a ++ b) = byteSize a + byteSize b := by
  induction a with
  | nil => simp [byteSize]
  | cons c a ih =>
    rw [List.cons_append, byteSize, byteSize, ih]
    omega

namespace Reader

variable {α β : Type}

theorem run_bind_error_iff {first : Reader α} {next : α → Reader β} {input : List Char}
    {fault : Fault} : (first >>= next).run input = .error fault ↔
      first.run input = .error fault ∨
        ∃ value rest, first.run input = .ok (value, rest) ∧
          (next value).run rest = .error fault := by
  cases hfirst : first.run input with
  | error found => simp [run_bind_error hfirst]
  | ok read =>
    obtain ⟨value, rest⟩ := read
    rw [run_bind_of_ok hfirst]
    simp

theorem run_opening_error {opener : Opener α} {expectation : Expectation} {input : List Char}
    {fault : Fault} : (opening opener expectation).run input = .error fault ↔
      opener.after? input = none ∧ fault = ⟨input, .missing expectation⟩ := by
  simp only [opening]
  cases opener.after? input with
  | none => simp [eq_comm]
  | some found => simp

theorem run_optional_error {opener : Opener α} {part : α → Reader β} {input : List Char}
    {fault : Fault} : (optional opener part).run input = .error fault ↔
      ∃ kind inside, opener.after? input = some (kind, inside) ∧
        (part kind).run inside = .error fault := by
  cases hopen : opener.after? input with
  | none => simp [run_optional_absent hopen]
  | some found =>
    obtain ⟨kind, inside⟩ := found
    rw [run_optional_open hopen, run_bind_error_iff]
    constructor
    · rintro (h | ⟨_, _, _, hpure⟩)
      · exact ⟨kind, inside, rfl, h⟩
      · cases hpure
    · rintro ⟨_, _, heq, h⟩
      cases heq
      exact .inl h

theorem run_many_ok_iff {opener : Opener α} {part : α → Reader β} {input rest : List Char}
    {values : List β} : (many opener part).run input = .ok (values, rest) ↔
      Sequence (Round opener part) values input rest ∧ opener.after? rest = none := by
  induction values generalizing input with
  | nil =>
    rw [run_many_nil]
    constructor
    · rintro ⟨hnone, rfl⟩
      exact ⟨.nil, hnone⟩
    · rintro ⟨hrounds, hnone⟩
      cases hrounds
      exact ⟨hnone, rfl⟩
  | cons value values ih =>
    rw [run_many_round]
    constructor
    · rintro ⟨next, hround, hmany⟩
      obtain ⟨hrounds, hnone⟩ := ih.mp hmany
      exact ⟨.cons hround hrounds, hnone⟩
    · rintro ⟨hrounds, hnone⟩
      cases hrounds with
      | cons hround hrounds => exact ⟨_, hround, ih.mpr ⟨hrounds, hnone⟩⟩

/-- A repetition fails in a round that was opened, after some rounds that were read. -/
theorem run_many_error_iff {opener : Opener α} {part : α → Reader β} {input : List Char}
    {fault : Fault} : (many opener part).run input = .error fault ↔
      ∃ values mid kind inside, Sequence (Round opener part) values input mid ∧
        opener.after? mid = some (kind, inside) ∧ (part kind).run inside = .error fault := by
  constructor
  · intro h
    induction hn : input.length using Nat.strongRecOn generalizing input with
    | ind n ih =>
      cases hopen : opener.after? input with
      | none =>
        rw [run_many_absent hopen] at h
        cases h
      | some found =>
        obtain ⟨kind, inside⟩ := found
        rw [run_many_open hopen, run_bind_error_iff] at h
        rcases h with h | ⟨value, next, hpart, h⟩
        · exact ⟨[], input, kind, inside, .nil, hopen, h⟩
        · rcases run_bind_error_iff.mp h with h | ⟨_, _, _, hpure⟩
          · have hshorter := (opener.shorter hopen).2
            have hsuffix := ((part kind).suffix hpart).length_le
            obtain ⟨values, mid, kind', inside', hrounds, hlast⟩ :=
              ih next.length (by omega) h rfl
            exact ⟨value :: values, mid, kind', inside',
              .cons ⟨kind, inside, hopen, hpart⟩ hrounds, hlast⟩
          · cases hpure
  · rintro ⟨values, mid, kind, inside, hrounds, hopen, hpart⟩
    induction hrounds with
    | nil => rw [run_many_open hopen, run_bind_error hpart]
    | cons hround _ ih =>
      obtain ⟨kind', inside', hopen', hpart'⟩ := hround
      rw [run_many_open hopen', run_bind_of_ok hpart', run_bind_error (ih hopen)]

theorem parse_error_iff {part : Reader α} {text : String} {error : SyntaxError} :
    part.parse text = .error error ↔ ∃ fault, error = fault.locate text.toList ∧
      (part.run (skipBlanks text.toList) = .error fault ∨
        ∃ value rest, part.run (skipBlanks text.toList) = .ok (value, rest) ∧
          skipBlanks rest ≠ [] ∧ fault = ⟨skipBlanks rest, .missing .endOfInput⟩) := by
  have hfinish (rest : List Char) (fault : Fault) : finish.run rest = .error fault ↔
      skipBlanks rest ≠ [] ∧ fault = ⟨skipBlanks rest, .missing .endOfInput⟩ := by
    cases h : skipBlanks rest with
    | nil => simp [finish, h]
    | cons c rest => simp [finish, h, eq_comm]
  have key (fault : Fault) : (do let value ← part; finish; return value : Reader α).run
      (skipBlanks text.toList) = .error fault ↔
        part.run (skipBlanks text.toList) = .error fault ∨
          ∃ value rest, part.run (skipBlanks text.toList) = .ok (value, rest) ∧
            skipBlanks rest ≠ [] ∧ fault = ⟨skipBlanks rest, .missing .endOfInput⟩ := by
    rw [run_bind_error_iff]
    simp only [run_bind_error_iff, hfinish]
    refine or_congr_right (exists_congr fun value => exists_congr fun rest => and_congr_right ?_)
    intro _
    rw [or_iff_left_iff_imp]
    rintro ⟨_, _, _, hpure⟩
    cases hpure
  simp only [← key, parse]
  split
  · rename_i h
    simp [h]
  · rename_i fault h
    simp only [h, Except.error.injEq]
    constructor
    · rintro rfl
      exact ⟨fault, rfl, rfl⟩
    · rintro ⟨_, rfl, rfl⟩
      rfl

structure Within (text : List Char) (Good : α → Prop) (r : Reader α) : Prop where
  good : ∀ {input rest : List Char} {value : α}, input <:+ text →
    r.run input = .ok (value, rest) → Good value
  fault : ∀ {input : List Char} {fault : Fault}, input <:+ text →
    r.run input = .error fault → fault.ahead <:+ text

namespace Within

variable {text : List Char} {Good : α → Prop} {Good' : β → Prop}

theorem pure {value : α} (h : Good value) : Within text Good (Pure.pure value : Reader α) where
  good _ hrun := by
    cases run_pure_ok.mp hrun
    exact h
  fault _ hrun := by cases hrun

theorem bind {first : Reader α} {next : α → Reader β} (hfirst : Within text Good first)
    (hnext : ∀ value, Good value → Within text Good' (next value)) :
    Within text Good' (first >>= next) where
  good hinput hrun := by
    obtain ⟨value, rest, hread, hrun⟩ := run_bind_ok.mp hrun
    exact (hnext value (hfirst.good hinput hread)).good ((first.suffix hread).trans hinput) hrun
  fault hinput hrun := by
    rcases run_bind_error_iff.mp hrun with hrun | ⟨value, rest, hread, hrun⟩
    · exact hfirst.fault hinput hrun
    · exact (hnext value (hfirst.good hinput hread)).fault ((first.suffix hread).trans hinput) hrun

theorem ahead : Within text (· <:+ text) Reader.ahead where
  good hinput hrun := (run_ahead_ok.mp hrun).1 ▸ hinput
  fault _ hrun := by cases hrun

theorem word (expectation : Expectation) (ends : Char → Bool) :
    Within text (fun _ => True) (Reader.word expectation ends) where
  good _ _ := trivial
  fault {input} {fault} hinput hrun := by
    have hahead : fault.ahead = input := by
      simp only [Reader.word] at hrun
      split at hrun
      · cases hrun
        rfl
      · cases hrun
    exact hahead ▸ hinput

theorem opening (opener : Opener α) (expectation : Expectation) :
    Within text (fun _ => True) (Reader.opening opener expectation) where
  good _ _ := trivial
  fault hinput hrun := (run_opening_error.mp hrun).2 ▸ hinput

theorem optional {opener : Opener α} {part : α → Reader β}
    (hpart : ∀ kind, Within text Good' (part kind)) :
    Within text (fun found => ∀ value ∈ found, Good' value) (Reader.optional opener part) where
  good {input rest found} hinput hrun := by
    intro value hvalue
    rw [Option.mem_def.mp hvalue] at hrun
    obtain ⟨kind, inside, hopen, hrun⟩ := run_optional_some.mp hrun
    exact (hpart kind).good ((opener.shorter hopen).1.trans hinput) hrun
  fault hinput hrun := by
    obtain ⟨kind, inside, hopen, hrun⟩ := run_optional_error.mp hrun
    exact (hpart kind).fault ((opener.shorter hopen).1.trans hinput) hrun

theorem rounds {opener : Opener α} {part : α → Reader β} {values : List β} {input rest : List Char}
    (hpart : ∀ kind, Within text Good' (part kind)) (hinput : input <:+ text)
    (hrounds : Sequence (Round opener part) values input rest) :
    rest <:+ text ∧ ∀ value ∈ values, Good' value := by
  induction hrounds with
  | nil => exact ⟨hinput, List.forall_mem_nil _⟩
  | cons hround _ ih =>
    obtain ⟨kind, inside, hopen, hrun⟩ := hround
    have hinside := (opener.shorter hopen).1.trans hinput
    obtain ⟨hrest, hvalues⟩ := ih (((part kind).suffix hrun).trans hinside)
    exact ⟨hrest, List.forall_mem_cons.mpr ⟨(hpart kind).good hinside hrun, hvalues⟩⟩

theorem many {opener : Opener α} {part : α → Reader β}
    (hpart : ∀ kind, Within text Good' (part kind)) :
    Within text (fun values => ∀ value ∈ values, Good' value) (Reader.many opener part) where
  good hinput hrun := (rounds hpart hinput (run_many_ok_iff.mp hrun).1).2
  fault hinput hrun := by
    obtain ⟨values, mid, kind, inside, hrounds, hopen, hrun⟩ := run_many_error_iff.mp hrun
    have hmid := (rounds hpart hinput hrounds).1
    exact (hpart kind).fault ((opener.shorter hopen).1.trans hmid) hrun

end Within
end Reader

namespace Term

variable {combine : Filter → Filter → Filter} {first : Term} {later : List Term} {fault : Fault}

theorem reach_error {above : Nat} {t : Term} (h : t.reach above = .error fault) :
    fault = ⟨t.start, .tooDeep maxDepth⟩ := by
  unfold reach at h
  split at h
  · cases h
    rfl
  · cases h

theorem reach_of_chain_error {above : Nat} (h : reachOfChain above first later = .error fault) :
    ∃ t ∈ first :: later, fault = ⟨t.start, .tooDeep maxDepth⟩ := by
  induction later generalizing first above with
  | nil => exact ⟨first, List.mem_cons_self, reach_error h⟩
  | cons next later ih =>
    rcases reach_of_chain_cons_error.mp h with hhere | ⟨_, _, hbelow⟩
    · exact ⟨first, List.mem_cons_self, reach_error hhere⟩
    · obtain ⟨t, ht, heq⟩ := ih hbelow
      exact ⟨t, List.mem_cons_of_mem _ ht, heq⟩

/-- A chain is refused at one of its terms. -/
theorem chain_error (h : chain combine first later = .error fault) :
    ∃ t ∈ first :: later, fault = ⟨t.start, .tooDeep maxDepth⟩ :=
  reach_of_chain_error (chain_eq_error.mp h)

theorem chain_start {t : Term} (h : chain combine first later = .ok t) : t.start = first.start := by
  simp only [chain, bind, Except.bind, pure, Except.pure] at h
  cases hreach : reachOfChain 0 first later with
  | error found =>
    rw [hreach] at h
    cases h
  | ok depth =>
    rw [hreach] at h
    cases h
    rfl

end Term

namespace Reader

variable {text : List Char}

def StartsIn (text : List Char) (t : Term) : Prop := t.start <:+ text

theorem within_condition : Within text (fun _ => True) condition :=
  .bind (.word _ _) fun _ _ => .bind (.word _ _) fun _ _ => .bind (.word _ _) fun _ _ =>
    .pure trivial

theorem within_group {inner : Option (Reader Term)} {start : List Char} (hstart : start <:+ text)
    (hinner : ∀ r ∈ inner, Within text (StartsIn text) r) :
    Within text (StartsIn text) (group start inner) := by
  cases inner with
  | none =>
    refine ⟨fun _ hrun => ?_, fun _ hrun => ?_⟩
    · cases hrun
    · cases hrun
      exact hstart
  | some r =>
    exact .bind (hinner r rfl) fun _ _ => .bind (.opening _ _) fun _ _ => .pure hstart

theorem within_atom {inner : Option (Reader Term)}
    (hinner : ∀ r ∈ inner, Within text (StartsIn text) r) :
    Within text (StartsIn text) (atom inner) := by
  refine .bind .ahead fun start hstart =>
    .bind (.optional fun _ => within_group hstart hinner) fun found hfound => ?_
  cases found with
  | none => exact .bind within_condition fun _ _ => .pure hstart
  | some t => exact .pure (hfound t rfl)

theorem within_chain {k : Keyword} {combine : Filter → Filter → Filter} {term : Reader Term}
    (hterm : Within text (StartsIn text) term) :
    Within text (StartsIn text) (chain k combine term) := by
  refine .bind hterm fun first hfirst => .bind (.many fun _ => hterm) fun later hlater => ?_
  refine ⟨fun {input rest t} _ hrun => ?_, fun {input fault} _ hrun => ?_⟩
  · rw [StartsIn, Term.chain_start (run_of_except_ok.mp hrun).1]
    exact hfirst
  · have hchain : Term.chain combine first later = .error fault := by
      cases h : Term.chain combine first later with
      | error found => simpa [ofExcept, h] using hrun
      | ok t => simp [ofExcept, h] at hrun
    obtain ⟨t, ht, rfl⟩ := Term.chain_error hchain
    rcases List.mem_cons.mp ht with rfl | ht
    · exact hfirst
    · exact hlater t ht

theorem within_nested (limit : Nat) : Within text (StartsIn text) (nested limit) := by
  induction limit with
  | zero => exact within_chain (within_chain (within_atom (by simp)))
  | succ limit ih => exact within_chain (within_chain (within_atom (by simpa using ih)))

theorem within_filter : Within text (fun _ => True) filter :=
  .bind (within_nested maxNesting) fun _ _ => .pure trivial

end Reader
end RelationalQuery
