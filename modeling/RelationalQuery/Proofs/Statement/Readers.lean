import RelationalQuery.Statement.Reader

/-!
# Results of readers

What it takes for a reader that is put together from others to succeed, said of its parts. An
error of the first part is the error of the whole.
-/

set_option autoImplicit false

namespace RelationalQuery.Reader

variable {α β : Type}

@[simp] theorem run_pure_ok {value : α} {input : List Char} {result : α × List Char} :
    (pure value : Reader α).run input = .ok result ↔ result = (value, input) := by
  change Except.ok (value, input) = .ok result ↔ _
  rw [Except.ok.injEq, eq_comm]

theorem run_bind_of_ok {first : Reader α} {next : α → Reader β} {input rest : List Char} {value : α}
    (h : first.run input = .ok (value, rest)) :
    (first >>= next).run input = (next value).run rest := by
  show (Reader.bind first next).run input = _
  simp only [Reader.bind, h]

theorem run_bind_error {first : Reader α} {next : α → Reader β} {input : List Char} {fault : Fault}
    (h : first.run input = .error fault) : (first >>= next).run input = .error fault := by
  show (Reader.bind first next).run input = _
  simp only [Reader.bind, h]

theorem run_bind_ok {first : Reader α} {next : α → Reader β} {input : List Char}
    {result : β × List Char} :
    (first >>= next).run input = .ok result ↔
      ∃ value rest, first.run input = .ok (value, rest) ∧ (next value).run rest = .ok result := by
  cases hfirst : first.run input with
  | error fault => simp [run_bind_error hfirst]
  | ok read =>
    obtain ⟨value, rest⟩ := read
    rw [run_bind_of_ok hfirst]
    constructor
    · intro h
      exact ⟨value, rest, rfl, h⟩
    · intro h
      obtain ⟨_, _, heq, h⟩ := h
      cases heq
      exact h

theorem run_of_except_ok {result : Except Fault α} {input rest : List Char} {value : α} :
    (ofExcept result).run input = .ok (value, rest) ↔ result = .ok value ∧ rest = input := by
  cases result with
  | error fault => simp [ofExcept]
  | ok value' => simp [ofExcept, eq_comm]

@[simp] theorem run_ahead_ok {input rest value : List Char} :
    ahead.run input = .ok (value, rest) ↔ value = input ∧ rest = input := by
  simp [ahead, eq_comm]

theorem run_opening_ok {opener : Opener α} {expectation : Expectation} {input : List Char}
    {result : α × List Char} :
    (opening opener expectation).run input = .ok result ↔ opener.after? input = some result := by
  simp only [opening]
  cases opener.after? input with
  | none => simp
  | some found => simp

theorem run_optional_absent {opener : Opener α} {part : α → Reader β} {input : List Char}
    (h : opener.after? input = none) : (optional opener part).run input = .ok (none, input) := by
  simp only [optional]
  rw [h]

theorem run_optional_open {opener : Opener α} {part : α → Reader β} {input inside : List Char}
    {kind : α} (h : opener.after? input = some (kind, inside)) :
    (optional opener part).run input =
      (do let value ← part kind; return some value : Reader (Option β)).run inside := by
  simp only [optional]
  rw [h]
  dsimp only
  split
  · rename_i value rest hpart
    rw [run_bind_of_ok hpart]
    rfl
  · rename_i fault hpart
    rw [run_bind_error hpart]

theorem run_optional_some {opener : Opener α} {part : α → Reader β} {input rest : List Char}
    {value : β} :
    (optional opener part).run input = .ok (some value, rest) ↔
      ∃ kind inside, opener.after? input = some (kind, inside) ∧
        (part kind).run inside = .ok (value, rest) := by
  cases hopen : opener.after? input with
  | none => simp [run_optional_absent hopen]
  | some found =>
    obtain ⟨kind, inside⟩ := found
    simp only [run_optional_open hopen, run_bind_ok, run_pure_ok, Prod.mk.injEq, Option.some.injEq]
    constructor
    · rintro ⟨_, _, hpart, rfl, rfl⟩
      exact ⟨kind, inside, ⟨rfl, rfl⟩, hpart⟩
    · rintro ⟨_, _, ⟨rfl, rfl⟩, hpart⟩
      exact ⟨value, rest, hpart, rfl, rfl⟩

theorem run_many_absent {opener : Opener α} {part : α → Reader β} {input : List Char}
    (h : opener.after? input = none) : (many opener part).run input = .ok ([], input) := by
  change runMany opener part input = _
  rw [runMany]
  split
  · rfl
  · rename_i hopen
    rw [h] at hopen
    cases hopen

theorem run_many_open {opener : Opener α} {part : α → Reader β} {input inside : List Char}
    {kind : α} (h : opener.after? input = some (kind, inside)) :
    (many opener part).run input =
      (do let value ← part kind
          let values ← many opener part
          return value :: values : Reader (List β)).run inside := by
  change runMany opener part input = _
  rw [runMany]
  split
  · rename_i hopen
    rw [h] at hopen
    cases hopen
  · rename_i kind' inside' hopen
    rw [h] at hopen
    cases hopen
    split
    · rename_i fault hpart
      rw [run_bind_error hpart]
    · rename_i value next hpart
      rw [run_bind_of_ok hpart]
      split
      · rename_i fault hmany
        rw [run_bind_error hmany]
      · rename_i values rest hmany
        rw [run_bind_of_ok hmany]
        rfl

theorem run_many_nil {opener : Opener α} {part : α → Reader β} {input rest : List Char} :
    (many opener part).run input = .ok ([], rest) ↔
      opener.after? input = none ∧ rest = input := by
  cases hopen : opener.after? input with
  | none => simp [run_many_absent hopen, eq_comm]
  | some found => simp [run_many_open hopen, run_bind_ok]

theorem run_many_cons {opener : Opener α} {part : α → Reader β} {input rest : List Char}
    {value : β} {values : List β} :
    (many opener part).run input = .ok (value :: values, rest) ↔
      ∃ kind inside next, opener.after? input = some (kind, inside) ∧
        (part kind).run inside = .ok (value, next) ∧
          (many opener part).run next = .ok (values, rest) := by
  cases hopen : opener.after? input with
  | none => simp [run_many_absent hopen]
  | some found =>
    obtain ⟨kind, inside⟩ := found
    simp only [run_many_open hopen, run_bind_ok, run_pure_ok, Prod.mk.injEq, List.cons.injEq]
    constructor
    · rintro ⟨_, next, hpart, _, _, hmany, ⟨rfl, rfl⟩, rfl⟩
      exact ⟨kind, inside, next, rfl, hpart, hmany⟩
    · rintro ⟨_, _, next, heq, hpart, hmany⟩
      cases heq
      exact ⟨value, next, hpart, values, rest, hmany, ⟨rfl, rfl⟩, rfl⟩

theorem run_finish_ok {input : List Char} {result : Unit × List Char} :
    finish.run input = .ok result ↔ skipBlanks input = [] ∧ result = ((), []) := by
  cases h : skipBlanks input with
  | nil => simp [finish, h, eq_comm]
  | cons c rest => simp [finish, h]

theorem parse_ok {part : Reader α} {text : String} {value : α} :
    part.parse text = .ok value ↔
      ∃ rest, part.run (skipBlanks text.toList) = .ok (value, rest) ∧ skipBlanks rest = [] := by
  have key : ∀ rest, (do let value ← part; finish; return value : Reader α).run
      (skipBlanks text.toList) = .ok (value, rest) ↔
        ∃ ahead, part.run (skipBlanks text.toList) = .ok (value, ahead) ∧
          skipBlanks ahead = [] ∧ rest = [] := by
    intro rest
    simp only [run_bind_ok, run_finish_ok, run_pure_ok, Prod.mk.injEq]
    constructor
    · rintro ⟨read, ahead, hpart, _, _, ⟨hend, _, rfl⟩, rfl, rfl⟩
      exact ⟨ahead, hpart, hend, rfl⟩
    · rintro ⟨ahead, hpart, hend, rfl⟩
      exact ⟨value, ahead, hpart, (), [], ⟨hend, trivial, rfl⟩, rfl, rfl⟩
  simp only [parse]
  split
  · rename_i read rest h
    constructor
    · intro heq
      cases heq
      obtain ⟨ahead, hpart, hend, _⟩ := (key rest).mp h
      exact ⟨ahead, hpart, hend⟩
    · rintro ⟨ahead, hpart, hend⟩
      have heq := ((key []).mpr ⟨ahead, hpart, hend, rfl⟩).symm.trans h
      simp only [Except.ok.injEq, Prod.mk.injEq] at heq
      rw [heq.1]
  · rename_i fault h
    constructor
    · intro heq
      cases heq
    · rintro ⟨ahead, hpart, hend⟩
      have heq := ((key []).mpr ⟨ahead, hpart, hend, rfl⟩).symm.trans h
      cases heq

theorem parse_error {part : Reader α} {text : String} {fault : Fault}
    (h : part.run (skipBlanks text.toList) = .error fault) :
    part.parse text = .error (fault.locate text.toList) := by
  simp only [parse]
  rw [run_bind_error h]

end RelationalQuery.Reader
