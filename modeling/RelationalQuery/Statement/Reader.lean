import RelationalQuery.Statement.SyntaxError

/-!
# Readers

A reader takes a part of a statement off the front of the input. What it leaves is always a suffix
of what it was given, so a reader depends on nothing but the input ahead of it, and a repetition
ends because each round takes at least the part that opens it. An error keeps the input ahead of the
place it is about; only at the end is that place turned into a position.
-/

set_option autoImplicit false

namespace RelationalQuery

inductive Expectation
  | keyword (k : Keyword)
  | name
  | operand
  | operator
  | closing
  | endOfInput
  deriving DecidableEq

def Expectation.label : Expectation → String
  | keyword k => k.spelling
  | name => "name"
  | operand => "operand"
  | operator => "operator"
  | closing => ")"
  | endOfInput => SyntaxError.endOfInput

inductive Fault.Cause
  | missing (expectation : Expectation)
  | tooDeep (limit : Nat)
  deriving DecidableEq

structure Fault where
  ahead : List Char
  cause : Fault.Cause
  deriving DecidableEq

def byteSize : List Char → Nat
  | [] => 0
  | c :: rest => c.utf8Size + byteSize rest

def Fault.locate (f : Fault) (text : List Char) : SyntaxError :=
  let position := byteSize text - byteSize f.ahead
  match f.cause with
  | .missing expectation =>
    .invalidToken position [expectation.label] (SyntaxError.foundAt f.ahead)
  | .tooDeep limit => .tooDeep position limit

structure Reader (α : Type) where
  run : List Char → Except Fault (α × List Char)
  suffix : ∀ {input : List Char} {value : α} {rest : List Char},
    run input = .ok (value, rest) → rest <:+ input

structure Opener (α : Type) where
  after? : List Char → Option (α × List Char)
  shorter : ∀ {input : List Char} {value : α} {rest : List Char},
    after? input = some (value, rest) → rest <:+ input ∧ rest.length < input.length

namespace Reader

variable {α β : Type}

protected def pure (value : α) : Reader α where
  run input := .ok (value, input)
  suffix h := by
    simp only [Except.ok.injEq, Prod.mk.injEq] at h
    exact h.2 ▸ List.suffix_rfl

protected def bind (first : Reader α) (next : α → Reader β) : Reader β where
  run input :=
    match first.run input with
    | .ok (value, rest) => (next value).run rest
    | .error fault => .error fault
  suffix h := by
    split at h
    · rename_i value rest hfirst
      exact ((next value).suffix h).trans (first.suffix hfirst)
    · cases h

instance : Monad Reader where
  pure := Reader.pure
  bind := Reader.bind

def ofExcept (result : Except Fault α) : Reader α where
  run input :=
    match result with
    | .ok value => .ok (value, input)
    | .error fault => .error fault
  suffix h := by
    split at h
    · simp only [Except.ok.injEq, Prod.mk.injEq] at h
      exact h.2 ▸ List.suffix_rfl
    · cases h

def ahead : Reader (List Char) where
  run input := .ok (input, input)
  suffix h := by
    simp only [Except.ok.injEq, Prod.mk.injEq] at h
    exact h.2 ▸ List.suffix_rfl

def word (expectation : Expectation) (ends : Char → Bool) : Reader String where
  run input :=
    match input.takeWhile fun c => !ends c with
    | [] => .error ⟨input, .missing expectation⟩
    | c :: letters =>
      .ok (String.ofList (c :: letters), skipBlanks (input.dropWhile fun c => !ends c))
  suffix h := by
    split at h
    · cases h
    · simp only [Except.ok.injEq, Prod.mk.injEq] at h
      exact h.2 ▸ (skip_blanks_suffix _).trans (List.dropWhile_suffix _)

def opening (opener : Opener α) (expectation : Expectation) : Reader α where
  run input :=
    match opener.after? input with
    | some result => .ok result
    | none => .error ⟨input, .missing expectation⟩
  suffix h := by
    split at h
    · rename_i result hopen
      simp only [Except.ok.injEq] at h
      exact (opener.shorter (h ▸ hopen)).1
    · cases h

def optional (opener : Opener α) (part : α → Reader β) : Reader (Option β) where
  run input :=
    match opener.after? input with
    | some (kind, rest) =>
      match (part kind).run rest with
      | .ok (value, rest) => .ok (some value, rest)
      | .error fault => .error fault
    | none => .ok (none, input)
  suffix h := by
    split at h
    · rename_i kind rest hopen
      split at h
      · rename_i value rest' hpart
        simp only [Except.ok.injEq, Prod.mk.injEq] at h
        exact h.2 ▸ ((part kind).suffix hpart).trans (opener.shorter hopen).1
      · cases h
    · simp only [Except.ok.injEq, Prod.mk.injEq] at h
      exact h.2 ▸ List.suffix_rfl

def runMany (opener : Opener α) (part : α → Reader β) (input : List Char) :
    Except Fault (List β × List Char) :=
  match _hopen : opener.after? input with
  | none => .ok ([], input)
  | some (kind, rest) =>
    match _hpart : (part kind).run rest with
    | .error fault => .error fault
    | .ok (value, rest') =>
      match runMany opener part rest' with
      | .error fault => .error fault
      | .ok (values, rest'') => .ok (value :: values, rest'')
termination_by input.length
decreasing_by
  exact Nat.lt_of_le_of_lt ((part kind).suffix _hpart).length_le (opener.shorter _hopen).2

theorem run_many_suffix (opener : Opener α) (part : α → Reader β) {input : List Char}
    {values : List β} {rest : List Char} (h : runMany opener part input = .ok (values, rest)) :
    rest <:+ input := by
  fun_induction runMany opener part input generalizing values with
  | case1 input hopen =>
    simp only [Except.ok.injEq, Prod.mk.injEq] at h
    exact h.2 ▸ List.suffix_rfl
  | case2 => cases h
  | case3 => cases h
  | case4 input kind ahead hopen value rest' hpart values' rest'' hmany ih =>
    simp only [Except.ok.injEq, Prod.mk.injEq] at h
    obtain ⟨_, rfl⟩ := h
    exact ((ih hmany).trans ((part kind).suffix hpart)).trans (opener.shorter hopen).1

def many (opener : Opener α) (part : α → Reader β) : Reader (List β) where
  run := runMany opener part
  suffix := run_many_suffix opener part

def finish : Reader Unit where
  run input :=
    match skipBlanks input with
    | [] => .ok ((), [])
    | c :: rest => .error ⟨c :: rest, .missing .endOfInput⟩
  suffix h := by
    split at h
    · simp only [Except.ok.injEq, Prod.mk.injEq] at h
      exact h.2 ▸ List.nil_suffix
    · cases h

def parse (part : Reader α) (text : String) : Except SyntaxError α :=
  match (do let value ← part; finish; return value : Reader α).run (skipBlanks text.toList) with
  | .ok (value, _) => .ok value
  | .error fault => .error (fault.locate text.toList)

end Reader
end RelationalQuery
