import RelationalQuery.Statement.Reading

/-!
# Reading by byte positions

The readers of this library pass the input that is left from one to the next. The same reading is
written here with one cursor that moves through the text by numbers of bytes. The text is only seen
through slices at byte positions, and a slice that is not on a boundary of two characters ends the
run. The cursor keeps every position that it takes.
-/

set_option autoImplicit false

namespace RelationalQuery

def sliceFrom? : List Char → Nat → Option (List Char)
  | text, 0 => some text
  | [], _ + 1 => none
  | c :: text, bytes + 1 =>
    if c.utf8Size ≤ bytes + 1 then sliceFrom? text (bytes + 1 - c.utf8Size) else none

def sliceTo? : List Char → Nat → Option (List Char)
  | _, 0 => some []
  | [], _ + 1 => none
  | c :: text, bytes + 1 =>
    if c.utf8Size ≤ bytes + 1 then (sliceTo? text (bytes + 1 - c.utf8Size)).map (c :: ·) else none

def findBytes? (is : Char → Bool) : List Char → Option Nat
  | [] => none
  | c :: text => if is c then some 0 else (findBytes? is text).map (c.utf8Size + ·)

inductive Halt
  | refused (e : SyntaxError)
  | offBoundary
  | endless
  deriving DecidableEq

structure Cursor where
  position : Nat
  visited : List Nat
  deriving DecidableEq

namespace Cursor

def atStart : Cursor := ⟨0, [0]⟩

def advance (cursor : Cursor) (bytes : Nat) : Cursor :=
  ⟨cursor.position + bytes, (cursor.position + bytes) :: cursor.visited⟩

end Cursor

structure Scan (α : Type) where
  run : List Char → Cursor → Except Halt α × Cursor

namespace Scan

variable {α β : Type}

protected def pure (value : α) : Scan α where
  run _ cursor := (.ok value, cursor)

protected def bind (first : Scan α) (next : α → Scan β) : Scan β where
  run text cursor :=
    match first.run text cursor with
    | (.ok value, cursor) => (next value).run text cursor
    | (.error halt, cursor) => (.error halt, cursor)

instance : Monad Scan where
  pure := Scan.pure
  bind := Scan.bind

def halt (h : Halt) : Scan α where
  run _ cursor := (.error h, cursor)

def position : Scan Nat where
  run _ cursor := (.ok cursor.position, cursor)

def move (bytes : Nat) : Scan Unit where
  run _ cursor := (.ok (), cursor.advance bytes)

def sliced (part? : Option (List Char)) : Scan (List Char) :=
  match part? with
  | some part => return part
  | none => halt .offBoundary

def rest : Scan (List Char) where
  run text cursor := (sliced (sliceFrom? text cursor.position)).run text cursor

def peek : Scan (Option Char) := do return (← rest).head?

def advance : Scan Unit := do
  match ← peek with
  | some c => move c.utf8Size
  | none => return ()

def rounds (step : Scan (Option α)) : Nat → Scan (List α)
  | 0 => halt .endless
  | more + 1 => do
    match ← step with
    | some value => return value :: (← rounds step more)
    | none => return []

def loop (step : Scan (Option α)) : Scan (List α) where
  run text := (rounds step (byteSize text + 1)).run text

def optional (opens : Scan Bool) (part : Scan α) : Scan (Option α) := do
  if ← opens then return some (← part) else return none

def skipBlank : Scan (Option Unit) := do
  match ← peek with
  | some c => if isBlank c then return some (← advance) else return none
  | none => return none

def skipBlanks : Scan Unit := do
  let _ ← loop skipBlank
  return ()

def found : Scan String := do
  let input ← rest
  match input, findBytes? isBoundary input with
  | [], _ => return SyntaxError.endOfInput
  | _, some 0 => return String.ofList (input.take 1)
  | _, some bytes => return String.ofList (← sliced (sliceTo? input bytes))
  | _, none => return String.ofList input

def refuse (expected : String) : Scan α := do
  let position ← position
  let found ← found
  halt (.refused (.invalidToken position [expected] found))

def bytes (s : String) : Nat := byteSize s.toList

def atKeyword (k : Keyword) : Scan Bool := do
  let input ← rest
  match sliceTo? input (bytes k.spelling) with
  | some head =>
    if head.map Char.toLower = k.spelling.toList then
      match (← sliced (sliceFrom? input (bytes k.spelling))).head? with
      | some c => return isBoundary c
      | none => return true
    else return false
  | none => return false

def eatKeyword (k : Keyword) : Scan Bool := do
  if ← atKeyword k then
    move (bytes k.spelling)
    skipBlanks
    return true
  else return false

def expectKeyword (k : Keyword) : Scan Unit := do
  if ← eatKeyword k then return () else refuse k.spelling

def eatSymbol (c : Char) : Scan Bool := do
  if (← peek) = some c then
    advance
    skipBlanks
    return true
  else return false

def expectSymbol (c : Char) : Scan Unit := do
  if ← eatSymbol c then return () else refuse c.toString

def expectEnd : Scan Unit := do
  skipBlanks
  match ← peek with
  | some _ => refuse SyntaxError.endOfInput
  | none => return ()

def token (what : String) (ends : Char → Bool) : Scan String := do
  let input ← rest
  let bytes := (findBytes? ends input).getD (byteSize input)
  if bytes = 0 then refuse what
  else
    let word ← sliced (sliceTo? input bytes)
    move bytes
    skipBlanks
    return String.ofList word

def operand : Scan String := token "operand" fun c => isBlank c || isParenthesis c

def operator : Scan String := token "operator" fun c => isBlank c || isParenthesis c

def condition : Scan Condition := do
  let left ← operand
  let operator ← operator
  let right ← operand
  return ⟨left, operator, right⟩

end Scan

structure PlacedTerm where
  filter : Filter
  depth : Nat
  position : Nat
  deriving DecidableEq

namespace PlacedTerm

def reach (above : Nat) (t : PlacedTerm) : Scan Nat :=
  if above + t.depth > Term.maxDepth then
    Scan.halt (.refused (.tooDeep t.position Term.maxDepth))
  else return above + t.depth

def reachOfChain (above : Nat) : PlacedTerm → List PlacedTerm → Scan Nat
  | last, [] => last.reach above
  | t, next :: later => do
    let here ← t.reach (above + 1)
    let below ← reachOfChain (above + 1) next later
    return max here below

def combineChain (combine : Filter → Filter → Filter) : PlacedTerm → List PlacedTerm → Filter
  | last, [] => last.filter
  | t, next :: later => combine t.filter (combineChain combine next later)

def chain (combine : Filter → Filter → Filter) (first : PlacedTerm) (later : List PlacedTerm) :
    Scan PlacedTerm := do
  let depth ← reachOfChain 0 first later
  return ⟨combineChain combine first later, depth, first.position⟩

end PlacedTerm

namespace Scan

variable {α : Type}

def group (position : Nat) : Option (Scan PlacedTerm) → Scan PlacedTerm
  | none => halt (.refused (.tooDeep position Reader.maxNesting))
  | some inner => do
    advance
    skipBlanks
    let t ← inner
    expectSymbol ')'
    return { t with position }

def atom (inner : Option (Scan PlacedTerm)) : Scan PlacedTerm := do
  let position ← position
  if (← peek) = some '(' then group position inner
  else return ⟨.condition (← condition), 1, position⟩

def chain (k : Keyword) (combine : Filter → Filter → Filter) (term : Scan PlacedTerm) :
    Scan PlacedTerm := do
  let first ← term
  let later ← loop (optional (eatKeyword k) term)
  PlacedTerm.chain combine first later

def nested : Nat → Scan PlacedTerm
  | 0 => chain .or .or (chain .and .and (atom none))
  | more + 1 => chain .or .or (chain .and .and (atom (some (nested more))))

def filter : Scan Filter := do
  let t ← nested Reader.maxNesting
  return t.filter

def name : Scan String := token "name" fun c => isBlank c || c = ','

def names : Scan (List String) := do
  let first ← name
  let later ← loop (optional (eatSymbol ',') name)
  return first :: later

def joinKind : Scan (Option JoinKind) := do
  if ← eatKeyword .left then
    expectKeyword .outer
    expectKeyword .join
    return some .leftOuter
  else if ← eatKeyword .inner then
    expectKeyword .join
    return some .inner
  else if ← eatKeyword .join then return some .plain
  else return none

def joinClause : Scan (Option JoinClause) := do
  match ← joinKind with
  | some kind =>
    let table ← name
    expectKeyword .on
    let on ← filter
    return some ⟨kind, table, on⟩
  | none => return none

def statement : Scan Statement := do
  expectKeyword .select
  let columns ← names
  expectKeyword .«from»
  let tables ← names
  let joins ← loop joinClause
  let condition? ← optional (eatKeyword .«where») filter
  return ⟨columns, tables, joins, condition?⟩

def parse (part : Scan α) (text : String) : Except Halt α × Cursor :=
  (do skipBlanks; let value ← part; expectEnd; return value : Scan α).run text.toList .atStart

end Scan
end RelationalQuery
