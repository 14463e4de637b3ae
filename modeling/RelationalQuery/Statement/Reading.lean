import RelationalQuery.Statement.Nesting

/-!
# Reading statements and filters

    statement   := "select" names "from" names join-clause* ("where" filter)?
    names       := name ("," name)*
    join-clause := ("left" "outer" "join" | "inner" "join" | "join") name "on" filter
    filter      := conjunction ("or" conjunction)*
    conjunction := atom ("and" atom)*
    atom        := "(" filter ")" | operand operator operand

Names end at a blank or a comma; operands and operators end at a blank or a parenthesis. Neither is
compared with the keywords. No more than a limited number of parentheses may be open at once.
-/

set_option autoImplicit false

namespace RelationalQuery

namespace Opener

def keyword {α : Type} (k : Keyword) (value : α) : Opener α where
  after? input := (k.after? input).map fun rest => (value, rest)
  shorter h := by
    obtain ⟨_, hafter, heq⟩ := Option.map_eq_some_iff.mp h
    cases heq
    exact Keyword.after?_shorter hafter

def symbol (c : Char) : Opener Unit where
  after?
    | [] => none
    | first :: rest => if first = c then some ((), skipBlanks rest) else none
  shorter {input value rest} h := by
    match input, h with
    | first :: later, h =>
      simp only at h
      split at h
      · cases h
        have hsuffix := skip_blanks_suffix later
        exact ⟨hsuffix.trans (List.suffix_cons _ _), Nat.lt_succ_of_le hsuffix.length_le⟩
      · cases h

def orElse {α : Type} (a b : Opener α) : Opener α where
  after? input :=
    match a.after? input with
    | some result => some result
    | none => b.after? input
  shorter h := by
    split at h
    · rename_i result ha
      cases h
      exact a.shorter ha
    · exact b.shorter h

def joinKind : Opener JoinKind :=
  orElse (keyword .left .leftOuter) (orElse (keyword .inner .inner) (keyword .join .plain))

end Opener

namespace Reader

def keyword (k : Keyword) : Reader Unit := opening (Opener.keyword k ()) (.keyword k)

def operand : Reader String := word .operand fun c => isBlank c || isParenthesis c

def operator : Reader String := word .operator fun c => isBlank c || isParenthesis c

def condition : Reader Condition := do
  let left ← operand
  let operator ← operator
  let right ← operand
  return ⟨left, operator, right⟩

def maxNesting : Nat := 64

def group (start : List Char) : Option (Reader Term) → Reader Term
  | none => ofExcept (.error ⟨start, .tooDeep maxNesting⟩)
  | some inner => do
    let t ← inner
    opening (Opener.symbol ')') .closing
    return { t with start }

def atom (inner : Option (Reader Term)) : Reader Term := do
  let start ← ahead
  match ← optional (Opener.symbol '(') fun _ => group start inner with
  | some t => return t
  | none => return ⟨.condition (← condition), 1, start⟩

def chain (k : Keyword) (combine : Filter → Filter → Filter) (term : Reader Term) :
    Reader Term := do
  let first ← term
  let later ← many (Opener.keyword k ()) fun _ => term
  ofExcept (Term.chain combine first later)

def nested : Nat → Reader Term
  | 0 => chain .or .or (chain .and .and (atom none))
  | more + 1 => chain .or .or (chain .and .and (atom (some (nested more))))

def filter : Reader Filter := do
  let t ← nested maxNesting
  return t.filter

def name : Reader String := word .name fun c => isBlank c || c = ','

def names : Reader (List String) := do
  let first ← name
  let later ← many (Opener.symbol ',') fun _ => name
  return first :: later

def joinClause (kind : JoinKind) : Reader JoinClause := do
  match kind with
  | .leftOuter => keyword .outer; keyword .join
  | .inner => keyword .join
  | .plain => pure ()
  let table ← name
  keyword .on
  let on ← filter
  return ⟨kind, table, on⟩

def statement : Reader Statement := do
  keyword .select
  let columns ← names
  keyword .«from»
  let tables ← names
  let joins ← many Opener.joinKind joinClause
  let condition? ← optional (Opener.keyword .«where» ()) fun _ => filter
  return ⟨columns, tables, joins, condition?⟩

end Reader

def Statement.parse (text : String) : Except SyntaxError Statement := Reader.statement.parse text

def Filter.parse (text : String) : Except SyntaxError Filter := Reader.filter.parse text

end RelationalQuery
