import RelationalQuery.Statement.Keyword

/-!
# Syntax errors

An error names the byte position in the text at which reading stopped. Its report shows the line of
the text with a mark below the character at that position.
-/

set_option autoImplicit false

namespace RelationalQuery

inductive SyntaxError
  | invalidToken (position : Nat) (expected : List String) (found : String)
  | tooDeep (position limit : Nat)
  deriving DecidableEq

structure Place where
  line : Nat
  column : Nat
  deriving DecidableEq

namespace Place

def first : Place := ⟨1, 1⟩

def next (p : Place) (c : Char) : Place :=
  if c = '\n' then ⟨p.line + 1, 1⟩ else ⟨p.line, p.column + 1⟩

def advance (p : Place) : List Char → Nat → Place
  | _, 0 => p
  | [], _ => p
  | c :: text, offset => (p.next c).advance text (offset - c.utf8Size)

def ofPosition (text : String) (position : Nat) : Place := first.advance text.toList position

end Place

def dropCarriageReturn (line : List Char) : List Char :=
  if line.getLast? = some '\r' then line.dropLast else line

def lineOf (text : String) (number : Nat) : String :=
  match (text.toList.splitOn '\n').drop (number - 1) with
  | [] => ""
  | [last] => String.ofList last
  | line :: _ :: _ => String.ofList (dropCarriageReturn line)

def alignRight (width number : Nat) : String :=
  let digits := toString number
  String.ofList (List.replicate (width - digits.length) ' ') ++ digits

namespace SyntaxError

def endOfInput : String := "end of input"

def foundAt : List Char → String
  | [] => endOfInput
  | c :: rest =>
    if isBoundary c then String.ofList [c]
    else String.ofList ((c :: rest).takeWhile fun c => !isBoundary c)

def position : SyntaxError → Nat
  | invalidToken position _ _ => position
  | tooDeep position _ => position

def expected : SyntaxError → List String
  | invalidToken _ expected _ => expected
  | tooDeep _ _ => []

def backquoted (s : String) : String := "`" ++ s ++ "`"

def alternatives : List String → String
  | [] => "nothing"
  | [only] => backquoted only
  | several => "one of " ++ String.intercalate ", " (several.map backquoted)

def message : SyntaxError → String
  | invalidToken position expected found =>
    "invalid token at position " ++ toString position ++ ": expected " ++ alternatives expected ++
      ", found " ++ backquoted found
  | tooDeep position limit =>
    "filter nesting at position " ++ toString position ++ " exceeds the limit of " ++ toString limit

def report (e : SyntaxError) (text : String) : String :=
  let place := Place.ofPosition text e.position
  "error: " ++ e.message ++ "\n" ++
    "  --> line " ++ toString place.line ++ ":" ++ toString place.column ++ "\n" ++
    "   |\n" ++
    alignRight 3 place.line ++ "| " ++ lineOf text place.line ++ "\n" ++
    "   |" ++ String.ofList (List.replicate place.column ' ') ++ "^\n"

end SyntaxError
end RelationalQuery
