/-!
# Characters and keywords

Blanks separate the words of a statement. A keyword is read in any mixture of upper and lower case
of the letters A to Z, and it has to end where a word ends: at a blank, a parenthesis, a comma or
the end of the input.
-/

set_option autoImplicit false

namespace RelationalQuery

def isBlank (c : Char) : Bool := c = ' ' || c = '\t' || c = '\r' || c = '\n'

def isParenthesis (c : Char) : Bool := c = '(' || c = ')'

def isBoundary (c : Char) : Bool := isBlank c || isParenthesis c || c = ','

def skipBlanks (input : List Char) : List Char := input.dropWhile isBlank

theorem skip_blanks_suffix (input : List Char) : skipBlanks input <:+ input :=
  List.dropWhile_suffix _

inductive Keyword
  | select
  | «from»
  | «where»
  | left
  | outer
  | inner
  | join
  | on
  | and
  | or
  deriving DecidableEq

namespace Keyword

def spelling : Keyword → String
  | .select => "select"
  | .«from» => "from"
  | .«where» => "where"
  | .left => "left"
  | .outer => "outer"
  | .inner => "inner"
  | .join => "join"
  | .on => "on"
  | .and => "and"
  | .or => "or"

def afterLetters? : List Char → List Char → Option (List Char)
  | [], input => some input
  | _ :: _, [] => none
  | letter :: letters, c :: input =>
    if c.toLower = letter then afterLetters? letters input else none

def after? (k : Keyword) (input : List Char) : Option (List Char) :=
  match afterLetters? k.spelling.toList input with
  | some [] => some []
  | some (c :: rest) => if isBoundary c then some (skipBlanks (c :: rest)) else none
  | none => none

theorem after_letters?_eq {letters input rest : List Char}
    (h : afterLetters? letters input = some rest) :
    ∃ read : List Char, read.length = letters.length ∧ input = read ++ rest := by
  induction letters generalizing input with
  | nil => exact ⟨[], rfl, by simpa [afterLetters?] using h⟩
  | cons letter letters ih =>
    cases input with
    | nil => simp [afterLetters?] at h
    | cons c input =>
      simp only [afterLetters?] at h
      split at h
      · obtain ⟨read, hlength, rfl⟩ := ih h
        exact ⟨c :: read, by simp [hlength], rfl⟩
      · cases h

theorem after?_shorter {k : Keyword} {input rest : List Char}
    (h : k.after? input = some rest) : rest <:+ input ∧ rest.length < input.length := by
  have positive : 0 < k.spelling.toList.length := by cases k <;> decide
  have key : ∃ ahead,
      afterLetters? k.spelling.toList input = some ahead ∧ rest <:+ ahead := by
    unfold after? at h
    split at h
    · rename_i hafter
      exact ⟨[], hafter, by simp_all⟩
    · rename_i c ahead hafter
      split at h
      · exact ⟨c :: ahead, hafter, Option.some.inj h ▸ skip_blanks_suffix _⟩
      · cases h
    · cases h
  obtain ⟨ahead, hafter, hsuffix⟩ := key
  obtain ⟨read, hread, rfl⟩ := after_letters?_eq hafter
  have hlength := hsuffix.length_le
  refine ⟨hsuffix.trans (List.suffix_append _ _), ?_⟩
  rw [List.length_append]
  omega

end Keyword
end RelationalQuery
