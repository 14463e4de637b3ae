import RelationalQuery.Text.Unprintable

/-!
# Quoted text

A text value is shown between quotation marks on a single line. A quotation mark, a backslash and
the usual control characters stand behind a backslash; every other character that cannot be seen
is named by its code point.
-/

set_option autoImplicit false

namespace RelationalQuery.Text

def codePoint (c : Char) : List Char := Nat.toDigits 16 c.toNat

def escape (c : Char) : List Char :=
  match c with
  | '\x00' => ['\\', '0']
  | '\t' => ['\\', 't']
  | '\r' => ['\\', 'r']
  | '\n' => ['\\', 'n']
  | '"' => ['\\', '"']
  | '\\' => ['\\', '\\']
  | c => if unprintable c then ['\\', 'u', '\x7b'] ++ codePoint c ++ ['\x7d'] else [c]

def quote (s : String) : String := String.ofList ('"' :: s.toList.flatMap escape ++ ['"'])

end RelationalQuery.Text
