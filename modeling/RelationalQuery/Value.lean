import RelationalQuery.Dictionary

/-!
# Values and records

A value is a scalar or a nested record. A record holds a value under each of its columns and may
carry aliases: further names, each standing for the dotted name of a column.

Equality (`==`) and order (`compare`) look at the columns alone. At no level do they look at
aliases, so rows that differ only in their aliases count as the same row.
-/

set_option autoImplicit false

namespace RelationalQuery

inductive Scalar
  | null
  | boolean (truth : Bool)
  | integer (number : Int64)
  | text (characters : String)
  deriving DecidableEq

mutual

inductive Value
  | scalar (content : Scalar)
  | record (content : Record)

structure Record where
  columns : Dictionary Value
  aliases : Dictionary String

end

namespace Scalar

def rank : Scalar → Nat
  | null => 0
  | boolean _ => 1
  | integer _ => 2
  | text _ => 3

def order : Scalar → Scalar → Ordering
  | boolean a, boolean b => compare a b
  | integer a, integer b => compare a b
  | text a, text b => compare a b
  | a, b => compare a.rank b.rank

instance : Ord Scalar := ⟨Scalar.order⟩

end Scalar

mutual

def Value.same : Value → Value → Bool
  | .scalar a, .scalar b => decide (a = b)
  | .record a, .record b => Record.same a b
  | .scalar _, .record _ => false
  | .record _, .scalar _ => false

def Record.same : Record → Record → Bool
  | ⟨columns, _⟩, ⟨columns', _⟩ => Record.sameColumns columns columns'

def Record.sameColumns {low low' : Option String} :
    Dictionary Value low → Dictionary Value low' → Bool
  | .nil, .nil => true
  | .cons name _ value rest, .cons name' _ value' rest' =>
    decide (name = name') && Value.same value value' && Record.sameColumns rest rest'
  | .nil, .cons .. => false
  | .cons .., .nil => false

end

instance : BEq Value := ⟨Value.same⟩
instance : BEq Record := ⟨Record.same⟩

theorem Value.same_record (a b : Record) : Value.same (.record a) (.record b) = (a == b) := rfl

mutual

def Value.order : Value → Value → Ordering
  | .scalar a, .scalar b => compare a b
  | .record a, .record b => Record.order a b
  | .scalar _, .record _ => .lt
  | .record _, .scalar _ => .gt

def Record.order : Record → Record → Ordering
  | ⟨columns, _⟩, ⟨columns', _⟩ => Record.orderColumns columns columns'

def Record.orderColumns {low low' : Option String} :
    Dictionary Value low → Dictionary Value low' → Ordering
  | .nil, .nil => .eq
  | .nil, .cons .. => .lt
  | .cons .., .nil => .gt
  | .cons name _ value rest, .cons name' _ value' rest' =>
    (compare name name').then
      ((Value.order value value').then (Record.orderColumns rest rest'))

end

instance : Ord Value := ⟨Value.order⟩
instance : Ord Record := ⟨Record.order⟩

namespace Value

abbrev null : Value := .scalar .null
abbrev boolean (truth : Bool) : Value := .scalar (.boolean truth)
abbrev integer (number : Int64) : Value := .scalar (.integer number)
abbrev text (characters : String) : Value := .scalar (.text characters)

instance : Inhabited Value := ⟨null⟩

def isNull : Value → Bool
  | .scalar .null => true
  | _ => false

def boolean? : Value → Option Bool
  | .scalar (.boolean truth) => some truth
  | _ => none

def integer? : Value → Option Int64
  | .scalar (.integer number) => some number
  | _ => none

def text? : Value → Option String
  | .scalar (.text characters) => some characters
  | _ => none

def record? : Value → Option Record
  | .record content => some content
  | .scalar _ => none

def ofOption (value : Option Value) : Value := value.getD null

end Value
end RelationalQuery
