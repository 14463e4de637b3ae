import RelationalQuery.Value

/-!
# Drafts

A record that is given by values at paths is drafted as a tree before it is made. A leaf of the tree
is a value that nothing has been written into, a branch is a record whose columns are still drafts.
A record that stands at a leaf is opened only when something is written below it.
-/

set_option autoImplicit false

namespace RelationalQuery

inductive Draft
  | leaf (value : Value)
  | branch (columns : Dictionary Draft)

namespace Draft

def opened : Draft → Draft
  | .leaf (.record content) => .branch (content.columns.map .leaf)
  | draft => draft

def place (columns : Dictionary Draft) : List String → Value → Dictionary Draft
  | [], _ => columns
  | [name], value => columns.insert name (.leaf value)
  | name :: path, value =>
    match ((columns.find? name).getD (.branch ∅)).opened with
    | .branch inner => columns.insert name (.branch (place inner path value))
    | .leaf _ => columns

mutual

def value : Draft → Value
  | .leaf value => value
  | .branch columns => .record ⟨finished columns, ∅⟩

def finished {low : Option String} : Dictionary Draft low → Dictionary Value low
  | .nil => .nil
  | .cons name above draft rest => .cons name above draft.value (finished rest)

end

end Draft
end RelationalQuery
