import RelationalQuery.Statement
import RelationalQuery.Statement.Reader

/-!
# Chains of a connective

A chain `a and b and c` nests to the right, `a and (b and c)`. A filter may not be deeper than a
limit. The depth at which a term of a chain comes to stand is known before the tree is built, and a
chain that would be too deep is refused at its first term that would reach below the limit.
-/

set_option autoImplicit false

namespace RelationalQuery

structure Term where
  filter : Filter
  depth : Nat
  start : List Char
  deriving DecidableEq

namespace Term

def maxDepth : Nat := 512

def reach (above : Nat) (t : Term) : Except Fault Nat :=
  if above + t.depth > maxDepth then .error ⟨t.start, .tooDeep maxDepth⟩ else .ok (above + t.depth)

/-- The lowest level that a chain reaches, if it stands below some connectives. All terms but the
last stand below one connective more than the terms before them, the last beside the one before. -/
def reachOfChain (above : Nat) : Term → List Term → Except Fault Nat
  | last, [] => last.reach above
  | t, next :: later => do
    let here ← t.reach (above + 1)
    let below ← reachOfChain (above + 1) next later
    return max here below

def combineChain (combine : Filter → Filter → Filter) : Term → List Term → Filter
  | last, [] => last.filter
  | t, next :: later => combine t.filter (combineChain combine next later)

def chain (combine : Filter → Filter → Filter) (first : Term) (later : List Term) :
    Except Fault Term := do
  let depth ← reachOfChain 0 first later
  return ⟨combineChain combine first later, depth, first.start⟩

end Term
end RelationalQuery
