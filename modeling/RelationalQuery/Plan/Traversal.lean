import RelationalQuery.Plan

/-!
# Walking through a plan

The depth of a plan and the names of the tables it scans. Both are found with a list of the
subtrees that are still to be visited, so that a walk needs no deeper call stack for a deeper plan.
Each step takes one node away from the list, whose total number of nodes bounds the walk.
-/

set_option autoImplicit false

namespace RelationalQuery.Plan

def size : Plan → Nat
  | scan _ => 1
  | join _ left right _ => left.size + right.size + 1

def totalSize : List Plan → Nat
  | [] => 0
  | plan :: pending => plan.size + totalSize pending

/-- The deepest level found so far or in the pending subtrees, each given with the level of its
root. -/
def deepest : List (Plan × Nat) → Nat → Nat
  | [], best => best
  | (scan _, level) :: pending, best => deepest pending (max best level)
  | (join _ left right _, level) :: pending, best =>
    deepest ((right, level + 1) :: (left, level + 1) :: pending) (max best level)
termination_by pending => totalSize (pending.map Prod.fst)
decreasing_by all_goals simp only [List.map_cons, totalSize, size]; omega

def depth (plan : Plan) : Nat := deepest [(plan, 1)] 0

def scanned : List Plan → List String
  | [] => []
  | scan table :: pending => table :: scanned pending
  | join _ left right _ :: pending => scanned (left :: right :: pending)
termination_by pending => totalSize pending
decreasing_by all_goals simp only [totalSize, size]; omega

def tables (plan : Plan) : List String := scanned [plan]

end RelationalQuery.Plan
