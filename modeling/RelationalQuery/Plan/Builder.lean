import RelationalQuery.Plan

/-!
# Building plans step by step

A builder holds a stack of finished plans. A scan puts a plan on the stack; a join takes the two
topmost plans, the upper one as its right input, and puts the joined plan in their place. A join
that finds fewer than two plans is an error, after which no step has an effect.
-/

set_option autoImplicit false

namespace RelationalQuery

inductive PlanError
  | malformed (expected stackSize : Nat)
  deriving DecidableEq

def PlanError.message : PlanError → String
  | .malformed expected stackSize =>
    "malformed plan: expected " ++ toString expected ++ " node(s) on the stack, found " ++
      toString stackSize

namespace Plan

inductive Step
  | scan (table : String)
  | join (mode : JoinMode) (conditions : List JoinCondition)
  deriving DecidableEq

/-- The finished plans, the topmost first, and the first error. -/
structure Builder where
  stack : List Plan
  error? : Option PlanError
  deriving DecidableEq

namespace Builder

instance : EmptyCollection Builder := ⟨⟨[], none⟩⟩

def size (b : Builder) : Nat := b.stack.length

def isEmpty (b : Builder) : Bool := b.stack.isEmpty

def step (b : Builder) (s : Step) : Builder :=
  match b.error?, s, b.stack with
  | some _, _, _ => b
  | none, .scan table, stack => { b with stack := .scan table :: stack }
  | none, .join mode conditions, right :: left :: stack =>
    { b with stack := .join mode left right conditions :: stack }
  | none, .join _ _, stack => { b with error? := some (.malformed 2 stack.length) }

def run (steps : List Step) : Builder := steps.foldl step ∅

def build (b : Builder) : Except PlanError Plan :=
  match b.error?, b.stack with
  | some error, _ => .error error
  | none, [plan] => .ok plan
  | none, stack => .error (.malformed 1 stack.length)

end Builder
end Plan
end RelationalQuery
