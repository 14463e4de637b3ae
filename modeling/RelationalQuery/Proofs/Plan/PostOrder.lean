import Mathlib.Data.List.Induction
import RelationalQuery.Plan.Builder
import RelationalQuery.Proofs.Plan.Traversal

/-!
# Plans in post-order

The post-order of a plan lists the steps of its left input, then those of its right input, then the
join itself. A builder that follows the post-order of a plan puts this plan on its stack. The other
way round, the steps that a builder has followed without an error are the post-orders of the plans
on its stack, one after another from the bottom. So each plan is built by its post-order alone.
-/

set_option autoImplicit false

namespace RelationalQuery.Plan

def postOrder : Plan → List Step
  | scan table => [.scan table]
  | join mode left right conditions =>
    left.postOrder ++ right.postOrder ++ [.join mode conditions]

def Step.scanned? : Step → Option String
  | scan table => some table
  | join _ _ => none

theorem scanned_post_order (plan : Plan) :
    plan.postOrder.filterMap Step.scanned? = plan.tables := by
  induction plan with
  | scan table => rw [tables_scan]; rfl
  | join mode left right conditions ihLeft ihRight =>
    rw [tables_join, postOrder, List.filterMap_append, List.filterMap_append, ihLeft, ihRight]
    exact List.append_nil _

namespace Builder

def followed (b : Builder) : List Step := b.stack.reverse.flatMap postOrder

theorem step_of_error {b : Builder} {error : PlanError} (h : b.error? = some error) (s : Step) :
    b.step s = b := by
  simp only [step, h]

theorem step_scan (stack : List Plan) (table : String) :
    (Builder.mk stack none).step (.scan table) = ⟨.scan table :: stack, none⟩ := rfl

theorem step_join (stack : List Plan) (left right : Plan) (mode : JoinMode)
    (conditions : List JoinCondition) :
    (Builder.mk (right :: left :: stack) none).step (.join mode conditions) =
      ⟨.join mode left right conditions :: stack, none⟩ := rfl

theorem step_join_short {stack : List Plan} (h : stack.length < 2) (mode : JoinMode)
    (conditions : List JoinCondition) :
    (Builder.mk stack none).step (.join mode conditions) =
      ⟨stack, some (.malformed 2 stack.length)⟩ := by
  match stack, h with
  | [], _ => rfl
  | [plan], _ => rfl

theorem followed_step {b : Builder} {s : Step} (h : (b.step s).error? = none) :
    b.error? = none ∧ (b.step s).followed = b.followed ++ [s] := by
  obtain ⟨stack, error?⟩ := b
  cases error? with
  | some error =>
    rw [step_of_error rfl] at h
    cases h
  | none =>
    refine ⟨rfl, ?_⟩
    cases s with
    | scan table =>
      rw [step_scan, followed, List.reverse_cons, List.flatMap_append]
      rfl
    | join mode conditions =>
      by_cases hsize : stack.length < 2
      · rw [step_join_short hsize] at h
        cases h
      · match stack, hsize with
        | right :: left :: stack, _ =>
          rw [step_join]
          simp only [followed, List.reverse_cons, List.flatMap_append, List.flatMap_singleton,
            postOrder, List.append_assoc]
        | [plan], hsize => exact absurd (by simp) hsize
        | [], hsize => exact absurd (by simp) hsize

theorem run_concat (steps : List Step) (s : Step) : run (steps ++ [s]) = (run steps).step s := by
  rw [run, List.foldl_append]
  rfl

/-- The plans on the stack account for every step. -/
theorem followed_run {steps : List Step} (h : (run steps).error? = none) :
    (run steps).followed = steps := by
  induction steps using List.reverseRecOn with
  | nil => rfl
  | append_singleton steps s ih =>
    rw [run_concat] at h ⊢
    obtain ⟨hbefore, hstep⟩ := followed_step h
    rw [hstep, ih hbefore]

/-- The post-order of a plan puts it on top of whatever is on the stack. -/
theorem foldl_step_post_order (plan : Plan) (stack : List Plan) :
    plan.postOrder.foldl step ⟨stack, none⟩ = ⟨plan :: stack, none⟩ := by
  induction plan generalizing stack with
  | scan table => rfl
  | join mode left right conditions ihLeft ihRight =>
    rw [postOrder, List.foldl_append, List.foldl_append, ihLeft, ihRight]
    exact step_join stack left right mode conditions

theorem build_ok {b : Builder} {plan : Plan} :
    b.build = .ok plan ↔ b.error? = none ∧ b.stack = [plan] := by
  obtain ⟨stack, error?⟩ := b
  cases error? with
  | some error => simp [build]
  | none =>
    match stack with
    | [] => simp [build]
    | [top] => simp [build]
    | top :: next :: stack => simp [build]

end Builder

theorem build_iff_post_order {steps : List Step} {plan : Plan} :
    (Builder.run steps).build = .ok plan ↔ steps = plan.postOrder := by
  rw [Builder.build_ok]
  constructor
  · rintro ⟨herror, hstack⟩
    rw [← Builder.followed_run herror, Builder.followed, hstack]
    exact List.append_nil _
  · rintro rfl
    have hrun : Builder.run plan.postOrder = ⟨[plan], none⟩ :=
      Builder.foldl_step_post_order plan []
    rw [hrun]
    exact ⟨rfl, rfl⟩

/-- A plan is built by its post-order and by no other steps, and its tables are those that the steps
scan, in the same order. -/
theorem post_order_inverse_build (steps : List Step) (plan : Plan) :
    ((Builder.run steps).build = .ok plan ↔ steps = plan.postOrder) ∧
      (∃! written : List Step, (Builder.run written).build = .ok plan) ∧
      ((Builder.run steps).build = .ok plan → plan.tables = steps.filterMap Step.scanned?) := by
  refine ⟨build_iff_post_order, ⟨plan.postOrder, build_iff_post_order.mpr rfl, ?_⟩, ?_⟩
  · intro written hwritten
    exact build_iff_post_order.mp hwritten
  · intro hbuild
    rw [build_iff_post_order.mp hbuild, scanned_post_order]

def bushySteps : List Step :=
  [.scan "a", .scan "b", .join .inner [⟨"id", "id"⟩], .scan "a", .scan "c", .join .cartesian [],
    .join .leftOuter [⟨"left.id", "right.id"⟩, ⟨"x", "y"⟩]]

theorem post_order_inverse_build_bushy :
    ∃ plan, (Builder.run bushySteps).build = .ok plan ∧ bushySteps = plan.postOrder ∧
      plan.tables = ["a", "b", "a", "c"] := by
  have hbuild : (Builder.run bushySteps).build = .ok
      (.join .leftOuter (.join .inner (.scan "a") (.scan "b") [⟨"id", "id"⟩])
        (.join .cartesian (.scan "a") (.scan "c") [])
        [⟨"left.id", "right.id"⟩, ⟨"x", "y"⟩]) := rfl
  obtain ⟨hinverse, _, htables⟩ := post_order_inverse_build bushySteps _
  exact ⟨_, hbuild, hinverse.mp hbuild, htables hbuild⟩

end RelationalQuery.Plan
