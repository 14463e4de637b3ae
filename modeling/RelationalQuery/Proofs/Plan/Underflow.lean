import RelationalQuery.Proofs.Plan.PostOrder

/-!
# What a builder reports

A join underflows if it finds fewer than two plans on the stack. The first join that does so leaves
the stack as it is and decides what is reported: no later step changes the builder. Without such a
join the stack holds as many plans as there were scans less joins, and what can be wrong at the end
is this number alone.
-/

set_option autoImplicit false

namespace RelationalQuery.Plan

def Step.isScan : Step → Bool
  | scan _ => true
  | join _ _ => false

def scans (steps : List Step) : Nat := steps.countP Step.isScan

def joins (steps : List Step) : Nat := steps.countP fun s => !s.isScan

namespace Builder

def Underflow (steps before : List Step) : Prop :=
  (∃ mode conditions, before ++ [.join mode conditions] <+: steps) ∧ (run before).size < 2

variable {steps before : List Step}

theorem not_underflow_nil : ¬ Underflow [] before := by
  rintro ⟨⟨mode, conditions, hjoin⟩, _⟩
  have hnil := List.prefix_nil.mp hjoin
  simp at hnil

theorem Underflow.length_lt (h : Underflow steps before) : before.length < steps.length := by
  obtain ⟨⟨mode, conditions, hjoin⟩, _⟩ := h
  have hlength := hjoin.length_le
  rw [List.length_append, List.length_singleton] at hlength
  omega

theorem Underflow.mono {later : List Step} (h : Underflow steps before) (hlater : steps <+: later) :
    Underflow later before := by
  obtain ⟨⟨mode, conditions, hjoin⟩, hsize⟩ := h
  exact ⟨⟨mode, conditions, hjoin.trans hlater⟩, hsize⟩

theorem underflow_concat {s : Step} : Underflow (steps ++ [s]) before ↔
    Underflow steps before ∨ before = steps ∧ s.isScan = false ∧ (run steps).size < 2 := by
  simp only [Underflow, List.prefix_concat_iff, exists_or, or_and_right]
  rw [or_comm]
  apply or_congr_right
  constructor
  · rintro ⟨⟨mode, conditions, hjoin⟩, hsize⟩
    obtain ⟨rfl, hlast⟩ := List.append_inj' hjoin rfl
    rw [← List.singleton_inj.mp hlast]
    exact ⟨rfl, rfl, hsize⟩
  · rintro ⟨rfl, hs, hsize⟩
    cases s with
    | scan table => contradiction
    | join mode conditions => exact ⟨⟨mode, conditions, rfl⟩, hsize⟩

theorem exists_first_underflow (steps : List Step) : (∀ before, ¬ Underflow steps before) ∨
    ∃ first, Underflow steps first ∧ ∀ before, Underflow steps before → first <+: before := by
  induction steps using List.reverseRecOn with
  | nil => exact .inl fun _ => not_underflow_nil
  | append_singleton steps s ih =>
    simp only [underflow_concat]
    rcases ih with hnone | ⟨first, hfirst, hleast⟩
    · by_cases hlast : s.isScan = false ∧ (run steps).size < 2
      · refine .inr ⟨steps, .inr ⟨rfl, hlast⟩, ?_⟩
        rintro before (hbefore | ⟨rfl, _⟩)
        · exact absurd hbefore (hnone before)
        · exact List.prefix_rfl
      · left
        rintro before (hbefore | ⟨_, hbefore⟩)
        · exact hnone before hbefore
        · exact hlast hbefore
    · refine .inr ⟨first, .inl hfirst, ?_⟩
      rintro before (hbefore | ⟨rfl, _⟩)
      · exact hleast before hbefore
      · obtain ⟨⟨mode, conditions, hjoin⟩, _⟩ := hfirst
        exact (List.prefix_append first _).trans hjoin

/-- A step other than an underflowing join adds one plan to the stack if it is a scan and takes one
away if it is a join. -/
theorem step_without_underflow {b : Builder} {s : Step} (herror : b.error? = none)
    (hfed : s.isScan = false → ¬ b.size < 2) :
    (b.step s).error? = none ∧ (b.step s).size + joins [s] = b.size + scans [s] := by
  obtain ⟨stack, error?⟩ := b
  cases herror
  cases s with
  | scan table => exact ⟨rfl, rfl⟩
  | join mode conditions =>
    match stack, hfed rfl with
    | right :: left :: stack, _ => exact ⟨rfl, rfl⟩
    | [plan], hshort => exact absurd (Nat.lt_add_one 1) hshort
    | [], hshort => exact absurd Nat.two_pos hshort

/-- Until a join underflows, the stack holds as many plans as there were scans less joins. -/
theorem run_without_underflow (h : ∀ before, ¬ Underflow steps before) :
    (run steps).error? = none ∧ (run steps).size + joins steps = scans steps := by
  induction steps using List.reverseRecOn with
  | nil => exact ⟨rfl, rfl⟩
  | append_singleton steps s ih =>
    simp only [underflow_concat, not_or, not_and] at h
    obtain ⟨herror, hsize⟩ := ih fun before => (h before).1
    obtain ⟨herror', hstep⟩ := step_without_underflow herror ((h steps).2 rfl)
    rw [run_concat]
    refine ⟨herror', ?_⟩
    rw [joins, scans, List.countP_append, List.countP_append, ← joins, ← joins, ← scans, ← scans]
    omega

theorem foldl_step_of_error {b : Builder} {error : PlanError} (h : b.error? = some error)
    (steps : List Step) : steps.foldl step b = b := by
  induction steps with
  | nil => rfl
  | cons s steps ih => rw [List.foldl_cons, step_of_error h, ih]

/-- From the first join that underflows on, the builder stays as this join has left it. -/
theorem run_after_underflow (hnone : ∀ earlier, ¬ Underflow before earlier)
    (hsize : (run before).size < 2) (mode : JoinMode) (conditions : List JoinCondition)
    (after : List Step) : run (before ++ [.join mode conditions] ++ after) =
      ⟨(run before).stack, some (.malformed 2 (run before).size)⟩ := by
  obtain ⟨herror, _⟩ := run_without_underflow hnone
  have hjoin : run (before ++ [.join mode conditions]) =
      ⟨(run before).stack, some (.malformed 2 (run before).size)⟩ := by
    rw [run_concat]
    generalize run before = b at *
    obtain ⟨stack, error?⟩ := b
    cases herror
    exact step_join_short hsize mode conditions
  rw [run, List.foldl_append, ← run, hjoin]
  exact foldl_step_of_error rfl after

theorem build_of_size {b : Builder} (h : b.error? = none) (hsize : b.size ≠ 1) :
    b.build = .error (.malformed 1 b.size) := by
  obtain ⟨stack, error?⟩ := b
  cases h
  match stack, hsize with
  | [], _ => rfl
  | [plan], hone => exact absurd rfl hone
  | top :: next :: stack, _ => rfl

/-- If a join underflows, the first one that does so keeps the size of the stack from there on and
is reported with this size. If none does, the size is the number of scans less that of joins after
any first steps, and a final size other than one is reported. -/
theorem underflow_reported (steps : List Step) :
    (∃ first, Underflow steps first ∧ (∀ before, Underflow steps before → first <+: before) ∧
      (∀ done, done <+: steps → first.length < done.length →
        (run done).size = (run first).size) ∧
      (run steps).build = .error (.malformed 2 (run first).size)) ∨
    ((∀ before, ¬ Underflow steps before) ∧
      (∀ done, done <+: steps → (run done).size + joins done = scans done) ∧
      ((run steps).size ≠ 1 → (run steps).build = .error (.malformed 1 (run steps).size))) := by
  rcases exists_first_underflow steps with hnone | ⟨first, hfirst, hleast⟩
  · right
    refine ⟨hnone, ?_, build_of_size (run_without_underflow hnone).1⟩
    intro done hdone
    exact (run_without_underflow fun before h => hnone before (h.mono hdone)).2
  · left
    obtain ⟨⟨mode, conditions, hjoin⟩, hsize⟩ := hfirst
    have hbefore : ∀ earlier, ¬ Underflow first earlier := by
      intro earlier hearlier
      have hle := (hleast earlier (hearlier.mono ((List.prefix_append _ _).trans hjoin))).length_le
      have hlt := hearlier.length_lt
      omega
    have hrun := run_after_underflow hbefore hsize mode conditions
    refine ⟨first, ⟨⟨mode, conditions, hjoin⟩, hsize⟩, hleast, ?_, ?_⟩
    · intro done hdone hlength
      have hlonger : first ++ [.join mode conditions] <+: done := by
        apply List.prefix_of_prefix_length_le hjoin hdone
        rw [List.length_append]
        exact hlength
      obtain ⟨after, rfl⟩ := hlonger
      rw [hrun]
      rfl
    · obtain ⟨after, rfl⟩ := hjoin
      rw [hrun]
      rfl

def earlyJoin : List Step :=
  [.scan "a", .join .inner [], .scan "b", .scan "c", .join .cartesian []]

theorem underflow_reported_early_join :
    Underflow earlyJoin [.scan "a"] ∧ (run earlyJoin).build = .error (.malformed 2 1) ∧
      ∀ done, done <+: earlyJoin → 1 < done.length → (run done).size = 1 := by
  have hearly : Underflow earlyJoin [.scan "a"] := ⟨⟨.inner, [], ⟨_, rfl⟩⟩, by decide⟩
  rcases underflow_reported earlyJoin with ⟨first, hfirst, hleast, hsizes, hbuild⟩ | ⟨hnone, _⟩
  · have heq : first = [.scan "a"] := by
      have hprefix : first <+: [] ++ [.scan "a"] := hleast _ hearly
      rcases List.prefix_concat_iff.mp hprefix with heq | hnil
      · exact heq
      · obtain ⟨⟨mode, conditions, hjoin⟩, _⟩ := hfirst
        rw [List.prefix_nil.mp hnil] at hjoin
        simp [earlyJoin] at hjoin
    subst heq
    exact ⟨hearly, hbuild, hsizes⟩
  · exact absurd hearly (hnone _)

end Builder
end RelationalQuery.Plan
