import RelationalQuery.Statement.Nesting
import Mathlib.Tactic.Common

/-!
# Depth of chains

The depth found for a chain before its tree is built is the depth of that tree.
-/

set_option autoImplicit false

namespace RelationalQuery.Term

def Measured (t : Term) : Prop := t.depth = t.filter.depth

theorem reach_ok {above depth : Nat} {t : Term} :
    t.reach above = .ok depth ↔ above + t.depth ≤ maxDepth ∧ depth = above + t.depth := by
  unfold reach
  split
  · rename_i h
    simp only [reduceCtorEq, false_iff, not_and]
    omega
  · rename_i h
    simp only [Except.ok.injEq]
    omega

theorem reach_of_chain_cons_error {above : Nat} {t next : Term} {later : List Term}
    {fault : Fault} :
    reachOfChain above t (next :: later) = .error fault ↔
      t.reach (above + 1) = .error fault ∨
        ∃ here, t.reach (above + 1) = .ok here ∧
          reachOfChain (above + 1) next later = .error fault := by
  simp only [reachOfChain, bind, Except.bind, pure, Except.pure]
  cases t.reach (above + 1) with
  | error found => simp
  | ok here => cases reachOfChain (above + 1) next later <;> simp

theorem chain_eq_error {combine : Filter → Filter → Filter} {first : Term} {later : List Term}
    {fault : Fault} : chain combine first later = .error fault ↔
      reachOfChain 0 first later = .error fault := by
  simp only [chain, bind, Except.bind, pure, Except.pure]
  cases reachOfChain 0 first later <;> simp

section
variable {combine : Filter → Filter → Filter}
  (hcombine : ∀ f g, (combine f g).depth = max f.depth g.depth + 1)
include hcombine

theorem reach_of_chain_ok {above depth : Nat} {first : Term} {later : List Term}
    (hmeasured : ∀ t ∈ first :: later, t.Measured) :
    reachOfChain above first later = .ok depth ↔
      above + (combineChain combine first later).depth ≤ maxDepth ∧
        depth = above + (combineChain combine first later).depth := by
  induction later generalizing first above depth with
  | nil =>
    have hfirst : first.depth = first.filter.depth := hmeasured first (by simp)
    rw [reachOfChain, combineChain, reach_ok, hfirst]
  | cons next later ih =>
    have hfirst : first.depth = first.filter.depth := hmeasured first (by simp)
    have hlater : ∀ t ∈ next :: later, t.Measured := fun t ht => hmeasured t (by simp [ht])
    have hsplit : reachOfChain above first (next :: later) = .ok depth ↔
        ∃ here below, first.reach (above + 1) = .ok here ∧
          reachOfChain (above + 1) next later = .ok below ∧ depth = max here below := by
      simp only [reachOfChain, bind, Except.bind, pure, Except.pure]
      cases first.reach (above + 1) with
      | error fault => simp
      | ok here =>
        cases reachOfChain (above + 1) next later with
        | error fault => simp
        | ok below => simp [eq_comm]
    rw [hsplit, combineChain, hcombine]
    clear hsplit
    constructor
    · rintro ⟨here, below, hhere, hbelow, rfl⟩
      obtain ⟨hreach, rfl⟩ := reach_ok.mp hhere
      obtain ⟨htail, rfl⟩ := (ih hlater).mp hbelow
      omega
    · rintro ⟨hdeep, rfl⟩
      refine ⟨above + 1 + first.depth, above + 1 + (combineChain combine next later).depth,
        reach_ok.mpr ⟨?_, rfl⟩, (ih hlater).mpr ⟨?_, rfl⟩, ?_⟩ <;> omega

/-- A chain is accepted if and only if its tree is not too deep, and then its depth is right. -/
theorem chain_ok {first t : Term} {later : List Term}
    (hmeasured : ∀ u ∈ first :: later, u.Measured) :
    chain combine first later = .ok t ↔
      t.filter = combineChain combine first later ∧ t.Measured ∧ t.start = first.start ∧
        t.filter.depth ≤ maxDepth := by
  have hsplit : chain combine first later = .ok t ↔
      ∃ depth, reachOfChain 0 first later = .ok depth ∧
        t = ⟨combineChain combine first later, depth, first.start⟩ := by
    simp only [chain, bind, Except.bind, pure, Except.pure]
    cases reachOfChain 0 first later with
    | error fault => simp
    | ok depth => simp [eq_comm]
  rw [hsplit]
  constructor
  · rintro ⟨depth, hdepth, rfl⟩
    obtain ⟨hdeep, rfl⟩ := (reach_of_chain_ok hcombine hmeasured).mp hdepth
    exact ⟨rfl, by simp [Measured], rfl, by simpa using hdeep⟩
  · rintro ⟨hfilter, hdepth, hstart, hdeep⟩
    obtain ⟨filter, depth, start⟩ := t
    simp only [Measured] at hfilter hdepth hstart hdeep
    subst hfilter hdepth hstart
    exact ⟨_, (reach_of_chain_ok hcombine hmeasured).mpr ⟨by simpa using hdeep, rfl⟩, by simp⟩

end
end RelationalQuery.Term
