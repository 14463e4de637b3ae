import RelationalQuery.Proofs.Statement.RoundTrip
import RelationalQuery.Proofs.Statement.Acceptance

/-!
# How deep filters may be

The terms of a chain are the leaves of a tree that nests to the right. A term reaches as many levels
below the connectives above it as it is deep itself. A chain is measured term by term before its
tree is built, and it is refused exactly if that tree would be deeper than the limit, at the first
term that reaches below it. So no filter that is read is deeper than the limit.
-/

set_option autoImplicit false

namespace RelationalQuery

inductive TermTree
  | term (t : Term)
  | joined (left right : TermTree)

namespace TermTree

def nestedRight : Term → List Term → TermTree
  | last, [] => term last
  | t, next :: later => joined (term t) (nestedRight next later)

def filter (c : Connective) : TermTree → Filter
  | term t => t.filter
  | joined left right => c.combine (left.filter c) (right.filter c)

def leaves (above : Nat) : TermTree → List (Term × Nat)
  | term t => [(t, above)]
  | joined left right => left.leaves (above + 1) ++ right.leaves (above + 1)

def overreaches (leaf : Term × Nat) : Bool := decide (512 < leaf.2 + leaf.1.filter.depth)

theorem filter_nested_right (c : Connective) (first : Term) (later : List Term) :
    (nestedRight first later).filter c = Term.combineChain c.combine first later := by
  induction later generalizing first with
  | nil => rfl
  | cons next later ih => rw [nestedRight, filter, ih, Term.combineChain, filter]

theorem map_fst_leaves (above : Nat) (first : Term) (later : List Term) :
    ((nestedRight first later).leaves above).map Prod.fst = first :: later := by
  induction later generalizing first above with
  | nil => rfl
  | cons next later ih =>
    rw [nestedRight, leaves, List.map_append, ih]
    rfl

end TermTree

namespace Term

open TermTree

variable {c : Connective} {first t : Term} {later : List Term} {above : Nat} {fault : Fault}

theorem reach_error_iff (ht : t.Measured) : t.reach above = .error fault ↔
    overreaches (t, above) = true ∧ fault = ⟨t.start, .tooDeep 512⟩ := by
  rw [reach, ht, overreaches, decide_eq_true_iff, maxDepth]
  split
  · rename_i hdeep
    rw [Except.error.injEq, and_iff_right hdeep, eq_comm]
  · rename_i hdeep
    exact iff_of_false (by simp) fun h => hdeep h.1

/-- The terms are measured from left to right, each where it stands in the tree. -/
theorem reach_of_chain_first (hmeasured : ∀ t ∈ first :: later, t.Measured)
    (h : reachOfChain above first later = .error fault) : ∃ t level,
      ((nestedRight first later).leaves above).find? overreaches = some (t, level) ∧
        fault = ⟨t.start, .tooDeep 512⟩ := by
  induction later generalizing first above with
  | nil =>
    obtain ⟨hdeep, hfault⟩ := (reach_error_iff (hmeasured first List.mem_cons_self)).mp h
    exact ⟨first, above, List.find?_cons_of_pos hdeep, hfault⟩
  | cons next later ih =>
    have hfirst : first.Measured := hmeasured first List.mem_cons_self
    have hleaves : (nestedRight first (next :: later)).leaves above =
        (first, above + 1) :: (nestedRight next later).leaves (above + 1) := rfl
    rw [hleaves]
    rcases reach_of_chain_cons_error.mp h with hhere | ⟨here, hhere, hbelow⟩
    · obtain ⟨hdeep, hfault⟩ := (reach_error_iff hfirst).mp hhere
      exact ⟨first, above + 1, List.find?_cons_of_pos hdeep, hfault⟩
    · have hfits : ¬ overreaches (first, above + 1) = true := by
        intro hdeep
        cases hhere.symm.trans ((reach_error_iff hfirst).mpr ⟨hdeep, rfl⟩)
      rw [List.find?_cons_of_neg hfits]
      exact ih (fun t ht => hmeasured t (List.mem_cons_of_mem _ ht)) hbelow

theorem exists_chain_iff (hmeasured : ∀ t ∈ first :: later, t.Measured) :
    (∃ t, chain c.combine first later = .ok t) ↔
      ((nestedRight first later).filter c).depth ≤ 512 := by
  rw [filter_nested_right]
  constructor
  · rintro ⟨t, ht⟩
    obtain ⟨hfilter, _, _, hdeep⟩ := (chain_ok c.combine_depth hmeasured).mp ht
    exact hfilter ▸ hdeep
  · intro hdeep
    exact ⟨⟨_, (combineChain c.combine first later).depth, first.start⟩,
      (chain_ok c.combine_depth hmeasured).mpr ⟨rfl, rfl, rfl, hdeep⟩⟩

end Term

theorem join_clauses_depth_le {joins : List JoinClause} {input rest : List Char}
    (h : Sequence JoinClauseAt joins input rest) : ∀ j ∈ joins, j.on.depth ≤ 512 := by
  induction h with
  | nil => exact List.forall_mem_nil _
  | cons hfirst _ ih =>
    obtain ⟨_, _, _, _, _, _, _, hdeep⟩ := hfirst
    exact List.forall_mem_cons.mpr ⟨hdeep, ih⟩

theorem ConditionAt.depth_le {condition? : Option Filter} {input rest : List Char}
    (h : ConditionAt condition? input rest) : ∀ f ∈ condition?.toList, f.depth ≤ 512 := by
  cases condition? with
  | none => exact List.forall_mem_nil _
  | some f =>
    obtain ⟨_, _, _, hdeep⟩ := h
    exact List.forall_mem_singleton.mpr hdeep

theorem Statement.DerivedFrom.depth_le {s : Statement} {text : String} (h : s.DerivedFrom text) :
    ∀ f ∈ s.filters, f.depth ≤ 512 := by
  cases h with
  | intro _ _ _ _ hjoins hcondition _ =>
    exact List.forall_mem_append.mpr
      ⟨List.forall_mem_map.mpr (join_clauses_depth_le hjoins), hcondition.depth_le⟩

/-- A chain is accepted exactly if the tree of its terms, which nests to the right, is no deeper
than 512; it is then this tree with its depth, at the place of the first term. Otherwise it is
refused at the first term that is too deep for the number of connectives above it. So every filter
that is read, alone or in a statement, is no deeper than 512. -/
theorem depth_limited :
    (∀ (c : Connective) (first : Term) (later : List Term), (∀ t ∈ first :: later, t.Measured) →
      ((TermTree.nestedRight first later).leaves 0).map Prod.fst = first :: later ∧
      ((∃ t, Term.chain c.combine first later = .ok t) ↔
        ((TermTree.nestedRight first later).filter c).depth ≤ 512) ∧
      (∀ t, Term.chain c.combine first later = .ok t →
        t.filter = (TermTree.nestedRight first later).filter c ∧ t.depth = t.filter.depth ∧
          t.start = first.start) ∧
      ∀ fault, Term.chain c.combine first later = .error fault → ∃ t level,
        ((TermTree.nestedRight first later).leaves 0).find? TermTree.overreaches =
            some (t, level) ∧
          fault = ⟨t.start, .tooDeep 512⟩) ∧
    (∀ text f, Filter.parse text = .ok f → f.depth ≤ 512) ∧
    ∀ text s, Statement.parse text = .ok s → ∀ f ∈ s.filters, f.depth ≤ 512 := by
  refine ⟨fun c first later hmeasured => ⟨TermTree.map_fst_leaves 0 first later,
    Term.exists_chain_iff hmeasured, ?_, ?_⟩, ?_, ?_⟩
  · intro t ht
    obtain ⟨hfilter, hdepth, hstart, _⟩ := (Term.chain_ok c.combine_depth hmeasured).mp ht
    exact ⟨hfilter.trans (TermTree.filter_nested_right c first later).symm, hdepth, hstart⟩
  · intro fault hrefused
    exact Term.reach_of_chain_first hmeasured (Term.chain_eq_error.mp hrefused)
  · intro text f hparse
    obtain ⟨_, _, _, hdeep⟩ := Filter.derived_from_of_parse hparse
    exact hdeep
  · intro text s hparse
    exact (Statement.derived_from_of_parse hparse).depth_le

theorem Filter.depth_ladder (c : Condition) (n : Nat) : (ladder c n).depth = n + 1 := by
  rw [depth_eq_nesting, nesting_ladder]

def lowTerm : Term := ⟨.condition Filter.equality, 1, "a = 1".toList⟩

def tallTerm : Term := ⟨Filter.ladder Filter.equality 510, 511, "(a = 1".toList⟩

def filteredStatement : Statement :=
  ⟨["id"], ["t"], [⟨.plain, "u", .condition ⟨"x", "=", "y"⟩⟩], some (.condition ⟨"x", "<", "1"⟩)⟩

theorem depth_limited_tall_term :
    (∀ t ∈ [lowTerm, tallTerm, lowTerm], t.Measured) ∧
      (∃ t, Term.chain Connective.and.combine lowTerm [tallTerm] = .ok t ∧
        t.depth = 512 ∧ t.start = lowTerm.start) ∧
      Term.chain Connective.or.combine lowTerm [tallTerm, lowTerm] =
        .error ⟨tallTerm.start, .tooDeep 512⟩ ∧
      Filter.parse (String.ofList (Filter.ladderText Filter.equality 511)) =
        .ok (Filter.ladder Filter.equality 511) ∧
      (Filter.ladder Filter.equality 511).depth ≤ 512 ∧
      Statement.parse "select id from t join u on x = y where x < 1" = .ok filteredStatement ∧
      ∀ f ∈ filteredStatement.filters, f.depth ≤ 512 := by
  obtain ⟨hchains, hfilters, hstatements⟩ := depth_limited
  have hlow : lowTerm.Measured := rfl
  have htall : tallTerm.Measured := (Filter.depth_ladder _ 510).symm
  have hterms : ∀ t ∈ [lowTerm, tallTerm, lowTerm], t.Measured := by
    simp [hlow, htall]
  have hparse := Filter.parse_ladder Filter.equality_well_formed (by decide : 511 < 512)
  have hstatement : Statement.parse "select id from t join u on x = y where x < 1" =
      .ok filteredStatement := by decide +kernel
  refine ⟨hterms, ?_, ?_, hparse, hfilters _ _ hparse, hstatement, hstatements _ _ hstatement⟩
  · obtain ⟨_, haccepted, hvalue, _⟩ := hchains .and lowTerm [tallTerm] (by simp [hlow, htall])
    have hdepth : ((TermTree.nestedRight lowTerm [tallTerm]).filter .and).depth = 512 := by
      simp [TermTree.nestedRight, TermTree.filter, Connective.combine_depth, lowTerm, tallTerm,
        Filter.depth, Filter.depth_ladder]
    obtain ⟨t, ht⟩ := haccepted.mpr hdepth.le
    obtain ⟨hfilter, hsame, hstart⟩ := hvalue t ht
    exact ⟨t, ht, by rw [hsame, hfilter, hdepth], hstart⟩
  · obtain ⟨_, haccepted, _, hrefused⟩ := hchains .or lowTerm [tallTerm, lowTerm] hterms
    have hdeep : ¬ ((TermTree.nestedRight lowTerm [tallTerm, lowTerm]).filter .or).depth ≤ 512 := by
      simp [TermTree.nestedRight, TermTree.filter, Connective.combine_depth, lowTerm, tallTerm,
        Filter.depth, Filter.depth_ladder]
    have hreaches : TermTree.overreaches (tallTerm, 2) = true := by
      simp [TermTree.overreaches, tallTerm, Filter.depth_ladder]
    have hfirst : ((TermTree.nestedRight lowTerm [tallTerm, lowTerm]).leaves 0).find?
        TermTree.overreaches = some (tallTerm, 2) := by
      show List.find? _ [(lowTerm, 1), (tallTerm, 2), (lowTerm, 2)] = _
      rw [List.find?_cons_of_neg (by decide), List.find?_cons_of_pos hreaches]
    cases hchain : Term.chain Connective.or.combine lowTerm [tallTerm, lowTerm] with
    | ok t => exact absurd (haccepted.mp ⟨t, hchain⟩) hdeep
    | error fault =>
      obtain ⟨t, level, hfound, rfl⟩ := hrefused fault hchain
      cases hfirst.symm.trans hfound
      rfl

end RelationalQuery
