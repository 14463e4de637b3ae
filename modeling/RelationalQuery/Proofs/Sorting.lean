import Mathlib.Data.List.Pairwise

/-!
# Stable sorts

A stable sort by a comparison leaves the elements that the comparison calls equal in the order in
which they were (`filter_tied_merge_sort`). So when a list that is ascending in a finer comparison
is sorted by a coarser one, it becomes ascending in the comparison that takes the coarser one first
and the finer one in ties (`pairwise_merge_sort_lex`), and no other arrangement of its elements is
(`eq_of_ascending`).
-/

set_option autoImplicit false

namespace RelationalQuery

variable {α : Type} {order finer : α → α → Ordering}

theorem is_le_or_is_le [Std.OrientedCmp order] (a b : α) :
    ((order a b).isLE || (order b a).isLE) = true := by
  have hswap : order b a = (order a b).swap := Std.OrientedCmp.eq_swap
  rw [hswap]
  cases order a b <;> rfl

/-- Only one arrangement of a list is strictly ascending. -/
theorem eq_of_ascending [Std.OrientedCmp order] {l l' : List α} (hperm : l.Perm l')
    (hl : l.Pairwise fun a b => order a b = .lt) (hl' : l'.Pairwise fun a b => order a b = .lt) :
    l = l' := by
  refine hperm.eq_of_pairwise ?_ hl hl'
  intro a b _ _ hab hba
  have hswap : order a b = (order b a).swap := Std.OrientedCmp.eq_swap
  rw [hab, hba] at hswap
  contradiction

variable [Std.TransCmp order]

theorem pairwise_merge_sort_is_le (l : List α) :
    (l.mergeSort fun a b => (order a b).isLE).Pairwise fun a b => (order a b).isLE = true :=
  List.pairwise_mergeSort (fun _ _ _ => Std.TransCmp.isLE_trans) is_le_or_is_le l

/-- Sorting leaves the elements that tie with a given one in their order. -/
theorem filter_tied_merge_sort (l : List α) (a : α) :
    (l.mergeSort fun a b => (order a b).isLE).filter (order a · == .eq) =
      l.filter (order a · == .eq) := by
  have htied : (l.filter (order a · == .eq)).Pairwise fun b c => (order b c).isLE = true := by
    rw [List.pairwise_filter]
    refine List.pairwise_of_forall fun b c hb hc => ?_
    rw [beq_iff_eq] at hb hc
    rw [← Std.TransCmp.congr_left hb, hc]
    rfl
  have hkept := List.sublist_mergeSort (fun _ _ _ => Std.TransCmp.isLE_trans) is_le_or_is_le htied
    List.filter_sublist
  have hfiltered := hkept.filter (order a · == .eq)
  rw [List.filter_filter] at hfiltered
  simp only [Bool.and_self] at hfiltered
  exact (hfiltered.eq_of_length ((List.mergeSort_perm l _).filter _).length_eq.symm).symm

/-- Sorted once more by a coarser comparison, a list is ascending in both together. -/
theorem pairwise_merge_sort_lex {l : List α} (h : l.Pairwise fun a b => finer a b = .lt) :
    (l.mergeSort fun a b => (order a b).isLE).Pairwise
      fun a b => compareLex order finer a b = .lt := by
  rw [List.pairwise_iff_forall_sublist]
  intro a b hab
  have hle : (order a b).isLE = true :=
    List.pairwise_iff_forall_sublist.mp (pairwise_merge_sort_is_le l) hab
  rw [compareLex, Ordering.then_eq_lt]
  rcases Ordering.isLE_iff_eq_lt_or_eq_eq.mp hle with hlt | heq
  · exact .inl hlt
  · -- The two tie, so they stand in the sorted list as they stood before.
    have htied : [a, b].Sublist (l.filter (order a · == .eq)) := by
      rw [← filter_tied_merge_sort]
      have hfiltered := hab.filter (order a · == .eq)
      rwa [List.filter_eq_self.mpr] at hfiltered
      simp [heq, Std.ReflCmp.compare_self]
    exact .inr ⟨heq, List.pairwise_iff_forall_sublist.mp h (htied.trans List.filter_sublist)⟩

end RelationalQuery
