import RelationalQuery.Proofs.Plan.Meaning
import RelationalQuery.Proofs.Record.Order

/-!
# Execution and the order of rows

Tables are filled in some order and hold their rows in some order, and neither shows in the result
of a plan. Rows are alike if they are equal and have the same aliases at the top, which is all that
a join condition can tell of them. A join of alike tables gives alike tables, in whatever order it
meets their rows, and so a plan gives alike tables, or the same error, from alike sources.
-/

set_option autoImplicit false

namespace RelationalQuery

namespace Record

/-- Equal records with the same aliases at the top. Those of nested records may differ. -/
structure Alike (a b : Record) : Prop where
  same : (a == b) = true
  aliases : a.aliases = b.aliases

theorem Alike.symm {a b : Record} (h : a.Alike b) : b.Alike a :=
  ⟨BEq.symm h.same, h.aliases.symm⟩

theorem Alike.join {l l' r r' : Record} (hl : l.Alike l') (hr : r.Alike r') :
    (join l r).Alike (join l' r') where
  same := by rw [join_beq, hl.same, hr.same, Bool.and_self]
  aliases := by rw [join_eq, join_eq]

theorem Alike.left_only {l l' : Record} (hl : l.Alike l') : (leftOnly l).Alike (leftOnly l') where
  same := by rw [left_only_beq, hl.same]
  aliases := by rw [left_only_eq, left_only_eq]

end Record

theorem JoinCondition.match_of_alike {conditions : List JoinCondition} {l l' r r' : Record}
    (hl : l.Alike l') (hr : r.Alike r') (h : Match conditions l r) : Match conditions l' r' := by
  intro c hc
  have hleft := Record.get_beq hl.same hl.aliases c.left
  have hright := Record.get_beq hr.same hr.aliases c.right
  exact BEq.trans (BEq.symm hleft) (BEq.trans (h c hc) hright)

namespace Table

/-- Equal tables whose equal rows have the same aliases at the top. -/
structure Alike (a b : Table) : Prop where
  same : (a == b) = true
  aliases : ∀ x ∈ a.rows, ∀ y ∈ b.rows, (x == y) = true → x.aliases = y.aliases

variable {a b : Table}

theorem Alike.symm (h : a.Alike b) : b.Alike a where
  same := beq_of_contains fun row => (contains_of_beq h.same row).symm
  aliases x hx y hy hsame := (h.aliases y hy x hx (BEq.symm hsame)).symm

theorem Alike.exists_alike (h : a.Alike b) {x : Record} (hx : x ∈ a.rows) :
    ∃ y ∈ b.rows, x.Alike y := by
  have hcontains := (contains_of_beq h.same x).mp (contains_of_mem hx)
  obtain ⟨y, hy, hsame⟩ := contains_iff.mp hcontains
  exact ⟨y, hy, BEq.symm hsame, h.aliases x hx y hy (BEq.symm hsame)⟩

theorem contains_of_exists_alike (h : ∀ x ∈ a.rows, ∃ y ∈ b.rows, x.Alike y) {row : Record}
    (hrow : a.contains row = true) : b.contains row = true := by
  apply contains_of_forall _ hrow
  intro x hx
  obtain ⟨y, hy, hlike⟩ := h x hx
  exact contains_iff.mpr ⟨y, hy, BEq.symm hlike.same⟩

theorem alike_of_exists_alike (hab : ∀ x ∈ a.rows, ∃ y ∈ b.rows, x.Alike y)
    (hba : ∀ y ∈ b.rows, ∃ x ∈ a.rows, y.Alike x) : a.Alike b where
  same := beq_of_contains fun _ => ⟨contains_of_exists_alike hab, contains_of_exists_alike hba⟩
  aliases x hx y hy hsame := by
    obtain ⟨y', hy', hlike⟩ := hab x hx
    have heq : y' = y := eq_of_mem_of_beq hy' hy (BEq.trans (BEq.symm hlike.same) hsame)
    rw [hlike.aliases, heq]

theorem contains_of_list_of_forall {xs ys : List Record}
    (h : ∀ x ∈ xs, ∃ y ∈ ys, (y == x) = true) {row : Record}
    (hrow : (ofList xs).contains row = true) : (ofList ys).contains row = true := by
  rw [contains_of_list] at hrow ⊢
  obtain ⟨x, hx, hsame⟩ := hrow
  obtain ⟨y, hy, hyx⟩ := h x hx
  exact ⟨y, hy, BEq.trans hyx hsame⟩

/-- Tables are alike if they were filled with the same rows, in whatever order and however often,
and equal ones among these have the same aliases at the top. -/
theorem alike_of_list {xs ys : List Record} (hxs : ∀ x ∈ xs, ∃ y ∈ ys, (y == x) = true)
    (hys : ∀ y ∈ ys, ∃ x ∈ xs, (x == y) = true)
    (haliases : ∀ x ∈ xs, ∀ y ∈ ys, (x == y) = true → x.aliases = y.aliases) :
    (ofList xs).Alike (ofList ys) where
  same := beq_of_contains fun _ => ⟨contains_of_list_of_forall hxs, contains_of_list_of_forall hys⟩
  aliases x hx y hy := haliases x (mem_of_mem_of_list hx) y (mem_of_mem_of_list hy)

end Table

/-- Every row of a join has its like among the rows of the same join of alike tables. -/
theorem JoinMode.exists_alike (mode : JoinMode) (conditions : List JoinCondition)
    {left left' right right' : Table} (hleft : left.Alike left') (hright : right.Alike right')
    {row : Record} (hrow : row ∈ (mode.rows left right conditions).rows) :
    ∃ row' ∈ (mode.rows left' right' conditions).rows, row.Alike row' := by
  have hjoin {l r : Record} (hl : l ∈ left.rows) (hr : r ∈ right.rows) :
      ∃ l' r', l' ∈ left'.rows ∧ r' ∈ right'.rows ∧
        (JoinCondition.Match conditions l r → JoinCondition.Match conditions l' r') ∧
          (Record.join l r).Alike (.join l' r') := by
    obtain ⟨l', hl', hlikeLeft⟩ := hleft.exists_alike hl
    obtain ⟨r', hr', hlikeRight⟩ := hright.exists_alike hr
    exact ⟨l', r', hl', hr', JoinCondition.match_of_alike hlikeLeft hlikeRight,
      hlikeLeft.join hlikeRight⟩
  rw [mem_rows] at hrow
  simp only [mem_rows]
  cases mode with
  | cartesian =>
    obtain ⟨l, r, hl, hr, rfl⟩ := hrow
    obtain ⟨l', r', hl', hr', _, hlike⟩ := hjoin hl hr
    exact ⟨_, ⟨l', r', hl', hr', rfl⟩, hlike⟩
  | inner =>
    obtain ⟨l, r, hl, hr, hmatch, rfl⟩ := hrow
    obtain ⟨l', r', hl', hr', hmatch', hlike⟩ := hjoin hl hr
    exact ⟨_, ⟨l', r', hl', hr', hmatch' hmatch, rfl⟩, hlike⟩
  | leftOuter =>
    rcases hrow with ⟨l, r, hl, hr, hmatch, rfl⟩ | ⟨l, hl, hnone, rfl⟩
    · obtain ⟨l', r', hl', hr', hmatch', hlike⟩ := hjoin hl hr
      exact ⟨_, .inl ⟨l', r', hl', hr', hmatch' hmatch, rfl⟩, hlike⟩
    · obtain ⟨l', hl', hlikeLeft⟩ := hleft.exists_alike hl
      refine ⟨_, .inr ⟨l', hl', ?_, rfl⟩, hlikeLeft.left_only⟩
      intro r' hr' hmatch
      obtain ⟨r, hr, hlikeRight⟩ := hright.symm.exists_alike hr'
      exact hnone r hr (JoinCondition.match_of_alike hlikeLeft.symm hlikeRight hmatch)

theorem JoinMode.rows_alike (mode : JoinMode) (conditions : List JoinCondition)
    {left left' right right' : Table} (hleft : left.Alike left') (hright : right.Alike right') :
    (mode.rows left right conditions).Alike (mode.rows left' right' conditions) :=
  Table.alike_of_exists_alike (fun _ => mode.exists_alike conditions hleft hright)
    (fun _ => mode.exists_alike conditions hleft.symm hright.symm)

namespace Plan

inductive Agree : Except ExecutionError Table → Except ExecutionError Table → Prop
  | ok {a b : Table} (alike : a.Alike b) : Agree (.ok a) (.ok b)
  | error (error : ExecutionError) : Agree (.error error) (.error error)

theorem Agree.bind {x y : Except ExecutionError Table}
    {f g : Table → Except ExecutionError Table} (h : Agree x y)
    (hnext : ∀ a b, a.Alike b → Agree (f a) (g b)) : Agree (x >>= f) (y >>= g) := by
  cases h with
  | ok alike => exact hnext _ _ alike
  | error error => exact .error error

variable {source other : DataSource}

theorem rows_agree (plan : Plan)
    (hsources : ∀ name, Option.Rel Table.Alike (source name) (other name)) :
    Agree (plan.rows source) (plan.rows other) := by
  induction plan with
  | scan name =>
    rw [rows, rows]
    have hname := hsources name
    generalize source name = found, other name = found' at hname ⊢
    cases hname with
    | none => exact .error _
    | some alike => exact .ok alike
  | join mode left right conditions ihLeft ihRight =>
    rw [rows, rows]
    apply ihLeft.bind
    intro leftTable leftTable' hleft
    apply ihRight.bind
    intro rightTable rightTable' hright
    exact .ok (mode.rows_alike conditions hleft hright)

/-- From sources that hold alike tables under the same names, however these were filled, a plan has
alike tables or the same error. -/
theorem execute_agree (plan : Plan) (source other : DataSource) (maxDepth : Nat)
    (hsources : ∀ name, Option.Rel Table.Alike (source name) (other name)) :
    Agree (plan.execute source maxDepth) (plan.execute other maxDepth) := by
  rw [execute, execute]
  split
  · exact .error _
  · exact rows_agree plan hsources

def filled (rows : List Record) : Catalog :=
  ((∅ : Catalog).add "numbers" (Table.ofList rows)).add "none" ∅

def referring (reference : Record) : Record :=
  (Record.ofPairs [("id", .integer 1), ("reference", .record reference)]).withAliases
    (Dictionary.ofList [("key", "id")])

theorem execute_agree_refilled :
    (∀ name, Option.Rel Table.Alike
      ((filled [referring numbered, numbered]).source name)
      ((filled [numbered, referring (numbered.withAliases ∅), numbered]).source name)) ∧
    Agree (outerChain.execute (filled [referring numbered, numbered]).source 3)
      (outerChain.execute
        (filled [numbered, referring (numbered.withAliases ∅), numbered]).source 3) := by
  have halike : (Table.ofList [referring numbered, numbered]).Alike
      (Table.ofList [numbered, referring (numbered.withAliases ∅), numbered]) := by
    apply Table.alike_of_list
    · decide +kernel
    · decide +kernel
    · have hfirst : ¬ (referring numbered == numbered) = true := by decide +kernel
      have hsecond : ¬ (numbered == referring (numbered.withAliases ∅)) = true := by decide +kernel
      simp only [List.mem_cons, List.not_mem_nil, or_false]
      rintro x (rfl | rfl) y (rfl | rfl | rfl) hsame
      · exact absurd hsame hfirst
      · rfl
      · exact absurd hsame hfirst
      · rfl
      · exact absurd hsame hsecond
      · rfl
  have hsources (name : String) : Option.Rel Table.Alike
      ((filled [referring numbered, numbered]).source name)
      ((filled [numbered, referring (numbered.withAliases ∅), numbered]).source name) := by
    simp only [filled, Catalog.source, Catalog.add, Dictionary.find?_insert]
    split
    · exact .some ⟨rfl, fun _ hx => absurd hx List.not_mem_nil⟩
    · split
      · exact .some halike
      · exact .none
  exact ⟨hsources, execute_agree outerChain _ _ 3 hsources⟩

end Plan
end RelationalQuery
