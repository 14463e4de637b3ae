import Mathlib.Data.List.Induction
import Mathlib.Data.List.Nodup
import RelationalQuery.Dictionary

/-!
# Dictionaries of lists

A dictionary that is made of pairs with different names has exactly these pairs as its entries. In
such a list an element is determined by its name.
-/

set_option autoImplicit false

namespace RelationalQuery

variable {α : Type}

theorem find?_key_iff {key : α → String} {list : List α} (hdistinct : (list.map key).Nodup)
    {wanted : String} {a : α} :
    list.find? (key · == wanted) = some a ↔ a ∈ list ∧ key a = wanted := by
  constructor
  · intro hfound
    exact ⟨List.mem_of_find?_eq_some hfound, by simpa using List.find?_some hfound⟩
  · rintro ⟨ha, rfl⟩
    cases hfound : list.find? (key · == key a) with
    | none => simpa using List.find?_eq_none.mp hfound a ha
    | some b =>
      have hkey : key b = key a := by simpa using List.find?_some hfound
      rw [List.inj_on_of_nodup_map hdistinct (List.mem_of_find?_eq_some hfound) ha hkey]

namespace Dictionary

theorem of_list_concat (pairs : List (String × α)) (pair : String × α) :
    ofList (pairs ++ [pair]) = (ofList pairs).insert pair.1 pair.2 := by
  rw [ofList, List.foldl_append]
  rfl

theorem find?_of_list {pairs : List (String × α)} (hdistinct : (pairs.map Prod.fst).Nodup)
    {name : String} {value : α} :
    (ofList pairs).find? name = some value ↔ (name, value) ∈ pairs := by
  induction pairs using List.reverseRecOn with
  | nil => simp [ofList]
  | append_singleton pairs last ih =>
    rw [List.map_append, List.nodup_append'] at hdistinct
    obtain ⟨hpairs, -, hlast⟩ := hdistinct
    rw [of_list_concat, find?_insert, List.mem_append, List.mem_singleton]
    by_cases hname : name = last.1
    · subst hname
      have hnew : (last.1, value) ∉ pairs := by
        intro hmem
        exact hlast (List.mem_map_of_mem hmem) (List.mem_singleton_self _)
      simp [hnew, Prod.ext_iff, eq_comm]
    · simp [ih hpairs, hname, Prod.ext_iff]

theorem contains_of_list {pairs : List (String × α)} {name : String} :
    (ofList pairs).contains name = true ↔ name ∈ pairs.map Prod.fst := by
  induction pairs using List.reverseRecOn with
  | nil => simp [ofList, contains]
  | append_singleton pairs last ih =>
    rw [contains] at ih ⊢
    rw [of_list_concat, find?_insert, List.map_append, List.mem_append, List.map_singleton,
      List.mem_singleton]
    by_cases hname : name = last.1
    · simp [hname]
    · rw [if_neg hname, ih, or_iff_left hname]

theorem of_list_perm {pairs other : List (String × α)} (hperm : other.Perm pairs)
    (hdistinct : (pairs.map Prod.fst).Nodup) : ofList other = ofList pairs := by
  apply ext_find?
  intro name
  have hother : (other.map Prod.fst).Nodup := (hperm.map Prod.fst).nodup_iff.mpr hdistinct
  apply Option.ext
  intro value
  rw [find?_of_list hother, find?_of_list hdistinct, hperm.mem_iff]

theorem to_list_of_list_perm {pairs : List (String × α)} (hdistinct : (pairs.map Prod.fst).Nodup) :
    (ofList pairs).toList.Perm pairs := by
  have hentries : (ofList pairs).toList.Nodup := by
    refine (ofList pairs).pairwise_to_list.imp ?_
    rintro a _ hlt rfl
    exact String.lt_irrefl a.1 hlt
  rw [List.perm_ext_iff_of_nodup hentries (hdistinct.of_map _)]
  intro pair
  rw [mem_to_list, find?_of_list hdistinct]

end Dictionary
end RelationalQuery
