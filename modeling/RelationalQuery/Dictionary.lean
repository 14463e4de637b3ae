/-!
# Dictionaries

A dictionary is a finite map from names to values that keeps its entries in ascending order of
their names. The order is part of the type: the tail after an entry is a dictionary whose names
all lie above that entry's name. So a dictionary is determined by its lookups
(`Dictionary.ext_find?`), and the order in which it was filled leaves no trace.
-/

set_option autoImplicit false

namespace RelationalQuery

def Above : Option String → String → Prop
  | none, _ => True
  | some bound, name => bound < name

/-- The entries of a map, each name above the one before it and the first above `low`. -/
inductive Dictionary (α : Type) : (low : Option String := none) → Type
  | nil {low : Option String} : Dictionary α low
  | cons {low : Option String} (name : String) (above : Above low name) (value : α)
      (rest : Dictionary α (some name)) : Dictionary α low

namespace Dictionary

variable {α : Type} {low : Option String}

instance : EmptyCollection (Dictionary α low) := ⟨.nil⟩
instance : Inhabited (Dictionary α low) := ⟨.nil⟩

def toList {low : Option String} : Dictionary α low → List (String × α)
  | .nil => []
  | .cons name _ value rest => (name, value) :: rest.toList

def names (d : Dictionary α low) : List String := d.toList.map Prod.fst

def size {low : Option String} : Dictionary α low → Nat
  | .nil => 0
  | .cons _ _ _ rest => rest.size + 1

def isEmpty : Dictionary α low → Bool
  | .nil => true
  | .cons .. => false

def find? {low : Option String} (name : String) : Dictionary α low → Option α
  | .nil => none
  | .cons key _ value rest => if name = key then some value else rest.find? name

def contains (d : Dictionary α low) (name : String) : Bool := (d.find? name).isSome

theorem lt_of_not_lt_of_ne {a b : String} (h : ¬ a < b) (hne : ¬ a = b) : b < a :=
  Std.lt_of_le_of_ne (String.not_lt.mp h) (fun e => hne e.symm)

def insertAbove {low : Option String} (name : String) (value : α) (above : Above low name) :
    Dictionary α low → Dictionary α low
  | .nil => .cons name above value .nil
  | .cons key keyAbove old rest =>
    if before : name < key then .cons name above value (.cons key before old rest)
    else if same : name = key then .cons key keyAbove value rest
    else .cons key keyAbove old (rest.insertAbove name value (lt_of_not_lt_of_ne before same))

def insert (d : Dictionary α) (name : String) (value : α) : Dictionary α :=
  d.insertAbove name value trivial

def ofList (pairs : List (String × α)) : Dictionary α :=
  pairs.foldl (fun d pair => d.insert pair.1 pair.2) ∅

def map {β : Type} (f : α → β) {low : Option String} : Dictionary α low → Dictionary β low
  | .nil => .nil
  | .cons name above value rest => .cons name above (f value) (rest.map f)

@[simp] theorem find?_nil (name : String) : (nil : Dictionary α low).find? name = none := rfl

@[simp] theorem empty_eq : (∅ : Dictionary α low) = .nil := rfl

theorem find?_insert_above {low : Option String} (d : Dictionary α low) (name : String)
    (value : α) (above : Above low name) (key : String) :
    (d.insertAbove name value above).find? key =
      if key = name then some value else d.find? key := by
  induction d with
  | nil => simp [insertAbove, find?]
  | cons k hk old rest ih =>
    unfold insertAbove
    split
    · simp [find?]
    · split
      · subst name
        by_cases h : key = k <;> simp [find?, h]
      · rename_i hne
        by_cases h : key = k
        · subst key
          simp [find?, Ne.symm hne]
        · simpa [find?, h] using ih _

@[simp] theorem find?_insert (d : Dictionary α) (name : String) (value : α) (key : String) :
    (d.insert name value).find? key = if key = name then some value else d.find? key :=
  find?_insert_above d name value trivial key

theorem find?_eq_none_of_not_lt {bound : String} (d : Dictionary α (some bound)) {name : String}
    (h : ¬ bound < name) : d.find? name = none := by
  generalize hl : some bound = low at d
  induction d generalizing bound with
  | nil => rfl
  | cons key above value rest ih =>
    subst hl
    have hlt : bound < key := above
    have hne : name ≠ key := fun e => h (e ▸ hlt)
    have hk : ¬ key < name := fun hkn => h (String.lt_trans hlt hkn)
    simp [find?, hne, ih hk rfl]

theorem ne_of_find?_eq_some {bound name : String} {d : Dictionary α (some bound)} {value : α}
    (h : d.find? name = some value) : name ≠ bound := by
  rintro rfl
  rw [d.find?_eq_none_of_not_lt (String.lt_irrefl _)] at h
  contradiction

theorem is_empty_eq_false_of_find? {d : Dictionary α low} {name : String} {value : α}
    (h : d.find? name = some value) : d.isEmpty = false := by
  cases d with
  | nil => contradiction
  | cons => rfl

theorem not_lt_of_find?_eq {a b : String} {value : α} {above : Above low b}
    {rest : Dictionary α (some b)} (h : (cons b above value rest).find? a ≠ none) : ¬ a < b := by
  intro hlt
  have hne : a ≠ b := fun e => String.lt_irrefl b (e ▸ hlt)
  have hrest := rest.find?_eq_none_of_not_lt fun c => String.lt_irrefl a (String.lt_trans hlt c)
  simp [find?, hne, hrest] at h

theorem ext_find? {low : Option String} {d e : Dictionary α low}
    (h : ∀ name, d.find? name = e.find? name) : d = e := by
  induction d with
  | nil =>
    cases e with
    | nil => rfl
    | cons key above value rest => simpa [find?] using h key
  | cons k hk v rest ih =>
    cases e with
    | nil => simpa [find?] using h k
    | cons l hl w rest' =>
      have hkl : k = l := by
        apply Classical.byContradiction
        intro hne
        have hle : ¬ k < l := not_lt_of_find?_eq (by rw [← h k]; simp [find?])
        exact not_lt_of_find?_eq (by rw [h l]; simp [find?]) (lt_of_not_lt_of_ne hle hne)
      subst hkl
      have hv : v = w := by simpa [find?] using h k
      subst hv
      congr 1
      apply ih
      intro name
      by_cases hn : name = k
      · subst hn
        rw [rest.find?_eq_none_of_not_lt (String.lt_irrefl _),
          rest'.find?_eq_none_of_not_lt (String.lt_irrefl _)]
      · simpa [find?, hn] using h name

theorem mem_to_list {low : Option String} {d : Dictionary α low} {name : String} {value : α} :
    (name, value) ∈ d.toList ↔ d.find? name = some value := by
  induction d with
  | nil => simp [toList]
  | cons key above content rest ih =>
    simp only [toList, List.mem_cons, Prod.mk.injEq, ih, find?]
    by_cases h : name = key
    · have hrest : rest.find? name = none := by
        rw [h]
        exact rest.find?_eq_none_of_not_lt (String.lt_irrefl key)
      simp [h, h ▸ hrest, eq_comm]
    · simp [h]

theorem pairwise_to_list {low : Option String} (d : Dictionary α low) :
    d.toList.Pairwise fun a b => a.1 < b.1 := by
  induction d with
  | nil => exact List.Pairwise.nil
  | cons key above content rest ih =>
    refine List.pairwise_cons.mpr ⟨fun entry hentry => ?_, ih⟩
    apply Classical.byContradiction
    intro hle
    have hfind : rest.find? entry.1 = some entry.2 := mem_to_list.mp hentry
    rw [rest.find?_eq_none_of_not_lt hle] at hfind
    contradiction

end Dictionary
end RelationalQuery
