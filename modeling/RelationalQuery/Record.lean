import RelationalQuery.Path
import RelationalQuery.Value

/-!
# Records

Making records and looking names up in them. A name is looked up in two steps: if it is an alias of
the record, the dotted name for which it stands takes its place, once; the segments of that name
are then followed through the stored columns. Aliases of nested records have no part in it.
-/

set_option autoImplicit false

namespace RelationalQuery.Record

instance : EmptyCollection Record := ⟨⟨∅, ∅⟩⟩
instance : Inhabited Record := ⟨∅⟩

def ofPairs (pairs : List (String × Value)) : Record := ⟨Dictionary.ofList pairs, ∅⟩

def join (left right : Record) : Record :=
  ofPairs [("left", .record left), ("right", .record right)]

def leftOnly (left : Record) : Record := ofPairs [("left", .record left)]

theorem join_eq (left right : Record) : join left right =
    ⟨.cons "left" trivial (.record left)
      (.cons "right" (show "left" < "right" by decide) (.record right) .nil), ∅⟩ := by
  have before : ¬ "right" < "left" := by decide
  simp [join, ofPairs, Dictionary.ofList, Dictionary.insert, Dictionary.insertAbove, before]

theorem left_only_eq (left : Record) :
    leftOnly left = ⟨.cons "left" trivial (.record left) .nil, ∅⟩ := by
  simp [leftOnly, ofPairs, Dictionary.ofList, Dictionary.insert, Dictionary.insertAbove]

theorem aliases_join (left right : Record) : (join left right).aliases = ∅ := by rw [join_eq]

theorem find?_join_left (left right : Record) :
    (join left right).columns.find? "left" = some (.record left) := by
  rw [join_eq]
  rfl

theorem find?_join_right (left right : Record) :
    (join left right).columns.find? "right" = some (.record right) := by
  rw [join_eq]
  rfl

def withAliases (r : Record) (aliases : Dictionary String) : Record := { r with aliases }

def renamed (r : Record) (mapping : Dictionary String) : Record :=
  r.withAliases (Dictionary.ofList (mapping.toList.map fun (old, new) => (new, old)))

theorem beq_eq (a b : Record) : (a == b) = sameColumns a.columns b.columns := by
  cases a; cases b; rfl

theorem join_beq (a b a' b' : Record) : (join a b == join a' b') = (a == a' && b == b') := by
  simp [join_eq, beq_eq, sameColumns, Value.same_record]

theorem left_only_beq (a a' : Record) : (leftOnly a == leftOnly a') = (a == a') := by
  simp [left_only_eq, beq_eq, sameColumns, Value.same_record]

theorem renamed_beq (mapping : Dictionary String) (a b : Record) :
    (a.renamed mapping == b.renamed mapping) = (a == b) := by
  simp only [beq_eq, renamed, withAliases]

def size (r : Record) : Nat := r.columns.size

def isEmpty (r : Record) : Bool := r.columns.isEmpty

def stored? (r : Record) : List String → Option Value
  | [] => none
  | [name] => r.columns.find? name
  | name :: path =>
    match r.columns.find? name with
    | some (.record inner) => inner.stored? path
    | _ => none

def resolve (r : Record) (name : String) : String := (r.aliases.find? name).getD name

def lookup? (r : Record) (name : String) : Option Value :=
  r.stored? (Path.segments (r.resolve name))

def get (r : Record) (name : String) : Value := .ofOption (r.lookup? name)

def contains (r : Record) (name : String) : Bool := (r.lookup? name).isSome

theorem get_column {r : Record} {column : String} {value : Value} (haliases : r.aliases = ∅)
    (hcolumn : '.' ∉ column.toList) (hfound : r.columns.find? column = some value) :
    r.get column = value := by
  have hresolve : r.resolve column = column := by
    rw [resolve, haliases]
    rfl
  rw [get, lookup?, hresolve, Path.segments_eq_singleton hcolumn, stored?, hfound]
  rfl

end RelationalQuery.Record
