/-!
# Dotted names

A column name such as `left.id` addresses a column of a nested record. It is read as its segments
between the dots, so a name has one segment more than it has dots, the empty name is one empty
segment, and neighbouring dots enclose an empty segment. Reading and writing are inverse
(`dotted_segments`), and a dot between two names joins their segments (`segments_append`).
-/

set_option autoImplicit false

namespace RelationalQuery.Path

def segments (name : String) : List String := (name.toList.splitOn '.').map String.ofList

def dotted (segments : List String) : String := String.intercalate "." segments

def dots (name : String) : Nat := name.toList.count '.'

def below (base column : String) : String := if base = "" then column else base ++ "." ++ column

theorem segments_ne_nil (name : String) : segments name ≠ [] := by
  simp [segments, List.splitOn_ne_nil]

theorem segments_append (a b : String) : segments (a ++ "." ++ b) = segments a ++ segments b := by
  simp [segments, String.toList_append, List.splitOn_append_cons_self]

theorem segments_eq_singleton {name : String} (h : '.' ∉ name.toList) : segments name = [name] := by
  simp [segments, List.splitOn_eq_singleton h]

theorem dotted_segments (name : String) : dotted (segments name) = name := by
  apply String.toList_injective
  simp [dotted, segments, String.toList_intercalate, List.map_map, Function.comp_def,
    List.intercalate_splitOn]

end RelationalQuery.Path
