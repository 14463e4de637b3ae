import RelationalQuery.Text.Quoted
import Mathlib.Tactic.Common

/-!
# Reading quoted text back

Quoted text shows where it ends: whatever follows it, the text and what follows can be told apart
(`quote_append_inj`). The way in which one character is written tells the character and where the
next one begins, so the characters are read back one after another up to the closing mark.
-/

set_option autoImplicit false

namespace RelationalQuery.Text

def digitValue (digit : Char) : Nat :=
  if digit.toNat < 58 then digit.toNat - 48 else digit.toNat - 87

def hexadecimal (digits : List Char) : Nat :=
  digits.foldl (fun number digit => 16 * number + digitValue digit) 0

theorem digit_value_digit_char : ∀ n < 16, digitValue n.digitChar = n := by decide

theorem hexadecimal_to_digits (n : Nat) : hexadecimal (Nat.toDigits 16 n) = n := by
  induction n using Nat.strongRecOn with
  | ind n ih =>
    rw [Nat.toDigits_eq_if (by decide)]
    split
    · rename_i h
      simp [hexadecimal, digit_value_digit_char n h]
    · rename_i h
      have hquotient : hexadecimal (Nat.toDigits 16 (n / 16)) = n / 16 := ih _ (by omega)
      rw [hexadecimal] at hquotient
      rw [hexadecimal, List.foldl_append, hquotient, List.foldl_cons, List.foldl_nil,
        digit_value_digit_char _ (by omega)]
      omega

theorem brace_not_mem_to_digits (n : Nat) : '\x7d' ∉ Nat.toDigits 16 n := by
  induction n using Nat.strongRecOn with
  | ind n ih =>
    rw [Nat.toDigits_eq_if (by decide)]
    split
    · simp
    · rename_i h
      have hquotient : '\x7d' ∉ Nat.toDigits 16 (n / 16) := ih _ (by omega)
      simp [hquotient]

def unescapeNamed : List Char → Char × List Char
  | '0' :: rest => ('\x00', rest)
  | 't' :: rest => ('\t', rest)
  | 'r' :: rest => ('\r', rest)
  | 'n' :: rest => ('\n', rest)
  | 'u' :: '\x7b' :: rest =>
    (Char.ofNat (hexadecimal (rest.takeWhile (· ≠ '\x7d'))), (rest.dropWhile (· ≠ '\x7d')).tail)
  | c :: rest => (c, rest)
  | [] => ('\\', [])

def unescape : List Char → Char × List Char
  | c :: rest => if c = '\\' then unescapeNamed rest else (c, rest)
  | [] => ('"', [])

theorem unescape_escape (c : Char) (rest : List Char) :
    unescape (escape c ++ rest) = (c, rest) := by
  unfold escape
  split
  case h_7 hbackslash =>
    split
    · have hdigits : ∀ d ∈ codePoint c, (d ≠ '\x7d' : Bool) = true := by
        intro d hd
        have hne : d ≠ '\x7d' := fun heq => brace_not_mem_to_digits c.toNat (heq ▸ hd)
        simpa using hne
      have htext : ['\\', 'u', '\x7b'] ++ codePoint c ++ ['\x7d'] ++ rest =
          '\\' :: 'u' :: '\x7b' :: (codePoint c ++ '\x7d' :: rest) := by simp
      rw [htext, unescape, if_pos rfl, unescapeNamed, List.takeWhile_append_of_pos hdigits,
        List.dropWhile_append_of_pos hdigits]
      simp [codePoint, hexadecimal_to_digits]
    · exact if_neg hbackslash
  all_goals rfl

theorem escape_ne_mark (c : Char) (rest : List Char) : ∃ first later,
    escape c ++ rest = first :: later ∧ first ≠ '"' := by
  unfold escape
  split
  case h_7 hmark _ =>
    split
    · exact ⟨'\\', _, rfl, by decide⟩
    · exact ⟨c, rest, rfl, hmark⟩
  all_goals exact ⟨'\\', _, rfl, by decide⟩

theorem flat_map_escape_inj {cs ds : List Char} {s t : List Char}
    (h : cs.flatMap escape ++ '"' :: s = ds.flatMap escape ++ '"' :: t) : cs = ds ∧ s = t := by
  induction cs generalizing ds with
  | nil =>
    cases ds with
    | nil => exact ⟨rfl, (List.cons.inj h).2⟩
    | cons d ds =>
      rw [List.flatMap_cons, List.append_assoc] at h
      obtain ⟨first, later, heq, hne⟩ := escape_ne_mark d (ds.flatMap escape ++ '"' :: t)
      rw [heq] at h
      exact absurd (List.cons.inj h).1.symm hne
  | cons c cs ih =>
    cases ds with
    | nil =>
      rw [List.flatMap_cons, List.append_assoc] at h
      obtain ⟨first, later, heq, hne⟩ := escape_ne_mark c (cs.flatMap escape ++ '"' :: s)
      rw [heq] at h
      exact absurd (List.cons.inj h).1 hne
    | cons d ds =>
      rw [List.flatMap_cons, List.flatMap_cons, List.append_assoc, List.append_assoc] at h
      have hread := congrArg unescape h
      rw [unescape_escape, unescape_escape, Prod.mk.injEq] at hread
      obtain ⟨rfl, hlater⟩ := hread
      obtain ⟨rfl, hrest⟩ := ih hlater
      exact ⟨rfl, hrest⟩

/-- Quoted text, and what follows it, can be told from the whole. -/
theorem quote_append_inj {a b : String} {s t : List Char}
    (h : (quote a).toList ++ s = (quote b).toList ++ t) : a = b ∧ s = t := by
  simp only [quote, String.toList_ofList, List.cons_append, List.append_assoc, List.nil_append,
    List.cons.injEq, true_and] at h
  obtain ⟨heq, hrest⟩ := flat_map_escape_inj h
  exact ⟨String.toList_injective heq, hrest⟩

end RelationalQuery.Text
