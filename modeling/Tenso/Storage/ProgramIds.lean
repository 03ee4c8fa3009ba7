import Mathlib.Tactic.IntervalCases
import Tenso.Lib.PrefixCode
import Tenso.Storage.Repository

/-!
# The text of the program ids

A transaction keeps its program ids as one JSON text. The escapes of a JSON string are a prefix-free code, so the text
of a list of strings determines the list (`jsonStrings_injective`), whatever characters are in the strings.
-/

namespace Tenso.Storage

open PrefixCode

/-- The value of a hexadecimal digit. -/
def hexValue (c : Char) : ℕ := if c.toNat < 58 then c.toNat - 48 else c.toNat - 87

/-- The character of an escape. -/
def unescaped (c : Char) : Char :=
  match c.toNat with
  | 98 => Char.ofNat 8
  | 116 => Char.ofNat 9
  | 110 => Char.ofNat 10
  | 102 => Char.ofNat 12
  | 114 => Char.ofNat 13
  | _ => c

/-- What a reader of JSON takes from the front of a string: a character, and the rest. -/
def readJsonChar : List Char → Option (Char × List Char)
  | [] => none
  | c :: cs =>
    if c.toNat ≠ 92 then some (c, cs) else
      match cs with
      | 'u' :: _ :: _ :: hi :: lo :: cs => some (Char.ofNat (16 * hexValue hi + hexValue lo), cs)
      | e :: cs => some (unescaped e, cs)
      | [] => none

theorem readJsonChar_jsonChar (c : Char) (cs : List Char) : readJsonChar (jsonChar c ++ cs) = some (c, cs) := by
  rcases Nat.lt_or_ge c.toNat 32 with hlt | hge
  · -- the control characters
    have hc : c = Char.ofNat c.toNat := (Char.ofNat_toNat c).symm
    generalize c.toNat = n at hc hlt
    subst hc
    interval_cases n <;> rfl
  · by_cases hquote : c.toNat = 34
    · obtain rfl : c = Char.ofNat 34 := by rw [← hquote, Char.ofNat_toNat]
      rfl
    by_cases hslash : c.toNat = 92
    · obtain rfl : c = Char.ofNat 92 := by rw [← hslash, Char.ofNat_toNat]
      rfl
    have hplain : jsonChar c = [c] := by
      rw [jsonChar, if_neg (by omega), if_neg (by omega), if_neg (by omega), if_neg (by omega), if_neg (by omega),
        if_neg (by omega), if_neg (by omega)]
    simp [hplain, readJsonChar, hslash]

/-- The end of a string is escaped within it. -/
theorem jsonChar_startsApart : StartsApart jsonChar (Char.ofNat 34) := by
  intro c
  simp only [jsonChar]
  split_ifs with hescaped
  all_goals try exact ⟨_, _, rfl, by decide⟩
  refine ⟨c, [], rfl, fun hc => hescaped (Or.inl ?_)⟩
  rw [hc]
  rfl

theorem jsonString_prefixFree : PrefixFree jsonString :=
  ((PrefixFree.of_decoder readJsonChar_jsonChar).quoted jsonChar_startsApart).comp fun _ _ => String.toList_injective

theorem jsonString_startsApart : StartsApart jsonString ']' := fun s => ⟨_, _, rfl, by decide⟩

/-- **The text of a list of strings** determines the list. -/
theorem jsonStrings_injective : Function.Injective jsonStrings := by
  intro ss ss' h
  have htext := String.ofList_injective h
  simp only [List.cons_append, List.nil_append, List.cons.injEq, true_and] at htext
  exact (intercalate_inj jsonString_prefixFree (by decide) jsonString_startsApart htext).1

end Tenso.Storage
