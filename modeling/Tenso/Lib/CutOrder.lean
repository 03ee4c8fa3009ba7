import Mathlib.Order.Interval.Set.Basic
import Mathlib.Order.UpperLower.Principal

/-!
# Orders cut in two

A linear order is cut at an upper set, and the upper half is put below the lower half, as it happens to unsigned numbers
that are read as signed ones. `CutLE U` is the order after that, `cutIcc U a b` a range of it.

- A range with its ends in one half is the same as before (`cutIcc_eq_Icc`).
- Of a range with its ends in different halves one version is empty, and the other one holds the points of `misplaced`
  (`cut_cases`), the left end among them. So the cut keeps exactly the ranges of the first kind (`sameHalf_iff`).
-/

namespace CutOrder

variable {α : Type} [LinearOrder α]

/-- The order in which `U` comes first. -/
def CutLE (U : UpperSet α) (a b : α) : Prop := (a ∈ U ∧ b ∉ U) ∨ ((a ∈ U ↔ b ∈ U) ∧ a ≤ b)

/-- A range of the cut order. -/
def cutIcc (U : UpperSet α) (a b : α) : Set α := {x | CutLE U a x ∧ CutLE U x b}

/-- Two points are in the same half. -/
def SameHalf (U : UpperSet α) (a b : α) : Prop := a ∈ U ↔ b ∈ U

/-- The points between `a` and `b`, or if these are reversed, the points outside of the gap between them. -/
def misplaced (a b : α) : Set α := {x | if a ≤ b then a ≤ x ∧ x ≤ b else a ≤ x ∨ x ≤ b}

theorem left_mem_misplaced (a b : α) : a ∈ misplaced a b := by
  by_cases hle : a ≤ b
  · simp [misplaced, hle]
  · simp [misplaced, hle]

variable {U : UpperSet α} {a b : α}

/-- Ends in the same half: the cut does not change the range. -/
theorem cutIcc_eq_Icc (h : SameHalf U a b) : cutIcc U a b = Set.Icc a b := by
  ext x
  constructor
  · rintro ⟨hax, hxb⟩
    rcases hax with ⟨ha, hx⟩ | ⟨hax, hle⟩
    · -- `x` is in the lower half and `b` is not
      rcases hxb with ⟨hx', _⟩ | ⟨hxb, _⟩
      · exact absurd hx' hx
      · exact absurd (hxb.2 (h.1 ha)) hx
    · rcases hxb with ⟨hx, hb⟩ | ⟨_, hle'⟩
      · exact absurd (h.1 (hax.2 hx)) hb
      · exact ⟨hle, hle'⟩
  · rintro ⟨hle, hle'⟩
    have hax : a ∈ U → x ∈ U := U.upper hle
    have hxb : x ∈ U → b ∈ U := U.upper hle'
    exact ⟨Or.inr ⟨⟨hax, fun hx => h.2 (hxb hx)⟩, hle⟩, Or.inr ⟨⟨hxb, fun hb => hax (h.2 hb)⟩, hle'⟩⟩

/-- From the lower half to the upper half the cut range is empty. -/
theorem cutIcc_eq_empty (ha : a ∉ U) (hb : b ∈ U) : cutIcc U a b = ∅ := by
  refine Set.eq_empty_of_forall_notMem fun x ⟨hax, hxb⟩ => ?_
  have hx : x ∉ U := by
    rcases hax with ⟨ha', _⟩ | ⟨hax, _⟩
    · exact absurd ha' ha
    · exact fun hx => ha (hax.2 hx)
  rcases hxb with ⟨hx', _⟩ | ⟨hxb, _⟩
  · exact hx hx'
  · exact hx (hxb.2 hb)

/-- From the upper half to the lower half the cut range holds what is above the one end or below the other. -/
theorem mem_cutIcc_of_upper (ha : a ∈ U) (hb : b ∉ U) {x : α} : x ∈ cutIcc U a b ↔ a ≤ x ∨ x ≤ b := by
  by_cases hx : x ∈ U
  · have hlt : ¬x ≤ b := fun hle => hb (U.upper hle hx)
    simp [cutIcc, CutLE, ha, hb, hx, hlt]
  · have hlt : ¬a ≤ x := fun hle => hx (U.upper hle ha)
    simp [cutIcc, CutLE, ha, hb, hx, hlt]

/-- Ends in different halves: the range is empty before or after the cut, and else it holds the misplaced points. -/
theorem cut_cases (h : ¬SameHalf U a b) :
    (cutIcc U a b = ∅ ∧ Set.Icc a b = misplaced a b) ∨ (cutIcc U a b = misplaced a b ∧ Set.Icc a b = ∅) := by
  by_cases ha : a ∈ U
  · have hb : b ∉ U := fun hb => h ⟨fun _ => hb, fun _ => ha⟩
    have hle : ¬a ≤ b := fun hle => hb (U.upper hle ha)
    refine Or.inr ⟨?_, Set.Icc_eq_empty hle⟩
    ext x
    rw [mem_cutIcc_of_upper ha hb, misplaced, Set.mem_ofPred_eq, if_neg hle]
  · have hb : b ∈ U := by
      by_contra hb
      exact h ⟨fun ha' => absurd ha' ha, fun hb' => absurd hb' hb⟩
    have hle : a ≤ b := (le_total a b).resolve_right fun hle => ha (U.upper hle hb)
    refine Or.inl ⟨cutIcc_eq_empty ha hb, ?_⟩
    ext x
    rw [misplaced, Set.mem_ofPred_eq, if_pos hle, Set.mem_Icc]

/-- **The left end decides**: the cut keeps it in its range, or keeps it out, exactly when the ends are in the same
half. -/
theorem sameHalf_iff : SameHalf U a b ↔ (a ∈ cutIcc U a b ↔ a ∈ Set.Icc a b) := by
  refine ⟨fun h => by rw [cutIcc_eq_Icc h], fun h => ?_⟩
  by_contra hno
  have hmem := left_mem_misplaced a b
  rcases cut_cases hno with ⟨hcut, hIcc⟩ | ⟨hcut, hIcc⟩
  · rw [hcut, hIcc] at h
    exact h.2 hmem
  · rw [hcut, hIcc] at h
    exact h.1 hmem

end CutOrder
