import Mathlib.Data.List.Induction
import Mathlib.Order.MinMax
import Mathlib.Order.WithBot

/-!
# Greatest and least items of a list

`maxOf` and `minOf` fold a list from the end of the order, as a loop does that starts below and above every item. Of a
list that is not empty they are its greatest and its least item (`exists_maxOf`, `exists_minOf`), and of a list that
is put together from parts they are those of the parts (`maxOf_append`, `minOf_append`).
-/

namespace Extremes

variable {α : Type} [LinearOrder α]

/-- The greatest item, `⊥` if there is none. -/
def maxOf (l : List α) : WithBot α := l.foldl (fun m (a : α) => max m (a : WithBot α)) ⊥

/-- The least item, `⊤` if there is none. -/
def minOf (l : List α) : WithTop α := l.foldl (fun m (a : α) => min m (a : WithTop α)) ⊤

@[simp] theorem maxOf_nil : maxOf ([] : List α) = ⊥ := rfl

@[simp] theorem minOf_nil : minOf ([] : List α) = ⊤ := rfl

theorem maxOf_concat (l : List α) (a : α) : maxOf (l ++ [a]) = max (maxOf l) ↑a := by
  rw [maxOf, List.foldl_append]
  rfl

theorem minOf_concat (l : List α) (a : α) : minOf (l ++ [a]) = min (minOf l) ↑a := by
  rw [minOf, List.foldl_append]
  rfl

theorem maxOf_append (l l' : List α) : maxOf (l ++ l') = max (maxOf l) (maxOf l') := by
  induction l' using List.reverseRecOn with
  | nil => simp
  | append_singleton l' a ih => rw [← List.append_assoc, maxOf_concat, maxOf_concat, ih, max_assoc]

theorem minOf_append (l l' : List α) : minOf (l ++ l') = min (minOf l) (minOf l') := by
  induction l' using List.reverseRecOn with
  | nil => simp
  | append_singleton l' a ih => rw [← List.append_assoc, minOf_concat, minOf_concat, ih, min_assoc]

/-- The greatest item of a list that is not empty. -/
theorem exists_maxOf {l : List α} (h : l ≠ []) : ∃ m ∈ l, maxOf l = ↑m ∧ ∀ a ∈ l, a ≤ m := by
  induction l using List.reverseRecOn with
  | nil => exact absurd rfl h
  | append_singleton l a ih =>
    by_cases hl : l = []
    · subst hl
      exact ⟨a, by simp, by simp [maxOf], by simp⟩
    · obtain ⟨m, hm, heq, hle⟩ := ih hl
      refine ⟨max m a, ?_, ?_, ?_⟩
      · rcases max_choice m a with hmax | hmax <;> simp [hmax, hm]
      · rw [maxOf_concat, heq, WithBot.coe_max]
      · intro b hb
        rcases List.mem_append.1 hb with hb | hb
        · exact (hle b hb).trans (le_max_left _ _)
        · rw [List.mem_singleton.1 hb]
          exact le_max_right _ _

/-- **The least item** of a list that is not empty. -/
theorem exists_minOf {l : List α} (h : l ≠ []) : ∃ m ∈ l, minOf l = ↑m ∧ ∀ a ∈ l, m ≤ a := by
  induction l using List.reverseRecOn with
  | nil => exact absurd rfl h
  | append_singleton l a ih =>
    by_cases hl : l = []
    · subst hl
      exact ⟨a, by simp, by simp [minOf], by simp⟩
    · obtain ⟨m, hm, heq, hle⟩ := ih hl
      refine ⟨min m a, ?_, ?_, ?_⟩
      · rcases min_choice m a with hmin | hmin <;> simp [hmin, hm]
      · rw [minOf_concat, heq, WithTop.coe_min]
      · intro b hb
        rcases List.mem_append.1 hb with hb | hb
        · exact (min_le_left _ _).trans (hle b hb)
        · rw [List.mem_singleton.1 hb]
          exact min_le_right _ _

section Parts

variable {β : Type} {f : β → List α}

/-- The greatest item of the parts is the greatest of their greatest items. -/
theorem maxOf_flatMap {gs : List β} {m : β → α} (h : ∀ g ∈ gs, maxOf (f g) = ↑(m g)) :
    maxOf (gs.flatMap f) = maxOf (gs.map m) := by
  induction gs using List.reverseRecOn with
  | nil => rfl
  | append_singleton gs g ih =>
    rw [List.forall_mem_append, List.forall_mem_singleton] at h
    rw [List.flatMap_append, List.map_append, maxOf_append, ih h.1, List.flatMap_singleton, h.2, List.map_singleton,
      maxOf_concat]

/-- The least item of the parts is the least of their least items. -/
theorem minOf_flatMap {gs : List β} {m : β → α} (h : ∀ g ∈ gs, minOf (f g) = ↑(m g)) :
    minOf (gs.flatMap f) = minOf (gs.map m) := by
  induction gs using List.reverseRecOn with
  | nil => rfl
  | append_singleton gs g ih =>
    rw [List.forall_mem_append, List.forall_mem_singleton] at h
    rw [List.flatMap_append, List.map_append, minOf_append, ih h.1, List.flatMap_singleton, h.2, List.map_singleton,
      minOf_concat]

end Parts

end Extremes
