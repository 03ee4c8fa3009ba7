import Mathlib.Data.List.Induction

/-!
# Last occurrences

`LastOf key l x`: the last item of the list `l` with the key of `x` is `x`. Every key of a list has a last item
(`exists_lastOf`), only one (`LastOf.unique`), and appending an item replaces the last one of its key only
(`lastOf_concat`).
-/

variable {α κ : Type} {key : α → κ}

/-- The last item of `l` with the key of `x` is `x`. -/
def LastOf (key : α → κ) (l : List α) (x : α) : Prop := ∃ pre post, l = pre ++ x :: post ∧ key x ∉ post.map key

theorem LastOf.mem {l : List α} {x : α} (h : LastOf key l x) : x ∈ l := by
  obtain ⟨pre, post, rfl, _⟩ := h
  exact List.mem_append_right pre List.mem_cons_self

theorem not_lastOf_nil {x : α} : ¬LastOf key [] x := fun h => absurd h.mem List.not_mem_nil

/-- The last items of a list with one more item. -/
theorem lastOf_concat {l : List α} {x y : α} : LastOf key (l ++ [y]) x ↔ x = y ∨ (LastOf key l x ∧ key x ≠ key y) := by
  constructor
  · rintro ⟨pre, post, he, hpost⟩
    rcases List.eq_nil_or_concat post with rfl | ⟨post, z, rfl⟩
    · exact Or.inl (List.singleton_inj.1 (List.append_inj_right' he rfl)).symm
    · rw [List.concat_eq_append] at he hpost
      rw [← List.cons_append, ← List.append_assoc] at he
      have hl := List.append_inj_left' he rfl
      have hz : y = z := List.singleton_inj.1 (List.append_inj_right' he rfl)
      subst hz
      rw [List.map_append, List.map_singleton, List.mem_append, List.mem_singleton, not_or] at hpost
      exact Or.inr ⟨⟨pre, post, hl, hpost.1⟩, hpost.2⟩
  · rintro (rfl | ⟨⟨pre, post, rfl, hpost⟩, hne⟩)
    · exact ⟨l, [], rfl, List.not_mem_nil⟩
    · refine ⟨pre, post ++ [y], by simp, ?_⟩
      rw [List.map_append, List.map_singleton, List.mem_append, List.mem_singleton, not_or]
      exact ⟨hpost, hne⟩

/-- A key has only one last item. -/
theorem LastOf.unique {l : List α} {x y : α} (hx : LastOf key l x) (hy : LastOf key l y) (h : key x = key y) :
    x = y := by
  induction l using List.reverseRecOn with
  | nil => exact absurd hx not_lastOf_nil
  | append_singleton l z ih =>
    rcases lastOf_concat.1 hx with rfl | ⟨hx, hxz⟩
    · rcases lastOf_concat.1 hy with rfl | ⟨_, hyz⟩
      · rfl
      · exact absurd h.symm hyz
    · rcases lastOf_concat.1 hy with rfl | ⟨hy, _⟩
      · exact absurd h hxz
      · exact ih hx hy

/-- Every key of the list has a last item. -/
theorem exists_lastOf {l : List α} {k : κ} (h : k ∈ l.map key) : ∃ x, LastOf key l x ∧ key x = k := by
  induction l using List.reverseRecOn with
  | nil => cases h
  | append_singleton l z ih =>
    by_cases hz : key z = k
    · exact ⟨z, lastOf_concat.2 (Or.inl rfl), hz⟩
    · rw [List.map_append, List.map_singleton, List.mem_append, List.mem_singleton] at h
      obtain ⟨x, hx, hk⟩ := ih (h.resolve_right (Ne.symm hz))
      exact ⟨x, lastOf_concat.2 (Or.inr ⟨hx, fun he => hz (he ▸ hk)⟩), hk⟩

/-- A key that the second list does not name has its last item in the first. -/
theorem lastOf_append_left {l l' : List α} {x : α} (hx : key x ∉ l'.map key) :
    LastOf key (l ++ l') x ↔ LastOf key l x := by
  induction l' using List.reverseRecOn with
  | nil => rw [List.append_nil]
  | append_singleton l' y ih =>
    rw [List.map_append, List.map_singleton, List.mem_append, List.mem_singleton, not_or] at hx
    rw [← List.append_assoc, lastOf_concat, ih hx.1]
    constructor
    · rintro (rfl | h)
      · exact absurd rfl hx.2
      · exact h.1
    · exact fun h => Or.inr ⟨h, hx.2⟩
