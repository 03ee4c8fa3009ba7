import Mathlib.Data.List.Infix

/-!
# Words in framed texts

A word whose items all have a property does not reach over an item without it. So a word is found in a text that is
framed by others of the opposite kind exactly when it is found in the text itself (`infix_framed_iff`), and a word of
the kind of the frames exactly when it is found in one of them (`infix_frames_iff`).
-/

namespace Infix

variable {α : Type} {p : α → Prop} {w : List α}

/-- A word does not begin in items of the opposite kind. -/
theorem infix_append_left_iff (hw : ∀ y ∈ w, p y) {a : List α} (ha : ∀ y ∈ a, ¬p y) (b : List α) :
    w <:+: a ++ b ↔ w <:+: b := by
  induction a with
  | nil => rfl
  | cons x a ih =>
    rw [List.forall_mem_cons] at ha
    rw [List.cons_append, List.infix_cons_iff, ih ha.2]
    refine ⟨fun h => h.elim (fun hprefix => ?_) id, Or.inr⟩
    cases w with
    | nil => exact List.nil_infix
    | cons y w =>
      -- the word would begin with the first item
      obtain ⟨rfl, _⟩ := List.cons_prefix_cons.1 hprefix
      exact absurd (hw y List.mem_cons_self) ha.1

/-- Nor does it end in them. -/
theorem infix_append_right_iff (hw : ∀ y ∈ w, p y) {b : List α} (hb : ∀ y ∈ b, ¬p y) (a : List α) :
    w <:+: a ++ b ↔ w <:+: a := by
  rw [← List.reverse_infix, List.reverse_append, infix_append_left_iff, List.reverse_infix]
  · exact fun y hy => hw y (List.mem_reverse.1 hy)
  · exact fun y hy => hb y (List.mem_reverse.1 hy)

/-- A word does not reach over an item of the opposite kind. -/
theorem infix_append_cons_iff (hw : ∀ y ∈ w, p y) {x : α} (hx : ¬p x) (a b : List α) :
    w <:+: a ++ x :: b ↔ w <:+: a ∨ w <:+: b := by
  have htail : w <:+: x :: b ↔ w <:+: b :=
    infix_append_left_iff hw (List.forall_mem_singleton.2 hx) b
  rw [List.infix_append_iff, htail]
  refine ⟨?_, fun h => h.elim Or.inl fun hb => Or.inr (Or.inl hb)⟩
  rintro (h | h | ⟨l₁, l₂, rfl, h₁, h₂⟩)
  · exact Or.inl h
  · exact Or.inr h
  · cases l₂ with
    | nil =>
      rw [List.append_nil]
      exact Or.inl h₁.isInfix
    | cons y l₂ =>
      obtain ⟨rfl, _⟩ := List.cons_prefix_cons.1 h₂
      exact absurd (hw y (by simp)) hx

/-- A word of the kind of a text is found in the framed text where it is found in the text. -/
theorem infix_framed_iff (hw : ∀ y ∈ w, p y) {pre suf : List α} (hpre : ∀ y ∈ pre, ¬p y) (hsuf : ∀ y ∈ suf, ¬p y)
    (text : List α) : w <:+: pre ++ text ++ suf ↔ w <:+: text := by
  rw [infix_append_right_iff hw hsuf, infix_append_left_iff hw hpre]

/-- **A word of the kind of the frames** is found in the framed text where it is found in a frame. -/
theorem infix_frames_iff (hw : ∀ y ∈ w, p y) {text : List α} (htext : ∀ y ∈ text, ¬p y) (hne : text ≠ [])
    (pre suf : List α) : w <:+: pre ++ text ++ suf ↔ w <:+: pre ∨ w <:+: suf := by
  obtain ⟨x, text, rfl⟩ := List.exists_cons_of_ne_nil hne
  rw [List.forall_mem_cons] at htext
  rw [List.append_assoc, List.cons_append, infix_append_cons_iff hw htext.1, infix_append_left_iff hw htext.2]

end Infix
