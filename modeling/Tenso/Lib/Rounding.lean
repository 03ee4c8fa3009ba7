import Mathlib.Algebra.BigOperators.Group.List.Basic
import Mathlib.Algebra.Order.Group.Abs
import Mathlib.Order.Monotone.Defs

/-!
# Rounded arithmetic

Floats as exact numbers with a rounding after each operation, where nothing overflows and no positive result is so small
that it becomes zero. Signs, absolute values and comparisons are exact. `exact` does not round.

A rounded sum depends on the order of its terms, but of non-negative floats it is at least each of them (`le_sum`).
-/

/-- A rounding to the floats among the numbers `α`. -/
structure Rounding (α : Type) [AddCommGroup α] [LinearOrder α] where
  round : α → α
  monotone : Monotone round
  neg (x : α) : round (-x) = -round x
  idem (x : α) : round (round x) = round x
  pos {x : α} (h : 0 < x) : 0 < round x

namespace Rounding

variable {α : Type} [AddCommGroup α] [LinearOrder α]

/-- No rounding. -/
def exact : Rounding α := ⟨id, monotone_id, fun _ => rfl, fun _ => rfl, id⟩

/-- The sum of some floats, one after the other. -/
def sum (R : Rounding α) (l : List α) : α := l.foldl (fun s x => R.round (s + x)) 0

theorem exact_sum (l : List α) : exact.sum l = l.sum := by
  rw [List.sum_eq_foldl]
  rfl

section Ordered

variable [IsOrderedAddMonoid α] (R : Rounding α)

theorem round_zero : R.round 0 = 0 := by
  have h := R.neg 0
  rw [neg_zero] at h
  exact self_eq_neg.1 h

theorem round_nonneg {x : α} (h : 0 ≤ x) : 0 ≤ R.round x := by
  have := R.monotone h
  rwa [R.round_zero] at this

theorem abs_round (x : α) : |R.round x| = R.round |x| := by
  rcases le_total 0 x with h | h
  · rw [abs_of_nonneg h, abs_of_nonneg (R.round_nonneg h)]
  · have hneg := R.round_nonneg (neg_nonneg.2 h)
    rw [abs_of_nonpos h, R.neg, abs_of_nonpos]
    rwa [R.neg, neg_nonneg] at hneg

theorem le_foldl {l : List α} (hl : ∀ x ∈ l, 0 ≤ x) {s : α} (hs : R.round s = s) :
    s ≤ l.foldl (fun s x => R.round (s + x)) s := by
  induction l generalizing s with
  | nil => exact le_rfl
  | cons x l ih =>
    have hx : s ≤ R.round (s + x) := by
      have := R.monotone (le_add_of_nonneg_right (a := s) (hl x List.mem_cons_self))
      rwa [hs] at this
    exact hx.trans (ih (fun y hy => hl y (List.mem_cons_of_mem x hy)) (R.idem _))

/-- A rounded sum of non-negative floats is at least each of them. -/
theorem le_sum {l : List α} (hl : ∀ x ∈ l, 0 ≤ x ∧ R.round x = x) {x : α} (hx : x ∈ l) : x ≤ R.sum l := by
  obtain ⟨pre, post, rfl⟩ := List.append_of_mem hx
  have hpre : 0 ≤ pre.foldl (fun s x => R.round (s + x)) 0 :=
    R.le_foldl (fun y hy => (hl y (by simp [hy])).1) R.round_zero
  have hfirst : x ≤ R.round (pre.foldl (fun s x => R.round (s + x)) 0 + x) := by
    have := R.monotone (le_add_of_nonneg_left (a := x) hpre)
    rwa [(hl x hx).2] at this
  rw [sum, List.foldl_append, List.foldl_cons]
  exact hfirst.trans (R.le_foldl (fun y hy => (hl y (by simp [hy])).1) (R.idem _))

end Ordered

end Rounding
