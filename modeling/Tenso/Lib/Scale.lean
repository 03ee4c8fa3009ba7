import Mathlib.Algebra.Order.Field.Basic
import Mathlib.Order.Monotone.Defs
import Mathlib.Tactic.Linarith
import Mathlib.Tactic.Positivity

/-!
# Scales

The vertical scale of a chart maps a range of values onto a segment, from its far end to its near one (`scale`): it
turns the order around, keeps its values on the segment, and reaches both ends. The horizontal one divides a segment
into slots of one width (`center`): the centres are in order, and bars overlap if and only if they are wider than the
slots.
-/

namespace Scale

variable {K : Type} [Field K]

/-- The place of `x` on a segment, where the values from `lo` on span `range`. -/
def scale (length lo range x : K) : K := length - (x - lo) / range * length

/-- The centre of slot `i` of width `w`, from `left` on. -/
def center (left w : K) (i : ℕ) : K := left + i * w + w / 2

section Vertical

variable {length lo range : K}

@[simp] theorem scale_lo : scale length lo range lo = length := by simp [scale]

theorem scale_hi (hrange : range ≠ 0) : scale length lo range (lo + range) = 0 := by
  simp [scale, hrange]

variable [LinearOrder K] [IsStrictOrderedRing K]

theorem scale_strictAnti (hlength : 0 < length) (hrange : 0 < range) : StrictAnti (scale length lo range) := by
  intro x y hxy
  have hfrac : (x - lo) / range < (y - lo) / range := (div_lt_div_iff_of_pos_right hrange).2 (by linarith)
  have hmul := mul_lt_mul_of_pos_right hfrac hlength
  simp only [scale]
  linarith

/-- Values of the range are on the segment. -/
theorem scale_mem (hlength : 0 ≤ length) (hrange : 0 < range) {x : K} (hlo : lo ≤ x) (hhi : x ≤ lo + range) :
    0 ≤ scale length lo range x ∧ scale length lo range x ≤ length := by
  have hpos : 0 ≤ (x - lo) / range := div_nonneg (by linarith) hrange.le
  have hone : (x - lo) / range ≤ 1 := (div_le_one hrange).2 (by linarith)
  have hle := mul_le_mul_of_nonneg_right hone hlength
  have hnonneg := mul_nonneg hpos hlength
  simp only [scale]
  constructor <;> linarith

end Vertical

section Horizontal

variable [LinearOrder K] [IsStrictOrderedRing K] {left w b : K} {i j : ℕ}

/-- A later slot starts at or behind the end of this one. -/
theorem center_add_le (hw : 0 ≤ w) (h : i < j) : center left w i + w ≤ center left w j := by
  have hij : (i : K) + 1 ≤ j := by exact_mod_cast h
  have hmul := mul_le_mul_of_nonneg_right hij hw
  simp only [center]
  linarith

theorem center_lt (hw : 0 < w) (h : i < j) : center left w i < center left w j := by
  have hle : center left w i + w ≤ center left w j := center_add_le hw.le h
  linarith

/-- Bars that are no wider than the slots do not overlap. -/
theorem bars_apart (hw : 0 ≤ w) (hb : b ≤ w) (h : i < j) : center left w i + b / 2 ≤ center left w j - b / 2 := by
  have hle : center left w i + w ≤ center left w j := center_add_le hw h
  linarith

/-- Bars no wider than the slots are on the segment of `n` slots. -/
theorem bar_mem (hw : 0 ≤ w) (hb : b ≤ w) {n : ℕ} (h : i < n) :
    left ≤ center left w i - b / 2 ∧ center left w i + b / 2 ≤ left + n * w := by
  have hi : (0 : K) ≤ i * w := by positivity
  have hin : (i : K) + 1 ≤ n := by exact_mod_cast h
  have hmul := mul_le_mul_of_nonneg_right hin hw
  simp only [center]
  constructor <;> linarith

/-- Bars that are wider than the slots overlap their neighbours. -/
theorem bars_overlap (hb : w < b) : center left w (i + 1) - b / 2 < center left w i + b / 2 := by
  simp only [center, Nat.cast_add, Nat.cast_one]
  linarith

end Horizontal

end Scale
