import Mathlib.Algebra.Order.Floor.Ring
import Mathlib.Algebra.Ring.Int.Parity
import Mathlib.Data.Int.Log
import Mathlib.Data.Rat.Floor
import Mathlib.Tactic.Linarith
import Mathlib.Tactic.NormNum
import Tenso.Lib.Rounding

/-!
# Binary rounding

Rounding to the nearest rational with a given number of binary digits, of two such rationals to the one with an even
last digit: binary floats with unbounded exponents. It is a `Rounding` (`BinaryRounding.rounding`).
-/

namespace BinaryRounding

/-! ## The nearest integer -/

/-- The integer below is the nearest one, or it is as near as the next one and even. -/
def RoundsDown (x : ℚ) : Prop := Int.fract x < 1 / 2 ∨ Int.fract x = 1 / 2 ∧ Even ⌊x⌋

instance (x : ℚ) : Decidable (RoundsDown x) := inferInstanceAs (Decidable (_ ∨ _))

/-- The nearest integer, of two the even one. -/
def nearestEven (x : ℚ) : ℤ := if RoundsDown x then ⌊x⌋ else ⌊x⌋ + 1

theorem floor_le_nearestEven (x : ℚ) : ⌊x⌋ ≤ nearestEven x := by
  unfold nearestEven
  split <;> omega

theorem nearestEven_le (x : ℚ) : nearestEven x ≤ ⌊x⌋ + 1 := by
  unfold nearestEven
  split <;> omega

@[simp] theorem nearestEven_intCast (n : ℤ) : nearestEven (n : ℚ) = n := by
  have hdown : RoundsDown (n : ℚ) := by
    left
    rw [Int.fract_intCast]
    norm_num
  rw [nearestEven, if_pos hdown, Int.floor_intCast]

theorem nearestEven_mono {x y : ℚ} (h : x ≤ y) : nearestEven x ≤ nearestEven y := by
  rcases (Int.floor_le_floor h).lt_or_eq with hlt | heq
  · exact (nearestEven_le x).trans ((Int.add_one_le_iff.2 hlt).trans (floor_le_nearestEven y))
  by_cases hy : RoundsDown y
  · -- above the same integer, what is below `y` rounds down as well
    have hfract : Int.fract x ≤ Int.fract y := by
      rw [Int.fract, Int.fract, heq]
      exact sub_le_sub_right h _
    have hx : RoundsDown x := by
      rcases hy with hy | ⟨hy, heven⟩
      · exact Or.inl (hfract.trans_lt hy)
      · exact (hy ▸ hfract).lt_or_eq.imp_right fun hx => ⟨hx, heq ▸ heven⟩
    rw [nearestEven, if_pos hx, nearestEven, if_pos hy, heq]
  · rw [nearestEven, nearestEven, if_neg hy, ← heq]
    exact nearestEven_le x

theorem roundsDown_neg {x : ℚ} (h0 : Int.fract x ≠ 0) (hfloor : ⌊-x⌋ = -⌊x⌋ - 1) :
    RoundsDown (-x) ↔ ¬RoundsDown x := by
  have heven : Even ⌊-x⌋ ↔ ¬Even ⌊x⌋ := by
    rw [hfloor, Int.even_iff, Int.even_iff]
    omega
  rw [RoundsDown, RoundsDown, Int.fract_neg h0, heven]
  rcases lt_trichotomy (Int.fract x) (1 / 2) with hlt | heq | hgt
  · have hnot : ¬1 - Int.fract x < 1 / 2 := by linarith
    have hne : 1 - Int.fract x ≠ 1 / 2 := fun h => by linarith
    exact iff_of_false (fun h => h.elim hnot fun h => hne h.1) fun h => h (Or.inl hlt)
  · rw [heq]
    norm_num
  · have hlt : 1 - Int.fract x < 1 / 2 := by linarith
    exact iff_of_true (Or.inl hlt) fun h => h.elim hgt.not_gt fun h => hgt.ne' h.1

theorem nearestEven_neg (x : ℚ) : nearestEven (-x) = -nearestEven x := by
  by_cases h0 : Int.fract x = 0
  · obtain ⟨n, rfl⟩ := Int.fract_eq_zero_iff.1 h0
    rw [← Int.cast_neg, nearestEven_intCast, nearestEven_intCast]
  have hfloor : ⌊-x⌋ = -⌊x⌋ - 1 := by
    have h : (⌊-x⌋ : ℚ) = -⌊x⌋ - 1 := by
      have hfract := Int.fract_neg h0
      rw [Int.fract, Int.fract] at hfract
      linarith
    exact_mod_cast h
  by_cases hx : RoundsDown x
  · rw [nearestEven, if_neg fun h => (roundsDown_neg h0 hfloor).1 h hx, nearestEven, if_pos hx, hfloor]
    omega
  · rw [nearestEven, if_pos ((roundsDown_neg h0 hfloor).2 hx), nearestEven, if_neg hx, hfloor]
    omega

/-! ## The nearest float -/

/-- The distance of the floats with `digits` digits around `x`. -/
def ulp (digits : ℕ) (x : ℚ) : ℚ := 2 ^ (Int.log 2 |x| + 1 - digits)

/-- The nearest float with `digits` digits. -/
def nearest (digits : ℕ) (x : ℚ) : ℚ := nearestEven (x / ulp digits x) * ulp digits x

theorem ulp_pos (digits : ℕ) (x : ℚ) : 0 < ulp digits x := zpow_pos two_pos _

theorem nearest_neg (digits : ℕ) (x : ℚ) : nearest digits (-x) = -nearest digits x := by
  rw [nearest, ulp, abs_neg, neg_div, nearestEven_neg, Int.cast_neg, neg_mul]
  rfl

variable {digits : ℕ} {x y : ℚ}

/-- A multiple of the distance is a float. -/
theorem nearest_eq_self {n : ℤ} (h : n * ulp digits x = x) : nearest digits x = x := by
  rw [nearest, (div_eq_iff (ulp_pos digits x).ne').2 h.symm, nearestEven_intCast, h]

theorem pow_mul_ulp (digits n : ℕ) (hx : 0 < x) : (2 : ℚ) ^ n * ulp digits x = 2 ^ (Int.log 2 x + 1 + n - digits) := by
  rw [ulp, abs_of_pos hx, ← zpow_natCast, ← zpow_add₀ two_ne_zero]
  congr 1
  omega

/-- The digits of the nearest float, as an integer. -/
theorem nearestEven_bounds (hdigits : 1 ≤ digits) (hx : 0 < x) :
    2 ^ (digits - 1) ≤ nearestEven (x / ulp digits x) ∧ nearestEven (x / ulp digits x) ≤ 2 ^ digits := by
  constructor
  · have hle : ((2 ^ (digits - 1) : ℤ) : ℚ) ≤ x / ulp digits x := by
      rw [le_div_iff₀ (ulp_pos digits x), Int.cast_pow, Int.cast_ofNat, pow_mul_ulp _ _ hx,
        show Int.log 2 x + 1 + (digits - 1 : ℕ) - digits = Int.log 2 x by omega]
      exact_mod_cast Int.zpow_log_le_self one_lt_two hx
    have h := nearestEven_mono hle
    rwa [nearestEven_intCast] at h
  · have hle : x / ulp digits x ≤ ((2 ^ digits : ℤ) : ℚ) := by
      rw [div_le_iff₀ (ulp_pos digits x), Int.cast_pow, Int.cast_ofNat, pow_mul_ulp _ _ hx, add_sub_cancel_right]
      exact_mod_cast (Int.lt_zpow_succ_log_self one_lt_two x).le
    have h := nearestEven_mono hle
    rwa [nearestEven_intCast] at h

/-- The nearest float lies between the same powers of two. -/
theorem nearest_bounds (hdigits : 1 ≤ digits) (hx : 0 < x) :
    2 ^ Int.log 2 x ≤ nearest digits x ∧ nearest digits x ≤ 2 ^ (Int.log 2 x + 1) := by
  obtain ⟨hlo, hhi⟩ := nearestEven_bounds hdigits hx
  constructor
  · have h := pow_mul_ulp digits (digits - 1) hx
    rw [show Int.log 2 x + 1 + (digits - 1 : ℕ) - digits = Int.log 2 x by omega] at h
    rw [← h, nearest]
    exact mul_le_mul_of_nonneg_right (by exact_mod_cast hlo) (ulp_pos digits x).le
  · have h := pow_mul_ulp digits digits hx
    rw [add_sub_cancel_right] at h
    rw [← h, nearest]
    exact mul_le_mul_of_nonneg_right (by exact_mod_cast hhi) (ulp_pos digits x).le

theorem nearest_pos (hdigits : 1 ≤ digits) (hx : 0 < x) : 0 < nearest digits x :=
  (zpow_pos two_pos _).trans_le (nearest_bounds hdigits hx).1

/-- A float is its own nearest float. -/
theorem nearest_idem_of_pos (hdigits : 1 ≤ digits) (hx : 0 < x) :
    nearest digits (nearest digits x) = nearest digits x := by
  obtain ⟨hlo, hhi⟩ := nearest_bounds hdigits hx
  have hpos := nearest_pos hdigits hx
  rcases hhi.lt_or_eq with hlt | heq
  · -- the distance is the same
    have hlog : Int.log 2 (nearest digits x) = Int.log 2 x := by
      refine le_antisymm (Int.lt_add_one_iff.1 ((Int.lt_zpow_iff_log_lt one_lt_two hpos).1 ?_))
        ((Int.zpow_le_iff_le_log one_lt_two hpos).1 ?_)
      · exact_mod_cast hlt
      · exact_mod_cast hlo
    have hulp : ulp digits (nearest digits x) = ulp digits x := by
      rw [ulp, abs_of_pos hpos, hlog, ulp, abs_of_pos hx]
    exact nearest_eq_self (n := nearestEven (x / ulp digits x)) (by rw [hulp]; rfl)
  · -- the next power of two
    have hlog : Int.log 2 (nearest digits x) = Int.log 2 x + 1 := by
      rw [heq]
      exact_mod_cast Int.log_zpow (R := ℚ) one_lt_two (Int.log 2 x + 1)
    refine nearest_eq_self (n := 2 ^ (digits - 1)) ?_
    rw [Int.cast_pow, Int.cast_ofNat, pow_mul_ulp _ _ hpos, hlog,
      show Int.log 2 x + 1 + 1 + (digits - 1 : ℕ) - digits = Int.log 2 x + 1 by omega, heq]

theorem nearest_mono_of_pos (hdigits : 1 ≤ digits) (hx : 0 < x) (h : x ≤ y) : nearest digits x ≤ nearest digits y := by
  have hy := hx.trans_le h
  rcases (Int.log_mono_right (b := 2) hx h).lt_or_eq with hlt | heq
  · calc nearest digits x ≤ 2 ^ (Int.log 2 x + 1) := (nearest_bounds hdigits hx).2
      _ ≤ 2 ^ Int.log 2 y := zpow_le_zpow_right₀ one_le_two hlt
      _ ≤ nearest digits y := (nearest_bounds hdigits hy).1
  · have hulp : ulp digits x = ulp digits y := by rw [ulp, ulp, abs_of_pos hx, abs_of_pos hy, heq]
    rw [nearest, nearest, hulp]
    refine mul_le_mul_of_nonneg_right ?_ (ulp_pos digits y).le
    exact_mod_cast nearestEven_mono (div_le_div_of_nonneg_right h (ulp_pos digits y).le)

theorem nearest_zero : nearest digits (0 : ℚ) = 0 := nearest_eq_self (n := 0) (by rw [Int.cast_zero, zero_mul])

theorem nearest_mono (hdigits : 1 ≤ digits) : Monotone (nearest digits : ℚ → ℚ) := by
  intro x y h
  rcases lt_trichotomy x 0 with hx | rfl | hx
  · rcases lt_or_ge y 0 with hy | hy
    · have hneg := nearest_mono_of_pos hdigits (neg_pos.2 hy) (neg_le_neg h)
      rwa [nearest_neg, nearest_neg, neg_le_neg_iff] at hneg
    · have hx' := nearest_pos hdigits (neg_pos.2 hx)
      rw [nearest_neg, neg_pos] at hx'
      refine hx'.le.trans ?_
      rcases hy.eq_or_lt with rfl | hy
      · exact nearest_zero.ge
      · exact (nearest_pos hdigits hy).le
  · rw [nearest_zero]
    rcases h.eq_or_lt with rfl | hy
    · exact nearest_zero.ge
    · exact (nearest_pos hdigits hy).le
  · exact nearest_mono_of_pos hdigits hx h

theorem nearest_idem (hdigits : 1 ≤ digits) (x : ℚ) : nearest digits (nearest digits x) = nearest digits x := by
  rcases lt_trichotomy x 0 with hx | rfl | hx
  · have h := nearest_idem_of_pos hdigits (neg_pos.2 hx)
    rwa [nearest_neg, nearest_neg, neg_inj] at h
  · rw [nearest_zero, nearest_zero]
  · exact nearest_idem_of_pos hdigits hx

/-- Rounding to the nearest float is a rounding. -/
def rounding (digits : ℕ) (hdigits : 1 ≤ digits) : Rounding ℚ where
  round := nearest digits
  monotone := nearest_mono hdigits
  neg := nearest_neg digits
  idem := nearest_idem hdigits
  pos := nearest_pos hdigits

end BinaryRounding
