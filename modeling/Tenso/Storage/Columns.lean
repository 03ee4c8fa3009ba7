import Tenso.Lib.CutOrder
import Tenso.Storage.Replace

/-!
# Columns

What fits a column, and how a column orders what it holds.

- A slot is kept as a `BIGINT`: slots from `2 ^ 63` on are negative there, so the order of the column is the order of
  the slots cut at `2 ^ 63` (`toInt64_le_iff`).
- An amount fits a `UBIGINT` below `2 ^ 63`, decimals fit a `TINYINT` below `128` (`tokenBalanceChangesRow_isOk_iff`).
-/

namespace Tenso.Storage

/-! ## `BIGINT` -/

theorem toInt_toInt64 {x : UInt64} (h : x.toNat < 2 ^ 63) : x.toInt64.toInt = x.toNat := by
  rw [← UInt64.ofNat_toNat (x := x), UInt64.toInt64_ofNat', Int64.toInt_ofNat', Int64.size, UInt64.toNat_ofNat',
    Nat.mod_eq_of_lt x.toNat_lt]
  exact Int.bmod_eq_of_le (by omega) (by omega)

theorem toInt_toInt64_of_ge {x : UInt64} (h : 2 ^ 63 ≤ x.toNat) : x.toInt64.toInt = x.toNat - 2 ^ 64 := by
  have hx := x.toNat_lt
  rw [← UInt64.ofNat_toNat (x := x), UInt64.toInt64_ofNat', Int64.toInt_ofNat', Int64.size,
    Int.bmod_neg _ _ (by omega), UInt64.ofNat_toNat]
  omega

/-- The slots that are negative in a `BIGINT`. -/
def negativeSlots : UpperSet ℕ := .Ici (2 ^ 63)

theorem mem_negativeSlots {n : ℕ} : n ∈ negativeSlots ↔ 2 ^ 63 ≤ n := UpperSet.mem_Ici_iff

/-- **The order of the column** is that of the slots, with the negative ones first. -/
theorem toInt64_le_iff {x y : UInt64} : x.toInt64 ≤ y.toInt64 ↔ CutOrder.CutLE negativeSlots x.toNat y.toNat := by
  have hx := x.toNat_lt
  have hy := y.toNat_lt
  simp only [Int64.le_iff_toInt_le, CutOrder.CutLE, mem_negativeSlots]
  by_cases hx63 : x.toNat < 2 ^ 63
  · by_cases hy63 : y.toNat < 2 ^ 63
    · rw [toInt_toInt64 hx63, toInt_toInt64 hy63]
      omega
    · rw [toInt_toInt64 hx63, toInt_toInt64_of_ge (by omega)]
      omega
  · by_cases hy63 : y.toNat < 2 ^ 63
    · rw [toInt_toInt64_of_ge (by omega), toInt_toInt64 hy63]
      omega
    · rw [toInt_toInt64_of_ge (by omega), toInt_toInt64_of_ge (by omega)]
      omega

/-! ## `UBIGINT` and `TINYINT` -/

theorem toUBigInt_toInt64 (n : UInt64) :
    toUBigInt n.toInt64 = if n.toNat < 2 ^ 63 then .ok n else .error .conversion := by
  have hzero : (0 : Int64).toInt = 0 := rfl
  have hn := n.toNat_lt
  simp only [toUBigInt, Int64.lt_iff_toInt_lt, hzero]
  by_cases h : n.toNat < 2 ^ 63
  · rw [if_pos h, if_neg, UInt64.toUInt64_toInt64]
    rw [toInt_toInt64 h]
    omega
  · rw [if_neg h, if_pos]
    rw [toInt_toInt64_of_ge (by omega)]
    omega

theorem toTinyInt_isOk_iff (d : UInt8) : (∃ x, toTinyInt (Int32.ofNat d.toNat) = .ok x) ↔ d.toNat < 128 := by
  have hd := d.toNat_lt
  have hx : (Int32.ofNat d.toNat).toInt = d.toNat := by
    rw [Int32.toInt_ofNat', Int32.size]
    exact Int.bmod_eq_of_le (by omega) (by omega)
  have hlo : (-128 : Int32).toInt = -128 := rfl
  have hhi : (127 : Int32).toInt = 127 := rfl
  simp only [toTinyInt, Int32.le_iff_toInt_le, hx, hlo, hhi]
  by_cases h : d.toNat < 128
  · rw [if_pos (by omega)]
    simp [h]
  · rw [if_neg (by omega)]
    simp [h]

/-! ## Token rows -/

/-- A row can be stored when its amounts and its decimals fit their columns. -/
theorem tokenBalanceChangesRow_isOk_iff {slot : Int64} {blockTime : Option ℤ} {sig mint : String} {pre post : UInt64}
    {d : UInt8} : (∃ r, tokenBalanceChangesRow slot blockTime (sig, mint, pre, post, d) = .ok r) ↔
      pre.toNat < 2 ^ 63 ∧ post.toNat < 2 ^ 63 ∧ d.toNat < 128 := by
  simp only [tokenBalanceChangesRow, toUBigInt_toInt64, bind, Except.bind, ← toTinyInt_isOk_iff]
  by_cases hpre : pre.toNat < 2 ^ 63
  · by_cases hpost : post.toNat < 2 ^ 63
    · simp only [hpre, hpost, if_true, true_and]
      cases toTinyInt (Int32.ofNat d.toNat) with
      | error e => simp
      | ok x => simp [pure, Except.pure]
    · simp only [hpre, hpost, if_true, if_false, false_and, and_false, reduceCtorEq, exists_false]
  · simp only [hpre, if_false, false_and, reduceCtorEq, exists_false]

theorem inRange_iff_forall {row : SlotBatchRow} : InRange row ↔ ∀ x ∈ coalesceTokenBalanceRows row.tokenChanges,
    ∃ r, tokenBalanceChangesRow row.slot.toInt64 row.blockTime x = .ok r := by
  have hmap : (∃ rows : List TokenBalanceChangesRow, tokenRows row = rows.map .ok) ↔
      ∀ x ∈ coalesceTokenBalanceRows row.tokenChanges,
        ∃ r, tokenBalanceChangesRow row.slot.toInt64 row.blockTime x = .ok r := by
    rw [tokenRows]
    induction coalesceTokenBalanceRows row.tokenChanges with
    | nil => exact ⟨fun _ _ hx => absurd hx List.not_mem_nil, fun _ => ⟨[], rfl⟩⟩
    | cons x xs ih =>
      rw [List.forall_mem_cons, ← ih]
      constructor
      · rintro ⟨rows, h⟩
        cases rows with
        | nil => cases h
        | cons r rows =>
          rw [List.map_cons, List.map_cons, List.cons.injEq] at h
          exact ⟨⟨r, h.1⟩, rows, h.2⟩
      · rintro ⟨⟨r, hr⟩, rows, hrows⟩
        exact ⟨r :: rows, by rw [List.map_cons, hr, hrows, List.map_cons]⟩
  rw [← hmap]
  constructor
  · intro h
    exact ⟨_, h⟩
  · rintro ⟨_, h⟩
    exact (inRange_iff.1 h).1

theorem ofInt_toNat (d : UInt8) : UInt8.ofInt d.toNat = d := by
  have hd := d.toNat_lt
  apply UInt8.toNat_inj.1
  simp only [UInt8.ofInt, UInt8.toNat_ofNat']
  omega

/-- Stored rows fit their columns. -/
theorem newTokenBalanceChanges_fits {row : SlotBatchRow} {r : TokenBalanceChangesRow}
    (hr : r ∈ newTokenBalanceChanges row) :
    r.preAmount.toNat < 2 ^ 63 ∧ r.postAmount.toNat < 2 ^ 63 ∧ (UInt8.ofInt r.decimals.toInt).toNat < 128 := by
  obtain ⟨⟨sig, mint, pre, post, d⟩, _, he⟩ := mem_newTokenBalanceChanges.1 hr
  have hfits := tokenBalanceChangesRow_isOk_iff.1 ⟨r, he⟩
  obtain ⟨_, _, _, _, hpre, hpost, hd⟩ := tokenBalanceChangesRow_eq_ok he
  rwa [hpre, hpost, hd, ofInt_toNat]

end Tenso.Storage
