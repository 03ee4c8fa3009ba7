import Mathlib.Algebra.BigOperators.Group.List.Basic
import Mathlib.Tactic.Linarith
import Tenso.Ohlcv.Defs

/-!
# The volume of a transaction

`inferTrades` decides each mint on its own and gives every trade the whole wSOL change as its volume. So the volumes
of a transaction add up to that change times the number of mints that move against it (`inferTrades_volume`), which is
more than the change as soon as there are two of them (`volume_counted_twice`).
-/

namespace Tenso.Ohlcv

/-- The wSOL change of a transaction, `0` if it has none. -/
def TxSnapshot.wsolDelta (tx : TxSnapshot) : ℚ :=
  ((tx.tokenDeltas.find? (·.mint = wsolMint)).map (·.deltaUi .exact)).getD 0

/-- The changes of the other mints that go against the wSOL change. -/
def TxSnapshot.opposing (tx : TxSnapshot) : List TokenDelta :=
  tx.tokenDeltas.filter fun d => d.mint ≠ wsolMint ∧ d.deltaUi .exact * tx.wsolDelta < 0

/-- The sum of the volumes of the trades of a transaction. -/
def TxSnapshot.volumeSol (tx : TxSnapshot) : ℚ := ((inferTrades .exact tx).map (·.volumeSol)).sum

/-- A mint goes against wSOL when the signs differ. -/
theorem mul_neg_iff_signs {d w : ℚ} (hw : w ≠ 0) : d * w < 0 ↔ d ≠ 0 ∧ decide (d > 0) ≠ decide (w > 0) := by
  rw [mul_neg_iff]
  rcases lt_trichotomy d 0 with hd | rfl | hd
  · rcases lt_or_gt_of_ne hw with hw | hw <;> simp [hd, hd.ne, hd.not_gt, hw, hw.not_gt]
  · simp
  · rcases lt_or_gt_of_ne hw with hw | hw <;> simp [hd, hd.ne', hd.not_gt, hw, hw.not_gt]

/-- The volume of the trade of a mint, if it has one. -/
theorem tradeOf_volume (tx : TxSnapshot) {w : ℚ} (hw : w ≠ 0) (d : TokenDelta) :
    (tradeOf .exact tx w d).map (·.volumeSol) =
      if ¬|w| < dustThresholdSol .exact ∧ d.mint ≠ wsolMint ∧ d.deltaUi .exact * w < 0 then some |w| else none := by
  have hsigns : d.deltaUi .exact * w < 0 ↔ _ := mul_neg_iff_signs hw
  unfold tradeOf
  by_cases hmint : d.mint = wsolMint
  · simp [hmint]
  by_cases h0 : d.deltaUi .exact = 0
  · simp [h0]
  rw [if_neg hmint, if_neg h0]
  by_cases hsame : decide (d.deltaUi .exact > 0) = decide (w > 0)
  · have hno : ¬d.deltaUi .exact * w < 0 := fun h => (hsigns.1 h).2 hsame
    rw [if_pos hsame, if_neg fun h => hno h.2.2]
    rfl
  · have hopposes := hsigns.2 ⟨h0, hsame⟩
    rw [if_neg hsame]
    by_cases hdust : |w| < dustThresholdSol .exact
    · rw [if_pos hdust, if_neg fun h => h.1 hdust]
      rfl
    · rw [if_neg hdust, if_pos ⟨hdust, hmint, hopposes⟩]
      rfl

/-- The volumes of the trades. -/
theorem volumes_eq (tx : TxSnapshot) : (inferTrades .exact tx).map (·.volumeSol) =
    if |tx.wsolDelta| < dustThresholdSol .exact then [] else List.replicate tx.opposing.length |tx.wsolDelta| := by
  have hzero (h : tx.wsolDelta = 0) : |tx.wsolDelta| < dustThresholdSol .exact := by
    rw [h, abs_zero, dustThresholdSol]
    norm_num
  unfold inferTrades
  cases hfind : tx.tokenDeltas.find? (·.mint = wsolMint) with
  | none =>
    have h0 : tx.wsolDelta = 0 := by rw [TxSnapshot.wsolDelta, hfind]; rfl
    rw [if_pos (hzero h0)]
    rfl
  | some wsol =>
    have hw : tx.wsolDelta = wsol.deltaUi .exact := by rw [TxSnapshot.wsolDelta, hfind]; rfl
    by_cases h0 : wsol.deltaUi .exact = 0
    · rw [if_pos (hzero (hw.trans h0))]
      simp [h0]
    · have hvolume (d : TokenDelta) := tradeOf_volume tx h0 d
      simp only [ne_eq, h0, not_false_eq_true, if_true, List.map_filterMap, hvolume]
      rw [← hw]
      by_cases hdust : |tx.wsolDelta| < dustThresholdSol .exact
      · simp [hdust]
      · have hopposing : tx.tokenDeltas.filterMap (fun d =>
            if d.mint ≠ wsolMint ∧ d.deltaUi .exact * tx.wsolDelta < 0 then some |tx.wsolDelta| else none) =
              tx.opposing.map fun _ => |tx.wsolDelta| := by
          rw [TxSnapshot.opposing, ← List.filterMap_eq_map, List.filterMap_filter]
          simp
        simpa [hdust] using hopposing

/-- **The volume of a transaction.** Every trade has the whole wSOL change as its volume. So the volumes add up to
this change times the number of mints that go against it, and stay below the change only if there is at most one such
mint, or the change is dust. -/
theorem inferTrades_volume (tx : TxSnapshot) :
    (∀ t ∈ inferTrades .exact tx, t.volumeSol = |tx.wsolDelta|) ∧
    tx.volumeSol = (if |tx.wsolDelta| < dustThresholdSol .exact then 0 else (tx.opposing.length : ℚ) * |tx.wsolDelta|) ∧
    (tx.volumeSol ≤ |tx.wsolDelta| ↔ |tx.wsolDelta| < dustThresholdSol .exact ∨ tx.opposing.length ≤ 1) := by
  have hvolumes := volumes_eq tx
  have hsum : tx.volumeSol =
      if |tx.wsolDelta| < dustThresholdSol .exact then 0 else (tx.opposing.length : ℚ) * |tx.wsolDelta| := by
    rw [TxSnapshot.volumeSol, hvolumes]
    split_ifs
    · rfl
    · rw [List.sum_replicate, nsmul_eq_mul]
  refine ⟨fun t ht => ?_, hsum, ?_⟩
  · have hmem := List.mem_map_of_mem (f := InferredTrade.volumeSol) ht
    rw [hvolumes] at hmem
    split_ifs at hmem
    · cases hmem
    · exact List.eq_of_mem_replicate hmem
  · rw [hsum]
    by_cases hdust : |tx.wsolDelta| < dustThresholdSol .exact
    · simp [hdust]
    · have hpos : 0 < |tx.wsolDelta| := by
        have : (0 : ℚ) < dustThresholdSol .exact := by norm_num [dustThresholdSol]
        linarith
      rw [if_neg hdust, mul_le_iff_le_one_left hpos, Nat.cast_le_one]
      simp [hdust]

/-- A transaction that receives 1 SOL for two mints: 2 SOL of volume. -/
theorem volume_counted_twice :
    let tx : TxSnapshot := ⟨"sig", 0, [⟨wsolMint, 0, 1000000000, 9⟩, ⟨"A", 10, 0, 0⟩, ⟨"B", 20, 0, 0⟩]⟩
    (tx.tokenDeltas.map (·.mint)).Nodup ∧ |tx.wsolDelta| = 1 ∧ ¬tx.volumeSol ≤ |tx.wsolDelta| := by
  decide +kernel

end Tenso.Ohlcv
