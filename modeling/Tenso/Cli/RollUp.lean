import Tenso.Cli.Reruns
import Tenso.Ohlcv.RollUp

/-!
# The five-minute series is the roll-up of the one-minute series

A candle pass builds its two series from the same trades, each on its own. Whatever was stored before, the five-minute
candles that it leaves in the table are the roll-up of the one-minute candles that it leaves there
(`candlePass_rollUp`).
-/

namespace Tenso.Cli

open Ohlcv Storage

variable {A : Arithmetic}

/-- The series that a candle pass builds for a mint from the rows of its query. -/
def passSeries (A : Arithmetic) (ord : CandleOrders) (rows : List BalanceChangeRow) (mint : String)
    (intervalSec : Int32) : List Candle :=
  ((buildCandles A (ord.candles intervalSec) (tradesOf A ord.snapshots rows) intervalSec.toInt).lookup mint).getD []

/-- The table holds a series. -/
def HoldsSeries (st : Store) (mint : String) (intervalSec : Int32) (series : List Candle) : Prop :=
  ∀ c ∈ series, st.candles.get (mint, intervalSec, c.bucketStart) = some (candlesRow mint intervalSec c)

/-- A candle pass that succeeds leaves its series in the table. -/
theorem buildAndStoreCandles_holds {f : Faults} {ord : CandleOrders} {fromSlot toSlot : UInt64} {c c' : Conn Store}
    (hidle : c.txn = none) (h : buildAndStoreCandles A f ord fromSlot toSlot c = (.ok (), c')) :
    ∃ rows, queryBalanceChangesForRange ord.rows fromSlot toSlot c.store = .ok rows ∧
      ∀ mint, ∀ intervalSec ∈ candleIntervals, HoldsSeries c'.store mint intervalSec
      (passSeries A ord rows mint intervalSec) := by
  obtain ⟨st, txn, n⟩ := c
  simp only at hidle
  subst hidle
  rw [buildAndStoreCandles] at h
  cases hquery : queryBalanceChangesForRange ord.rows fromSlot toSlot st with
  | error e =>
    rw [hquery] at h
    cases h
  | ok rows =>
    simp only [hquery, candleStatements_eq] at h
    refine ⟨rows, rfl, fun mint intervalSec hi x hx => ?_⟩
    rcases Conn.executeAll_autocommit (f := f)
        ((candleRows A ord (tradesOf A ord.snapshots rows)).map upsertCandle) st n with
      ⟨st', hrun, _, hst'⟩ | ⟨k, _, e, st', hrun, _⟩
    · rw [hrun] at h
      cases h
      rw [run_upsertCandle, Except.ok.injEq] at hst'
      subst hst'
      have hr : candlesRow mint intervalSec x ∈ candleRows A ord (tradesOf A ord.snapshots rows) :=
        mem_candleRows.2 ⟨intervalSec, hi, mint, x, hx, rfl⟩
      exact st.candles.get_upsertAll_of_mem (fun r hr r' hr' => candleRows_inj hr hr') hr
    · rw [hrun] at h
      cases h

/-- The series of a pass roll up. -/
theorem passSeries_rollUp (ord : CandleOrders) (rows : List BalanceChangeRow) (mint : String) :
    passSeries .exact ord rows mint 300 = rollUp 300 (passSeries .exact ord rows mint 60) := by
  have h :=
    buildCandles_rollUp (ord.candles 300) (ord.candles 60) (tradesOf .exact ord.snapshots rows) (a := 60) (k := 5)
    (by decide) (by decide) mint
  have h300 : (300 : Int32).toInt = 5 * 60 := rfl
  have h60 : (60 : Int32).toInt = 60 := rfl
  rw [passSeries, passSeries, h300, h60, h]
  cases (buildCandles .exact (ord.candles 60) (tradesOf .exact ord.snapshots rows) 60).lookup mint <;> rfl

/-- **Coarse candles are the roll-up of fine ones**, for all trades and intervals and in any iteration orders. So a
candle pass leaves a five-minute series in the table that is the roll-up of the one-minute series that it leaves
there. -/
theorem candlePass_rollUp :
    (∀ (ord ord' : HashMap.IterOrder) (trades : List InferredTrade) (a k : ℤ), 0 < a → 0 < k → ∀ mint,
      (buildCandles .exact ord trades (k * a)).lookup mint =
        ((buildCandles .exact ord' trades a).lookup mint).map (rollUp (k * a))) ∧
    ∀ (f : Faults) (ord : CandleOrders) (fromSlot toSlot : UInt64) (c c' : Conn Store), c.txn = none →
      buildAndStoreCandles .exact f ord fromSlot toSlot c = (.ok (), c') →
      ∃ rows, queryBalanceChangesForRange ord.rows fromSlot toSlot c.store = .ok rows ∧ ∀ mint,
        HoldsSeries c'.store mint 60 (passSeries .exact ord rows mint 60) ∧
        HoldsSeries c'.store mint 300 (passSeries .exact ord rows mint 300) ∧
        passSeries .exact ord rows mint 300 = rollUp 300 (passSeries .exact ord rows mint 60) := by
  refine ⟨fun ord ord' trades a k ha hk mint => buildCandles_rollUp ord ord' trades ha hk mint, ?_⟩
  intro f ord fromSlot toSlot c c' hidle h
  obtain ⟨rows, hquery, hholds⟩ := buildAndStoreCandles_holds hidle h
  exact ⟨rows, hquery, fun mint => ⟨hholds mint 60 (by decide), hholds mint 300 (by decide),
    passSeries_rollUp ord rows mint⟩⟩

/-- Two trades in neighbouring minutes, before and after the epoch. -/
theorem candlePass_rollUp_example :
    (buildCandles .exact .stored [⟨"b", 61, "mint", 3, 1⟩, ⟨"a", -1, "mint", 2, 1⟩, ⟨"c", 1, "mint", 5, 1⟩]
      (5 * 60)).lookup "mint" =
        some [⟨-300, 2, 2, 2, 2, 1⟩, ⟨0, 5, 5, 3, 3, 2⟩] := by
  rw [candlePass_rollUp.1 .stored (.rotate 1) _ 60 5 (by decide) (by decide) "mint"]
  decide +kernel

end Tenso.Cli
