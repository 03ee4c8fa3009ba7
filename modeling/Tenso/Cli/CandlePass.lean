import Tenso.Cli.Trades
import Tenso.Ohlcv.Buckets

/-!
# The candle pass

After a run, `buildAndStoreCandles` infers the trades of the run's slot range, builds their candles and upserts these
(`buildAndStoreCandles_spec`). The candles of the buckets that these trades are in are replaced, and all others stay
(`refreshed_upsertAll`); in exact arithmetic this is a partial refresh of a view (`storedView_upsertAll`).

`CandlesAgree` compares the stored candles with those of all stored rows; it says that each stored view is the view of
the stored trades (`candlesAgree_iff`).
-/

namespace Tenso.Cli

open Ohlcv Storage

variable {A : Arithmetic}

/-- The orders in which a candle pass meets rows and hash maps: the rows of the query, the snapshots, and the candles of
each interval. -/
structure CandleOrders where
  rows : HashMap.IterOrder
  snapshots : HashMap.IterOrder
  candles : Int32 → HashMap.IterOrder

/-- The intervals of the candles, in seconds. -/
def candleIntervals : List Int32 := [60, 300]

/-- The upserts of the candles of the trades. -/
def candleStatements (A : Arithmetic) (ord : CandleOrders) (trades : List InferredTrade) : List (Stmt Store) :=
  candleIntervals.flatMap fun intervalSec =>
    let byMint := buildCandles A (ord.candles intervalSec) trades intervalSec.toInt
    ((ord.candles intervalSec).iter byMint.entries).flatMap fun e => upsertCandles e.1 intervalSec e.2

/-- The candle pass over a slot range. -/
def buildAndStoreCandles (A : Arithmetic) (f : Faults) (ord : CandleOrders) (fromSlot toSlot : UInt64)
    (c : Conn Store) :
    Except DbError Unit × Conn Store :=
  match queryBalanceChangesForRange ord.rows fromSlot toSlot c.store with
  | .error e => (.error e, c)
  | .ok rows => c.executeAll f (candleStatements A ord (tradesOf A ord.snapshots rows))

/-! ## The upserts -/

/-- The rows of the upserts. -/
def candleRows (A : Arithmetic) (ord : CandleOrders) (trades : List InferredTrade) : List CandlesRow :=
  candleIntervals.flatMap fun intervalSec =>
    let byMint := buildCandles A (ord.candles intervalSec) trades intervalSec.toInt
    ((ord.candles intervalSec).iter byMint.entries).flatMap fun e => e.2.map (candlesRow e.1 intervalSec)

/-- `INSERT INTO candles … ON CONFLICT … DO UPDATE` of a row. -/
def upsertCandle (r : CandlesRow) : Stmt Store := fun st => .ok { st with candles := st.candles.upsert r }

theorem candleStatements_eq (ord : CandleOrders) (trades : List InferredTrade) :
    candleStatements A ord trades = (candleRows A ord trades).map upsertCandle := by
  simp only [candleStatements, candleRows, List.map_flatMap, List.map_map]
  rfl

theorem run_upsertCandle : ∀ (rows : List CandlesRow) (st : Store),
    Stmt.run (rows.map upsertCandle) st = .ok { st with candles := st.candles.upsertAll rows }
  | [], _ => rfl
  | r :: rows, st => run_upsertCandle rows { st with candles := st.candles.upsert r }

/-- The rows of the upserts are the candles of the trades. -/
theorem mem_candleRows {ord : CandleOrders} {trades : List InferredTrade} {r : CandlesRow} :
    r ∈ candleRows A ord trades ↔ ∃ intervalSec ∈ candleIntervals, ∃ mint,
      ∃ c ∈ ((buildCandles A (ord.candles intervalSec) trades intervalSec.toInt).lookup mint).getD [],
        r = candlesRow mint intervalSec c := by
  simp only [candleRows, List.mem_flatMap, List.mem_map, ((ord.candles _).perm _).mem_iff]
  refine exists_congr fun intervalSec => and_congr_right fun _ => ?_
  constructor
  · rintro ⟨⟨mint, candles⟩, he, c, hc, rfl⟩
    refine ⟨mint, c, ?_, rfl⟩
    rw [AList.mem_lookup_iff.2 he]
    exact hc
  · rintro ⟨mint, c, hc, rfl⟩
    cases hlookup : (buildCandles A (ord.candles intervalSec) trades intervalSec.toInt).lookup mint with
    | none =>
      rw [hlookup] at hc
      cases hc
    | some candles =>
      rw [hlookup] at hc
      exact ⟨⟨mint, candles⟩, AList.mem_lookup_iff.1 hlookup, c, hc, rfl⟩

/-- A row of the upserts is the candle of the trades of a mint in a bucket, of which there is one. -/
theorem candleRows_spec {ord : CandleOrders} {trades : List InferredTrade} {r : CandlesRow}
    (h : r ∈ candleRows A ord trades) : r.intervalSec ∈ candleIntervals ∧
    (∃ t ∈ trades.filter (·.mint = r.mint), bucketStart t.blockTime r.intervalSec.toInt = r.bucketStart) ∧
    r = candlesRow r.mint r.intervalSec
      (candleOf A r.bucketStart
        (bucketTrades r.intervalSec.toInt r.bucketStart (trades.filter (·.mint = r.mint)))) := by
  obtain ⟨intervalSec, hi, mint, c, hc, rfl⟩ := mem_candleRows.1 h
  rw [buildCandles_lookup] at hc
  obtain ⟨hbucket, hcandle⟩ := mem_candleSeries_iff.1 hc
  exact ⟨hi, hbucket, congrArg (candlesRow mint intervalSec) hcandle⟩

/-- Each bucket of a mint that has a trade has a row. -/
theorem exists_candleRow {ord : CandleOrders} {trades : List InferredTrade} {intervalSec : Int32}
    (hi : intervalSec ∈ candleIntervals) {mint : String} {start : ℤ}
    (h : ∃ t ∈ trades.filter (·.mint = mint), bucketStart t.blockTime intervalSec.toInt = start) :
    ∃ r ∈ candleRows A ord trades, r.key = (mint, intervalSec, start) := by
  refine ⟨candlesRow mint intervalSec (candleOf A start (bucketTrades intervalSec.toInt start
    (trades.filter (·.mint = mint)))), mem_candleRows.2 ⟨intervalSec, hi, mint, _, ?_, rfl⟩, rfl⟩
  rw [buildCandles_lookup]
  exact mem_candleSeries_iff.2 ⟨h, rfl⟩

/-- The upserted rows have distinct keys. -/
theorem candleRows_inj {ord : CandleOrders} {trades : List InferredTrade} {r r' : CandlesRow}
    (hr : r ∈ candleRows A ord trades) (hr' : r' ∈ candleRows A ord trades) (hkey : r.key = r'.key) : r = r' := by
  obtain ⟨hmint, hi, hstart⟩ : r.mint = r'.mint ∧ r.intervalSec = r'.intervalSec ∧ r.bucketStart = r'.bucketStart := by
    simpa [CandlesRow.key] using hkey
  rw [(candleRows_spec hr).2.2, (candleRows_spec hr').2.2, hmint, hi, hstart]

/-- A refresh of the candles from some trades: a bucket of a mint that has some of them gets the candle of these, in an
order of time, and every other candle is as before. -/
structure Refreshed (A : Arithmetic) (trades : Multiset InferredTrade) (candles candles' : Table CandlesRow.key) :
    Prop where
  traded : ∀ intervalSec ∈ candleIntervals, ∀ mint start,
    View.group (tradeKey intervalSec.toInt) trades (mint, start) ≠ 0 →
      ∃ bt : List InferredTrade, ↑bt = View.group (tradeKey intervalSec.toInt) trades (mint, start) ∧
        (bt.Pairwise fun s t => s.blockTime ≤ t.blockTime) ∧
        candles'.get (mint, intervalSec, start) = some (candlesRow mint intervalSec (candleOf A start bt))
  other : ∀ mint intervalSec start,
    (intervalSec ∈ candleIntervals → View.group (tradeKey intervalSec.toInt) trades (mint, start) = 0) →
      candles'.get (mint, intervalSec, start) = candles.get (mint, intervalSec, start)

/-- The upserts refresh the candles. -/
theorem refreshed_upsertAll (ord : CandleOrders) (trades : List InferredTrade) (candles : Table CandlesRow.key) :
    Refreshed A ↑trades candles (candles.upsertAll (candleRows A ord trades)) := by
  constructor
  · intro intervalSec hi mint start hne
    obtain ⟨t, ht⟩ := Multiset.exists_mem_of_ne_zero hne
    have hbucket : ∃ t ∈ trades.filter (·.mint = mint), bucketStart t.blockTime intervalSec.toInt = start := by
      obtain ⟨ht, hkey⟩ := View.mem_group.1 ht
      rw [tradeKey, Prod.mk.injEq] at hkey
      exact ⟨t, List.mem_filter.2 ⟨ht, decide_eq_true hkey.1⟩, hkey.2⟩
    obtain ⟨r, hr, hkey⟩ := @exists_candleRow A ord _ _ hi _ _ hbucket
    obtain ⟨rfl, rfl, rfl⟩ : r.mint = mint ∧ r.intervalSec = intervalSec ∧ r.bucketStart = start := by
      simpa [CandlesRow.key] using hkey
    have hread := candles.get_upsertAll_of_mem (fun r hr r' hr' => candleRows_inj hr hr') hr
    refine ⟨bucketTrades r.intervalSec.toInt r.bucketStart (trades.filter (·.mint = r.mint)), ?_,
      bucketTrades_sorted .., ?_⟩
    · exact (Multiset.coe_eq_coe.2 (bucketTrades_perm ..)).trans (group_tradeKey ..).symm
    · rwa [← (candleRows_spec hr).2.2]
  · intro mint intervalSec start hno
    rcases candles.get_upsertAll (candleRows A ord trades) (mint, intervalSec, start) with ⟨r, hr, hkey, _⟩ | ⟨_, hget⟩
    · obtain ⟨rfl, rfl, rfl⟩ : r.mint = mint ∧ r.intervalSec = intervalSec ∧ r.bucketStart = start := by
        simpa [CandlesRow.key] using hkey
      obtain ⟨hi, ⟨t, ht, hbucket⟩, _⟩ := candleRows_spec hr
      obtain ⟨ht, hmint⟩ := List.mem_filter.1 ht
      have hkey : tradeKey r.intervalSec.toInt t = (r.mint, r.bucketStart) := by
        rw [tradeKey, of_decide_eq_true hmint, hbucket]
      exact absurd hkey (View.group_eq_zero.1 (hno hi) t ht)
    · exact hget

/-- Two refreshes of the same candles from the same trades differ in open and close, and in how the volumes are
rounded. -/
theorem Refreshed.same {trades : Multiset InferredTrade} {candles candles₁ candles₂ : Table CandlesRow.key}
    (h₁ : Refreshed A trades candles candles₁) (h₂ : Refreshed A trades candles candles₂) :
    ∀ key, (candles₁.get key).map (fun r => (r.high, r.low)) = (candles₂.get key).map (fun r => (r.high, r.low)) ∧
      (A = .exact → (candles₁.get key).map (·.volume) = (candles₂.get key).map (·.volume)) := by
  rintro ⟨mint, intervalSec, start⟩
  by_cases hno : intervalSec ∈ candleIntervals → View.group (tradeKey intervalSec.toInt) trades (mint, start) = 0
  · rw [h₁.other mint intervalSec start hno, h₂.other mint intervalSec start hno]
    exact ⟨rfl, fun _ => rfl⟩
  · obtain ⟨hi, hne⟩ := Classical.not_imp.1 hno
    obtain ⟨bt₁, hbt₁, _, hget₁⟩ := h₁.traded intervalSec hi mint start hne
    obtain ⟨bt₂, hbt₂, _, hget₂⟩ := h₂.traded intervalSec hi mint start hne
    have hperm : bt₁.Perm bt₂ := Multiset.coe_eq_coe.1 (hbt₁.trans hbt₂.symm)
    rw [hget₁, hget₂]
    refine ⟨congrArg some (candleOf_prices_perm (A := A) start hperm), ?_⟩
    rintro rfl
    exact congrArg some (congrArg (·.2.2) (candleOf_summary_perm start hperm))

/-- A refresh from a part of the trades: the trades are those that are read and the others, and also the old and the
added ones; candles of the old trades, refreshed from those that are read, are candles of all trades if no other trade
shares a bucket with one that is read and the bucket of each added trade is refreshed. -/
theorem Refreshed.of_part {old added reads others : Multiset InferredTrade}
    {candles candles₁ candles₂ : Table CandlesRow.key}
    (h₁ : Refreshed A old candles candles₁) (h₂ : Refreshed A reads candles₁ candles₂)
    (hsplit : old + added = reads + others)
    (hpart : ∀ intervalSec ∈ candleIntervals,
      (∀ t ∈ reads, ∀ t' ∈ others, tradeKey intervalSec.toInt t ≠ tradeKey intervalSec.toInt t') ∧
      ∀ t' ∈ added, ∃ t ∈ reads, tradeKey intervalSec.toInt t = tradeKey intervalSec.toInt t') :
    Refreshed A (reads + others) candles candles₂ := by
  have hgroup {intervalSec : Int32} (hi : intervalSec ∈ candleIntervals) :=
    View.group_split hsplit (hpart intervalSec hi).1 (hpart intervalSec hi).2
  constructor
  · intro intervalSec hi mint start hne
    rcases hgroup hi (mint, start) with ⟨h0, heq⟩ | ⟨h0, heq⟩
    · rw [heq]
      exact h₂.traded intervalSec hi mint start h0
    · rw [heq] at hne ⊢
      obtain ⟨bt, hbt, hsorted, hget⟩ := h₁.traded intervalSec hi mint start hne
      exact ⟨bt, hbt, hsorted, (h₂.other mint intervalSec start fun _ => h0).trans hget⟩
  · intro mint intervalSec start hno
    have hboth (hi : intervalSec ∈ candleIntervals) : View.group (tradeKey intervalSec.toInt) reads (mint, start) = 0 ∧
        View.group (tradeKey intervalSec.toInt) old (mint, start) = 0 := by
      rcases hgroup hi (mint, start) with ⟨h0, heq⟩ | ⟨h0, heq⟩
      · exact absurd (heq ▸ hno hi) h0
      · exact ⟨h0, heq ▸ hno hi⟩
    rw [h₂.other mint intervalSec start fun hi => (hboth hi).1, h₁.other mint intervalSec start fun hi => (hboth hi).2]

/-- High, low and volume of the stored candles of an interval. -/
def storedView (st : Store) (intervalSec : Int32) (k : String × ℤ) : Option (ℚ × ℚ × ℚ) :=
  (st.candles.get (k.1, intervalSec, k.2)).map fun r => r.candle.summary

/-- The upserts refresh the stored candles from the trades. -/
theorem storedView_upsertAll (ord : CandleOrders) (trades : List InferredTrade) (st : Store) {intervalSec : Int32}
    (hi : intervalSec ∈ candleIntervals) :
    storedView { st with candles := st.candles.upsertAll (candleRows .exact ord trades) } intervalSec =
      View.refresh (tradeKey intervalSec.toInt) summary (storedView st intervalSec) ↑trades := by
  have hrefreshed := refreshed_upsertAll (A := .exact) ord trades st.candles
  funext ⟨mint, start⟩
  rw [storedView, View.refresh]
  by_cases h0 : View.group (tradeKey intervalSec.toInt) (trades : Multiset InferredTrade) (mint, start) = 0
  · rw [View.of_eq_none.2 h0, Option.none_or, storedView]
    exact congrArg _ (hrefreshed.other mint intervalSec start fun _ => h0)
  · obtain ⟨bt, hbt, _, hget⟩ := hrefreshed.traded intervalSec hi mint start h0
    rw [View.of_eq_some h0, Option.some_or, ← hbt, ← candleOf_summary start bt]
    exact congrArg _ hget

/-- A candle pass that succeeds on an idle connection upserts the candles of the trades of its slot range. -/
theorem buildAndStoreCandles_spec {f : Faults} {ord : CandleOrders} {fromSlot toSlot : UInt64} {c c' : Conn Store}
    (hidle : c.txn = none) (hread : ∀ r ∈ c.store.tokenBalanceChanges.rows, Readable r)
    (hcoh : Coherent c.store.tokenBalanceChanges.rows)
    (h : buildAndStoreCandles A f ord fromSlot toSlot c = (.ok (), c')) :
    c'.txn = none ∧ ∃ trades : List InferredTrade,
      (trades : Multiset InferredTrade) =
        storedTrades A (c.store.tokenBalanceChanges.rows.filter fun r => between fromSlot toSlot r.slot) ∧
      c'.store = { c.store with candles := c.store.candles.upsertAll (candleRows A ord trades) } := by
  obtain ⟨st, txn, n⟩ := c
  simp only at hidle hread hcoh
  subst hidle
  obtain ⟨rows, hperm, hquery⟩ := queryBalanceChangesForRange_eq_ok ord.rows fromSlot toSlot fun r hr _ => hread r hr
  have hcoh' := hcoh.filter fun r => between fromSlot toSlot r.slot
  simp only [buildAndStoreCandles, hquery, candleStatements_eq] at h
  rcases Conn.executeAll_autocommit (f := f)
    ((candleRows A ord (tradesOf A ord.snapshots (rows.map handedOut))).map upsertCandle)
    st n with ⟨st', hrun, _, hst'⟩ | ⟨k, _, e, st', hrun, _⟩
  · rw [hrun] at h
    cases h
    rw [run_upsertCandle, Except.ok.injEq] at hst'
    refine ⟨rfl, tradesOf A ord.snapshots (rows.map handedOut), ?_, hst'.symm⟩
    rw [tradesOf_storedTrades (hcoh'.perm hperm), storedTrades_perm hcoh' hperm]
  · rw [hrun] at h
    cases h

/-! ## Agreement -/

/-- The candles agree with the rows: for every interval and mint, the stored candles have the bucket starts, highs,
lows and volumes that `buildCandles` gives on the trades of all stored rows. -/
def CandlesAgree (A : Arithmetic) (ord : CandleOrders) (st : Store) : Prop :=
  ∃ rows, st.tokenBalanceChanges.rows.mapM balanceChangeRow = .ok rows ∧
    ∀ intervalSec ∈ candleIntervals, ∀ mint,
      (queryOhlcv mint intervalSec st).map (·.entry) =
        (((buildCandles A (ord.candles intervalSec) (tradesOf A ord.snapshots rows)
          intervalSec.toInt).lookup mint).getD []).map (·.entry)

/-- The candles are up to date: each bucket of a mint with a stored trade has the candle of all its stored trades, in an
order of time, and there are no other candles. -/
def UpToDate (A : Arithmetic) (st : Store) : Prop :=
  Refreshed A (storedTrades A st.tokenBalanceChanges.rows) .empty st.candles

/-- The stored candles of a mint are in bucket order. -/
theorem queryOhlcv_sorted (mint : String) (intervalSec : Int32) (st : Store) :
    ((queryOhlcv mint intervalSec st).map (·.bucketStart)).Pairwise (· < ·) := by
  let rows := st.candles.rows.filter fun r => r.mint = mint ∧ r.intervalSec = intervalSec
  have hperm : (rows.insertionSort fun r s => r.bucketStart ≤ s.bucketStart).Perm rows := List.perm_insertionSort _ _
  -- distinct keys leave no ties
  have hne : (rows.insertionSort fun r s => r.bucketStart ≤ s.bucketStart).Pairwise fun r s =>
      r.bucketStart ≠ s.bucketStart := by
    have hkeys : (rows.map CandlesRow.key).Nodup := st.candles.keyed.sublist (List.filter_sublist.map _)
    have hkeys' := (hperm.map CandlesRow.key).nodup_iff.2 hkeys
    rw [List.Nodup, List.pairwise_map] at hkeys'
    refine hkeys'.imp_of_mem fun {r s} hr hs hrs he => hrs ?_
    have hr' := of_decide_eq_true (List.mem_filter.1 (hperm.mem_iff.1 hr)).2
    have hs' := of_decide_eq_true (List.mem_filter.1 (hperm.mem_iff.1 hs)).2
    rw [CandlesRow.key, CandlesRow.key, hr'.1, hr'.2, hs'.1, hs'.2, he]
  have hle := List.pairwise_insertionSort (fun r s : CandlesRow => r.bucketStart ≤ s.bucketStart) rows
  rw [queryOhlcv, List.map_map, List.pairwise_map]
  exact (hle.and hne).imp fun h => lt_of_le_of_ne h.1 h.2

theorem mem_queryOhlcv {mint : String} {intervalSec : Int32} {st : Store} {k : ℤ} {v : ℚ × ℚ × ℚ} :
    (∃ c ∈ queryOhlcv mint intervalSec st, c.bucketStart = k ∧ c.summary = v) ↔
      storedView st intervalSec (mint, k) = some v := by
  simp only [queryOhlcv, List.mem_map, List.mem_insertionSort, List.mem_filter, decide_eq_true_eq, storedView,
    Option.map_eq_some_iff, Table.get_eq_some, CandlesRow.key, Prod.mk.injEq]
  constructor
  · rintro ⟨_, ⟨r, ⟨hr, hm, hi⟩, rfl⟩, hk, hv⟩
    exact ⟨r, ⟨hr, hm, hi, hk⟩, hv⟩
  · rintro ⟨r, ⟨hr, hm, hi, hk⟩, hv⟩
    exact ⟨_, ⟨r, ⟨hr, hm, hi⟩, rfl⟩, hk, hv⟩

/-- **Agreement** says that the stored views are the views of the stored trades. -/
theorem candlesAgree_iff {ord : CandleOrders} {st : Store} (hread : ∀ r ∈ st.tokenBalanceChanges.rows, Readable r)
    (hcoh : Coherent st.tokenBalanceChanges.rows) :
    CandlesAgree .exact ord st ↔ ∀ intervalSec ∈ candleIntervals,
      storedView st intervalSec = candleView intervalSec.toInt (storedTrades .exact st.tokenBalanceChanges.rows) := by
  have hagree (intervalSec : Int32) (mint : String) : (queryOhlcv mint intervalSec st).map (·.entry) =
      (((buildCandles .exact (ord.candles intervalSec)
        (tradesOf .exact ord.snapshots (st.tokenBalanceChanges.rows.map handedOut))
        intervalSec.toInt).lookup mint).getD []).map (·.entry) ↔
      ∀ k v, storedView st intervalSec (mint, k) = some v ↔
        candleView intervalSec.toInt (storedTrades .exact st.tokenBalanceChanges.rows) (mint, k) = some v := by
    rw [entries_ext (queryOhlcv_sorted mint intervalSec st) (by rw [buildCandles_lookup]; exact candleSeries_sorted ..)]
    simp only [mem_queryOhlcv, buildCandles_view, tradesOf_storedTrades hcoh]
  have hview (intervalSec : Int32) : storedView st intervalSec =
      candleView intervalSec.toInt (storedTrades .exact st.tokenBalanceChanges.rows) ↔
      ∀ mint k v, storedView st intervalSec (mint, k) = some v ↔
        candleView intervalSec.toInt (storedTrades .exact st.tokenBalanceChanges.rows) (mint, k) = some v :=
    ⟨fun h mint k v => by rw [h], fun h => funext fun ⟨mint, k⟩ => Option.ext (h mint k)⟩
  simp only [CandlesAgree, mapM_balanceChangeRow hread, Except.ok.injEq, exists_eq_left', hagree, hview]

end Tenso.Cli
