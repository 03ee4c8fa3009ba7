import Tenso.Cli.CandlePass

/-!
# Re-running the candle pass

The snapshots of the transactions leave a hash map in any order, and the sort of the trades by time keeps that order
within a second. So two passes over the same rows give the same candles, in whatever orders they meet their hash maps,
exactly when the transactions that trade a mint in the first second of a bucket agree on the first price there, and
those that trade it in the last second agree on the last price (`reruns_agree_iff`). Two swaps of one mint at
different prices in one second break it (`reruns_differ`).
-/

namespace Tenso.Cli

open Ohlcv Storage

variable {A : Arithmetic}

/-! ## The transactions of the rows -/

/-- The snapshots of the transactions of some rows. -/
def rowSnapshots (rows : List BalanceChangeRow) : List TxSnapshot :=
  (rows.map (·.1)).dedup.filterMap fun sig => rowSnapshot sig (sigRows rows sig)

/-- The trades of a mint in a transaction. -/
def mintTrades (A : Arithmetic) (mint : String) (tx : TxSnapshot) : List InferredTrade :=
  (inferTrades A tx).filter (·.mint = mint)

/-- Ties agree for every mint, where the trades are those of some transactions. -/
def TxTiesAgree (A : Arithmetic) (interval : ℤ) (txs : List TxSnapshot) : Prop :=
  ∀ mint, TiesAgree interval (txs.map (mintTrades A mint))

/-- The code has the snapshots of the transactions, in some order: of any list of the signatures of the rows. -/
theorem snapshotsFromBalanceRows_perm (ord : HashMap.IterOrder) {rows : List BalanceChangeRow} {sigs : List String}
    (hd : sigs.Nodup) (hsigs : ∀ r ∈ rows, r.1 ∈ sigs) : (snapshotsFromBalanceRows ord rows).Perm
      (sigs.filterMap fun sig => rowSnapshot sig (sigRows rows sig)) := by
  have hkeys : ∀ sig ∈ rows.foldl pushDelta ∅, sig ∈ sigs := by
    intro sig hsig
    rw [← AList.lookup_isSome, lookup_foldl_pushDelta] at hsig
    cases hrows : sigRows rows sig with
    | nil => simp [hrows, rowSnapshot] at hsig
    | cons r rs =>
      have hr : r ∈ sigRows rows sig := hrows ▸ List.mem_cons_self
      simp only [sigRows, List.mem_filter, decide_eq_true_eq] at hr
      exact hr.2.2 ▸ hsigs r hr.1
  have hvalues := HashMap.values_perm (rows.foldl pushDelta ∅) hd hkeys
  simp only [lookup_foldl_pushDelta] at hvalues
  exact ((ord.perm _).map _).trans hvalues

theorem snapshots_perm (ord : HashMap.IterOrder) (rows : List BalanceChangeRow) :
    (snapshotsFromBalanceRows ord rows).Perm (rowSnapshots rows) :=
  snapshotsFromBalanceRows_perm ord (List.nodup_dedup _) fun _ hr => List.mem_dedup.2 (List.mem_map_of_mem hr)

theorem tradesOf_perm (ord ord' : HashMap.IterOrder) (rows : List BalanceChangeRow) :
    (tradesOf A ord rows).Perm (tradesOf A ord' rows) :=
  ((snapshots_perm ord rows).trans (snapshots_perm ord' rows).symm).flatMap_right _

theorem tradesOf_filter (ord : HashMap.IterOrder) (rows : List BalanceChangeRow) (mint : String) :
    (tradesOf A ord rows).filter (·.mint = mint) =
      ((snapshotsFromBalanceRows ord rows).map (mintTrades A mint)).flatten := by
  rw [tradesOf, List.filter_flatMap, List.flatMap_def]
  rfl

/-! ## The candles -/

/-- If the opens and closes of a mint are the same for all orders, ties agree. -/
theorem tiesAgree_of_tradesOf {rows : List BalanceChangeRow} {interval : ℤ} {mint : String} {o c : ℤ → Option ℚ}
    (h : ∀ ord k, openPrice interval k ((tradesOf A ord rows).filter (·.mint = mint)) = o k ∧
      closePrice interval k ((tradesOf A ord rows).filter (·.mint = mint)) = c k) :
    TiesAgree interval ((rowSnapshots rows).map (mintTrades A mint)) := by
  -- the entries of the map come in any order
  let es := (rows.foldl pushDelta ∅).entries
  have hties : TiesAgree interval (es.map fun e => mintTrades A mint e.2) := by
    apply tiesAgree_of_orders
    intro ord k
    have := h ord k
    rwa [tradesOf_filter, snapshotsFromBalanceRows, List.map_map, ← List.flatMap_def] at this
  have hperm := (snapshots_perm .stored rows).symm.map (mintTrades A mint)
  rw [snapshotsFromBalanceRows, List.map_map] at hperm
  exact hties.perm hperm

/-- Two passes give the same candles for an interval exactly when ties agree. -/
theorem buildCandles_reruns (rows : List BalanceChangeRow) (interval : ℤ) :
    (∀ ord ord' ordC ordC' mint, (buildCandles .exact ordC (tradesOf .exact ord rows) interval).lookup mint =
      (buildCandles .exact ordC' (tradesOf .exact ord' rows) interval).lookup mint) ↔
      TxTiesAgree .exact interval (rowSnapshots rows) := by
  have hperm (ord ord' : HashMap.IterOrder) := tradesOf_perm (A := .exact) ord ord' rows
  simp only [fun ord ord' ordC ordC' => buildCandles_lookup_eq_iff ordC ordC' (hperm ord ord') interval]
  constructor
  · intro h mint
    exact tiesAgree_of_tradesOf fun ord k => h ord .stored .stored .stored mint k
  · intro h ord ord' _ _ mint k
    have hprices (ord : HashMap.IterOrder) := (h mint).prices ((snapshots_perm ord rows).map (mintTrades .exact mint)) k
    simp only [tradesOf_filter]
    rw [(hprices ord).1, (hprices ord').1, (hprices ord).2, (hprices ord').2]
    exact ⟨rfl, rfl⟩

/-! ## The table -/

/-- The candle pass from the rows on: infer the trades, build the candles and upsert them. -/
def storeCandles (A : Arithmetic) (ord : CandleOrders) (rows : List BalanceChangeRow) (st : Store) :
    Except DbError Store :=
  Stmt.run (candleStatements A ord (tradesOf A ord.snapshots rows)) st

theorem storeCandles_eq (ord : CandleOrders) (rows : List BalanceChangeRow) (st : Store) : storeCandles A ord rows st =
    .ok { st with candles := st.candles.upsertAll (candleRows A ord (tradesOf A ord.snapshots rows)) } := by
  rw [storeCandles, candleStatements_eq, run_upsertCandle]

/-- The stored candles read the same. -/
def SameCandles (st st' : Store) : Prop := ∀ key, st.candles.get key = st'.candles.get key

section Table

variable {ord ord' : CandleOrders} {trades trades' : List InferredTrade}

/-- Empty tables that read the same after the upserts have the same candles. -/
theorem mem_series_of_get (hget : ∀ key, (Store.empty.candles.upsertAll (candleRows A ord trades)).get key =
      (Store.empty.candles.upsertAll (candleRows A ord' trades')).get key)
    {intervalSec : Int32} (hi : intervalSec ∈ candleIntervals) {mint : String} {c : Candle}
    (hc : c ∈ ((buildCandles A (ord.candles intervalSec) trades intervalSec.toInt).lookup mint).getD []) :
    c ∈ ((buildCandles A (ord'.candles intervalSec) trades' intervalSec.toInt).lookup mint).getD [] := by
  have hr : candlesRow mint intervalSec c ∈ candleRows A ord trades :=
    mem_candleRows.2 ⟨intervalSec, hi, mint, c, hc, rfl⟩
  have hread := Store.empty.candles.get_upsertAll_of_mem (fun r hr r' hr' => candleRows_inj hr hr') hr
  rw [hget] at hread
  rcases Store.empty.candles.get_upsertAll (candleRows A ord' trades') (candlesRow mint intervalSec c).key with
    ⟨r', hr', _, hget'⟩ | ⟨_, hget'⟩
  · rw [hread, Option.some.injEq] at hget'
    obtain ⟨intervalSec', _, mint', c', hc', he⟩ := mem_candleRows.1 (hget' ▸ hr')
    simp only [candlesRow, CandlesRow.mk.injEq] at he
    obtain ⟨rfl, rfl, h⟩ := he
    have : c = c' := by
      cases c
      cases c'
      simpa using h
    rwa [this]
  · rw [hread] at hget'
    cases hget'

/-- Empty tables that read the same after the upserts have the same series. -/
theorem lookup_eq_of_get (hperm : trades.Perm trades')
    (hget : ∀ key, (Store.empty.candles.upsertAll (candleRows .exact ord trades)).get key =
      (Store.empty.candles.upsertAll (candleRows .exact ord' trades')).get key)
    {intervalSec : Int32} (hi : intervalSec ∈ candleIntervals) (mint : String) :
    (buildCandles .exact (ord.candles intervalSec) trades intervalSec.toInt).lookup mint =
      (buildCandles .exact (ord'.candles intervalSec) trades' intervalSec.toInt).lookup mint := by
  have hsorted (ord : HashMap.IterOrder) (trades : List InferredTrade) :=
    List.pairwise_map.1 (candleSeries_sorted (A := .exact) ord trades intervalSec.toInt)
  have hmem (c : Candle) :
      c ∈ candleSeries .exact (ord.candles intervalSec) (trades.filter (·.mint = mint)) intervalSec.toInt ↔
      c ∈ candleSeries .exact (ord'.candles intervalSec) (trades'.filter (·.mint = mint)) intervalSec.toInt := by
    rw [← buildCandles_lookup, ← buildCandles_lookup]
    exact ⟨mem_series_of_get hget hi, mem_series_of_get (fun key => (hget key).symm) hi⟩
  have hseries := StableSort.eq_of_mem_iff (hsorted ..) (hsorted ..) hmem
  exact (buildCandles_lookup_eq_iff _ _ hperm _ _).2 ((candleSeries_eq_iff _ _ (hperm.filter _) _).1 hseries)

/-- With the same candles for every interval the upserts have the same rows. -/
theorem mem_candleRows_congr (h : ∀ intervalSec ∈ candleIntervals, ∀ mint,
      (buildCandles A (ord.candles intervalSec) trades intervalSec.toInt).lookup mint =
        (buildCandles A (ord'.candles intervalSec) trades' intervalSec.toInt).lookup mint) (r : CandlesRow) :
    r ∈ candleRows A ord trades ↔ r ∈ candleRows A ord' trades' := by
  rw [mem_candleRows, mem_candleRows]
  refine exists_congr fun intervalSec => and_congr_right fun hi => exists_congr fun mint => ?_
  rw [h intervalSec hi mint]

end Table

/-- **When a second pass changes nothing.** Two passes over the same rows give the same candles for an interval, in
whatever orders they meet their hash maps, if and only if ties agree. They leave the same candles in the table, one
after the other or each on its own, if and only if ties agree for both stored intervals. -/
theorem reruns_agree_iff (rows : List BalanceChangeRow) :
    (∀ interval,
      (∀ ord ord' ordC ordC' mint, (buildCandles .exact ordC (tradesOf .exact ord rows) interval).lookup mint =
        (buildCandles .exact ordC' (tradesOf .exact ord' rows) interval).lookup mint) ↔
      TxTiesAgree .exact interval (rowSnapshots rows)) ∧
    ((∀ ord ord' st st₁ st₂ st₃, storeCandles .exact ord rows st = .ok st₁ →
      storeCandles .exact ord' rows st = .ok st₂ →
      storeCandles .exact ord' rows st₁ = .ok st₃ → SameCandles st₂ st₁ ∧ SameCandles st₃ st₁) ↔
      ∀ intervalSec ∈ candleIntervals, TxTiesAgree .exact intervalSec.toInt (rowSnapshots rows)) := by
  refine ⟨buildCandles_reruns rows, ?_⟩
  constructor
  · intro h intervalSec hi
    refine (buildCandles_reruns rows intervalSec.toInt).1 fun ord ord' ordC ordC' mint => ?_
    let o : CandleOrders := ⟨.stored, ord, fun _ => ordC⟩
    let o' : CandleOrders := ⟨.stored, ord', fun _ => ordC'⟩
    have hget := (h o o' .empty _ _ _ (storeCandles_eq ..) (storeCandles_eq ..) (storeCandles_eq ..)).1
    exact @lookup_eq_of_get o o' _ _ (tradesOf_perm ord ord' rows) (fun key => (hget key).symm) _ hi mint
  · intro h ord ord' st st₁ st₂ st₃ h₁ h₂ h₃
    rw [storeCandles_eq] at h₁ h₂ h₃
    cases h₁
    cases h₂
    cases h₃
    have hmem (r : CandlesRow) : r ∈ candleRows .exact ord (tradesOf .exact ord.snapshots rows) ↔
        r ∈ candleRows .exact ord' (tradesOf .exact ord'.snapshots rows) :=
      mem_candleRows_congr (fun intervalSec hi mint =>
        (buildCandles_reruns rows intervalSec.toInt).2 (h intervalSec hi) ord.snapshots ord'.snapshots _ _ mint) r
    refine ⟨fun key => ?_, fun key => ?_⟩
    · exact (Table.get_upsertAll_congr hmem (fun r hr r' hr' => candleRows_inj hr hr') fun _ => rfl).symm
    · refine (Table.get_upsertAll_congr hmem (fun r hr r' hr' => candleRows_inj hr hr') fun hno => ?_).symm
      -- what the first pass leaves alone
      rcases st.candles.get_upsertAll (candleRows .exact ord (tradesOf .exact ord.snapshots rows)) key
        with ⟨r, hr, hkey, _⟩ | ⟨_, hget⟩
      · exact absurd hkey (hno r hr)
      · exact hget.symm

/-- Two swaps of one mint in one second, at different prices. -/
def twoSwaps : List BalanceChangeRow :=
  [("a", 1, some 0, wsolMint, 0, 1000000000, 9), ("a", 1, some 0, "mint", 10, 0, 0),
    ("b", 1, some 0, wsolMint, 0, 1000000000, 9), ("b", 1, some 0, "mint", 20, 0, 0)]

/-- The candle of two swaps in one second opens at the price of either one. -/
theorem reruns_differ : ¬∀ rows ord ord' ordC ordC' interval mint,
    (buildCandles .exact ordC (tradesOf .exact ord rows) interval).lookup mint =
      (buildCandles .exact ordC' (tradesOf .exact ord' rows) interval).lookup mint := by
  intro h
  have := h twoSwaps .stored (.rotate 1) .stored .stored 60 "mint"
  revert this
  decide +kernel

end Tenso.Cli
