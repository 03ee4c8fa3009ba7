import Tenso.Lib.Extremes
import Tenso.Ohlcv.OpenClose

/-!
# Candles partition and aggregate the trades

`buildCandles` gives each traded mint a series of candles in bucket order; every trade falls into exactly one candle
of its mint, and each candle aggregates the trades that fall into it (`buildCandles_partitions`).
-/

namespace Tenso.Ohlcv

open Extremes StableSort

variable {A : Arithmetic}

/-- The time of a trade lies in the bucket of a candle. -/
def InBucket (interval : ℤ) (c : Candle) (t : InferredTrade) : Prop :=
  c.bucketStart ≤ t.blockTime ∧ t.blockTime < c.bucketStart + interval

instance (interval : ℤ) (c : Candle) (t : InferredTrade) : Decidable (InBucket interval c t) :=
  inferInstanceAs (Decidable (_ ∧ _))

/-- A candle aggregates trades: it opens at the price of the earliest and closes at that of the latest one, in input
order within a second; its high and low are their highest and lowest price, its volume is the sum of theirs. -/
structure Aggregates (l : List InferredTrade) (c : Candle) : Prop where
  high : (∃ t ∈ l, c.high = t.priceInSol) ∧ ∀ t ∈ l, t.priceInSol ≤ c.high
  low : (∃ t ∈ l, c.low = t.priceInSol) ∧ ∀ t ∈ l, c.low ≤ t.priceInSol
  «open» : ∃ t, Earliest (·.blockTime) l t ∧ c.open = t.priceInSol
  close : ∃ t, Latest (·.blockTime) l t ∧ c.close = t.priceInSol
  inRange : c.low ≤ c.open ∧ c.open ≤ c.high ∧ c.low ≤ c.close ∧ c.close ≤ c.high
  volume : c.volume = (l.map (·.volumeSol)).sum

/-- The candles partition the trades: the mints are those of the trades, a series is in bucket order, its buckets
start at multiples of the interval, every trade falls into exactly one candle, and no candle is empty. -/
structure Partitions (interval : ℤ) (trades : List InferredTrade) (candles : HashMap String (List Candle)) : Prop where
  mints : ∀ mint, mint ∈ candles ↔ ∃ t ∈ trades, t.mint = mint
  increasing : ∀ mint series, candles.lookup mint = some series → (series.map (·.bucketStart)).Pairwise (· < ·)
  multiples : ∀ mint series, candles.lookup mint = some series → ∀ c ∈ series, interval ∣ c.bucketStart
  one : ∀ t ∈ trades, ∃ series, candles.lookup t.mint = some series ∧ ∃! c, c ∈ series ∧ InBucket interval c t
  nonempty : ∀ mint series, candles.lookup mint = some series → ∀ c ∈ series,
    trades.filter (fun t => t.mint = mint ∧ InBucket interval c t) ≠ []
  aggregates : ∀ mint series, candles.lookup mint = some series → ∀ c ∈ series,
    Aggregates (trades.filter fun t => t.mint = mint ∧ InBucket interval c t) c

theorem dvd_bucketStart (t interval : ℤ) : interval ∣ bucketStart t interval := Dvd.intro_left _ rfl

/-- The least multiple of 60 and of 300 in an `i64` is `-2 ^ 63 + 8`: from there on, bucket starts fit. -/
theorem bucketStart_fits {t interval : ℤ} (hi : interval = 60 ∨ interval = 300) (h : -2 ^ 63 + 8 ≤ t ∧ t < 2 ^ 63) :
    -2 ^ 63 ≤ bucketStart t interval ∧ bucketStart t interval < 2 ^ 63 := by
  unfold bucketStart
  rcases hi with rfl | rfl <;> omega

/-- The times of the bucket that starts at a multiple of the interval. -/
theorem bucketStart_eq_iff {interval t k : ℤ} (h : 0 < interval) (hk : interval ∣ k) :
    bucketStart t interval = k ↔ k ≤ t ∧ t < k + interval := by
  obtain ⟨q, rfl⟩ := hk
  have hstart : bucketStart t interval = interval * q ↔ t / interval = q := by
    rw [bucketStart, mul_comm, mul_right_inj' h.ne']
  rw [hstart, Int.ediv_eq_iff_of_pos h, mul_comm q]

/-- The price range of some trades. -/
theorem candleOf_range {k : ℤ} {bt : List InferredTrade} (h : bt ≠ []) :
    ((∃ t ∈ bt, (candleOf A k bt).high = t.priceInSol) ∧ ∀ t ∈ bt, t.priceInSol ≤ (candleOf A k bt).high) ∧
    ((∃ t ∈ bt, (candleOf A k bt).low = t.priceInSol) ∧ ∀ t ∈ bt, (candleOf A k bt).low ≤ t.priceInSol) := by
  have hprices : bt.map (·.priceInSol) ≠ [] := by simpa using h
  obtain ⟨hi, hhi, hmax, hle⟩ := exists_maxOf hprices
  obtain ⟨lo, hlo, hmin, hge⟩ := exists_minOf hprices
  have hhigh : (candleOf A k bt).high = hi := congrArg (WithBot.unbotD 0) hmax
  have hlow : (candleOf A k bt).low = lo := congrArg (WithTop.untopD 0) hmin
  obtain ⟨t, ht, rfl⟩ := List.mem_map.1 hhi
  obtain ⟨t', ht', rfl⟩ := List.mem_map.1 hlo
  rw [hhigh, hlow]
  exact ⟨⟨⟨t, ht, rfl⟩, fun s hs => hle _ (List.mem_map_of_mem hs)⟩, ⟨t', ht', rfl⟩,
    fun s hs => hge _ (List.mem_map_of_mem hs)⟩

/-- A candle opens and closes at the prices of its first and last trade. -/
theorem candleOf_ends {k : ℤ} {bt : List InferredTrade} (h : bt ≠ []) :
    (candleOf A k bt).open = (bt.head h).priceInSol ∧ (candleOf A k bt).close = (bt.getLast h).priceInSol := by
  rw [candleOf_open, candleOf_close, List.head?_eq_some_head h, List.getLast?_eq_some_getLast h]
  exact ⟨rfl, rfl⟩

/-- The open and the close of a candle are in its price range. -/
theorem candleOf_inRange {k : ℤ} {bt : List InferredTrade} (h : bt ≠ []) :
    (candleOf A k bt).low ≤ (candleOf A k bt).open ∧ (candleOf A k bt).open ≤ (candleOf A k bt).high ∧
    (candleOf A k bt).low ≤ (candleOf A k bt).close ∧ (candleOf A k bt).close ≤ (candleOf A k bt).high := by
  obtain ⟨⟨_, hhigh⟩, _, hlow⟩ := candleOf_range (A := A) (k := k) h
  obtain ⟨hopen, hclose⟩ := candleOf_ends (A := A) (k := k) h
  rw [hopen, hclose]
  exact ⟨hlow _ (List.head_mem h), hhigh _ (List.head_mem h), hlow _ (List.getLast_mem h),
    hhigh _ (List.getLast_mem h)⟩

/-- The candle of a bucket aggregates its trades. -/
theorem aggregates_candleOf {interval k : ℤ} {l : List InferredTrade}
    (h : ∃ t ∈ l, bucketStart t.blockTime interval = k) :
    Aggregates (l.filter fun t => bucketStart t.blockTime interval = k)
      (candleOf .exact k (bucketTrades interval k l)) := by
  have hperm := bucketTrades_perm interval k l
  have hne : bucketTrades interval k l ≠ [] := by
    obtain ⟨t, ht⟩ := h
    exact List.ne_nil_of_mem (mem_bucketTrades.2 ht)
  obtain ⟨hhigh, hlow⟩ := candleOf_range (A := .exact) (k := k) hne
  obtain ⟨hopen, hclose⟩ := candleOf_ends (A := .exact) (k := k) hne
  refine ⟨by simpa only [hperm.mem_iff] using hhigh, by simpa only [hperm.mem_iff] using hlow,
    ⟨_, earliest_of_head? (List.head?_eq_some_head hne), hopen⟩,
    ⟨_, latest_of_getLast? (List.getLast?_eq_some_getLast hne), hclose⟩, candleOf_inRange hne, ?_⟩
  rw [candleOf_volume]
  exact (hperm.map _).sum_eq

/-- The candles of a series. -/
theorem mem_candleSeries_iff {ord : HashMap.IterOrder} {l : List InferredTrade} {interval : ℤ} {c : Candle} :
    c ∈ candleSeries A ord l interval ↔ (∃ t ∈ l, bucketStart t.blockTime interval = c.bucketStart) ∧
      c = candleOf A c.bucketStart (bucketTrades interval c.bucketStart l) := by
  rw [candleSeries_eq_map, List.mem_map]
  constructor
  · rintro ⟨k, hk, rfl⟩
    exact ⟨mem_bucketKeys.1 hk, rfl⟩
  · rintro ⟨hk, hc⟩
    exact ⟨_, mem_bucketKeys.2 hk, hc.symm⟩

/-- A trade is in the bucket of a candle of a series when its time is. -/
theorem bucketStart_eq_iff_inBucket {ord : HashMap.IterOrder} {l : List InferredTrade} {interval : ℤ} (h : 0 < interval)
    {c : Candle} (hc : c ∈ candleSeries A ord l interval) (t : InferredTrade) :
    bucketStart t.blockTime interval = c.bucketStart ↔ InBucket interval c t := by
  obtain ⟨⟨s, _, hs⟩, _⟩ := mem_candleSeries_iff.1 hc
  exact bucketStart_eq_iff h (hs ▸ dvd_bucketStart s.blockTime interval)

/-- **Candles partition and aggregate the trades**, for every interval and in any iteration order. -/
theorem buildCandles_partitions (ord : HashMap.IterOrder) (trades : List InferredTrade) {interval : ℤ}
    (h : 0 < interval) : Partitions interval trades (buildCandles .exact ord trades interval) := by
  -- a series is that of the trades of its mint, and the trades of a bucket are those that fall into its candle
  have hseries {mint : String} {series : List Candle}
      (hs : (buildCandles .exact ord trades interval).lookup mint = some series) :
      candleSeries .exact ord (trades.filter (·.mint = mint)) interval = series := (buildCandles_lookup_eq_some.1 hs).2
  have hbucket {mint : String} {c : Candle}
      (hc : c ∈ candleSeries .exact ord (trades.filter (·.mint = mint)) interval) :
      (trades.filter (·.mint = mint)).filter (fun t => bucketStart t.blockTime interval = c.bucketStart) =
        trades.filter fun t => t.mint = mint ∧ InBucket interval c t := by
    simp only [List.filter_filter, bucketStart_eq_iff_inBucket h hc]
    apply List.filter_congr
    intro t _
    rw [Bool.decide_and, Bool.and_comm]
  have hcandle {mint : String} {c : Candle}
      (hc : c ∈ candleSeries .exact ord (trades.filter (·.mint = mint)) interval) :
      Aggregates (trades.filter fun t => t.mint = mint ∧ InBucket interval c t) c := by
    obtain ⟨hk, heq⟩ := mem_candleSeries_iff.1 hc
    have := aggregates_candleOf hk
    rwa [← heq, hbucket hc] at this
  refine ⟨fun mint => ?_, fun mint series hs => ?_, fun mint series hs c hc => ?_, fun t ht => ?_,
    fun mint series hs c hc => ?_, fun mint series hs c hc => ?_⟩
  · rw [← AList.lookup_isSome, Option.isSome_iff_exists]
    simp only [buildCandles_lookup_eq_some, exists_and_left, exists_eq', and_true]
  · rw [← hseries hs]
    exact candleSeries_sorted ..
  · rw [← hseries hs] at hc
    obtain ⟨⟨s, _, hs'⟩, _⟩ := mem_candleSeries_iff.1 hc
    exact hs' ▸ dvd_bucketStart s.blockTime interval
  · refine ⟨_, buildCandles_lookup_eq_some.2 ⟨⟨t, ht, rfl⟩, rfl⟩, ?_⟩
    let k := bucketStart t.blockTime interval
    let l := trades.filter (·.mint = t.mint)
    have hc : candleOf .exact k (bucketTrades interval k l) ∈ candleSeries .exact ord l interval :=
      mem_candleSeries_iff.2 ⟨⟨t, List.mem_filter.2 ⟨ht, decide_eq_true rfl⟩, rfl⟩, rfl⟩
    refine ⟨_, ⟨hc, (bucketStart_eq_iff_inBucket h hc t).1 rfl⟩, ?_⟩
    rintro c ⟨hc', hin⟩
    have hk := (bucketStart_eq_iff_inBucket h hc' t).2 hin
    rw [(mem_candleSeries_iff.1 hc').2, ← hk]
  · rw [← hseries hs] at hc
    obtain ⟨x, ⟨pre, post, hl, _⟩, _⟩ := (hcandle hc).open
    rw [hl]
    exact List.append_ne_nil_of_right_ne_nil _ (List.cons_ne_nil _ _)
  · rw [← hseries hs] at hc
    exact hcandle hc

/-- Two trades of one mint, one of them before the epoch, in candles of a minute. -/
theorem buildCandles_partitions_example :
    Partitions 60 [⟨"a", -1, "mint", 2, 1⟩, ⟨"b", 59, "mint", 3, 1⟩]
      (buildCandles .exact .stored [⟨"a", -1, "mint", 2, 1⟩, ⟨"b", 59, "mint", 3, 1⟩] 60) :=
  buildCandles_partitions .stored _ (by decide)

end Tenso.Ohlcv
