import Tenso.Ohlcv.Buckets

/-!
# Coarse candles are the roll-up of fine ones

`rollUp` groups the candles of a series by the coarser buckets they lie in and merges each group. Buckets of a
multiple of the interval are unions of buckets (`bucketStart_nested`), and the sorted trades of a coarse bucket are
those of its fine buckets, one after the other (`flatMap_bucketTrades`). So the coarse series of some trades is the
roll-up of their fine series, although `buildCandles` computes it from the trades (`buildCandles_rollUp`).
-/

namespace Tenso.Ohlcv

open Extremes StableSort

/-- One candle for some candles in bucket order: first open, last close, highest high, lowest low, all of the volume. -/
def mergeCandles (bucketStart : ℤ) (cs : List Candle) : Candle :=
  { bucketStart
    «open» := (cs.map (·.open)).headD 0
    close := (cs.map (·.close)).getLastD 0
    high := (maxOf (cs.map (·.high))).unbotD 0
    low := (minOf (cs.map (·.low))).untopD 0
    volume := (cs.map (·.volume)).sum }

/-- The roll-up of a series to a coarser interval. -/
def rollUp (interval : ℤ) (cs : List Candle) : List Candle :=
  let bucketKeys := (cs.map fun c => bucketStart c.bucketStart interval).dedup
  bucketKeys.map fun k => mergeCandles k (cs.filter fun c => bucketStart c.bucketStart interval = k)

/-! ## Nested buckets -/

theorem bucketStart_mono {interval s t : ℤ} (h : 0 < interval) (hst : s ≤ t) :
    bucketStart s interval ≤ bucketStart t interval :=
  mul_le_mul_of_nonneg_right (Int.ediv_le_ediv h hst) h.le

/-- Buckets nest: a time and the start of its fine bucket lie in one coarse bucket. -/
theorem bucketStart_nested {a k : ℤ} (ha : 0 < a) (hk : 0 < k) (t : ℤ) :
    bucketStart (bucketStart t a) (k * a) = bucketStart t (k * a) := by
  have hka : 0 < k * a := mul_pos hk ha
  have hdvd : a ∣ bucketStart t (k * a) := (Dvd.intro_left k rfl).trans (dvd_bucketStart t (k * a))
  obtain ⟨hlo, hhi⟩ := (bucketStart_eq_iff hka (dvd_bucketStart t (k * a))).1 rfl
  have hle := ((bucketStart_eq_iff ha (dvd_bucketStart t a)).1 rfl).1
  rw [bucketStart_eq_iff hka (dvd_bucketStart t (k * a))]
  refine ⟨?_, hle.trans_lt hhi⟩
  have hfixed : bucketStart (bucketStart t (k * a)) a = bucketStart t (k * a) :=
    (bucketStart_eq_iff ha hdvd).2 ⟨le_rfl, by omega⟩
  rw [← hfixed]
  exact bucketStart_mono ha hlo

section Nested

variable {a k : ℤ} (ord ord' : HashMap.IterOrder) (l : List InferredTrade)

/-- The coarse buckets that have a trade are those of the fine ones. -/
theorem dedup_bucketKeys (ha : 0 < a) (hk : 0 < k) :
    ((bucketKeys ord' l a).map fun b => bucketStart b (k * a)).dedup = bucketKeys ord l (k * a) := by
  have hle : ((bucketKeys ord' l a).map fun b => bucketStart b (k * a)).Pairwise (· ≤ ·) := by
    rw [List.pairwise_map]
    exact (bucketKeys_sorted ord' l a).imp fun hlt => bucketStart_mono (mul_pos hk ha) hlt.le
  have hlt : ((bucketKeys ord' l a).map fun b => bucketStart b (k * a)).dedup.Pairwise (· < ·) :=
    ((hle.sublist (List.dedup_sublist _)).and (List.nodup_dedup _)).imp fun h => lt_of_le_of_ne h.1 h.2
  refine @eq_of_mem_iff _ _ _ id _ _ hlt (bucketKeys_sorted ord l (k * a)) fun b => ?_
  simp only [List.mem_dedup, List.mem_map, mem_bucketKeys]
  constructor
  · rintro ⟨_, ⟨t, ht, rfl⟩, rfl⟩
    exact ⟨t, ht, (bucketStart_nested ha hk _).symm⟩
  · rintro ⟨t, ht, rfl⟩
    exact ⟨_, ⟨t, ht, rfl⟩, bucketStart_nested ha hk _⟩

/-- The trades of a coarse bucket are those of its fine buckets, one after the other. -/
theorem flatMap_bucketTrades (ha : 0 < a) (hk : 0 < k) (c : ℤ) :
    (((bucketKeys ord' l a).filter fun b => bucketStart b (k * a) = c).flatMap fun b => bucketTrades a b l) =
      bucketTrades (k * a) c l := by
  have hfine : ∀ b ∈ (bucketKeys ord' l a).filter (fun b => bucketStart b (k * a) = c),
      bucketTrades a b l = (bucketTrades (k * a) c l).filter fun t => bucketStart t.blockTime a = b := by
    intro b hb
    have hc := of_decide_eq_true (List.mem_filter.1 hb).2
    rw [bucketTrades, bucketTrades, List.filter_filter]
    apply List.filter_congr
    intro t _
    by_cases hbt : bucketStart t.blockTime a = b
    · have : bucketStart t.blockTime (k * a) = c := by rw [← hc, ← hbt, bucketStart_nested ha hk]
      simp [hbt, this]
    · simp [hbt]
  rw [List.flatMap_congr hfine]
  have hsorted : (bucketTrades (k * a) c l).Pairwise
      fun s t => bucketStart s.blockTime a ≤ bucketStart t.blockTime a :=
    (bucketTrades_sorted (k * a) c l).imp fun hle => bucketStart_mono ha hle
  have hkeys := (bucketKeys_sorted ord' l a).filter fun b => bucketStart b (k * a) = c
  refine flatMap_filter_of_sorted hsorted hkeys fun t ht => ?_
  obtain ⟨ht, hc⟩ := mem_bucketTrades.1 ht
  exact List.mem_filter.2 ⟨mem_bucketKeys.2 ⟨t, ht, rfl⟩, decide_eq_true (by rw [bucketStart_nested ha hk, hc])⟩

end Nested

/-! ## Merging candles -/

theorem maxOf_prices {bt : List InferredTrade} (h : bt ≠ []) (b : ℤ) :
    maxOf (bt.map (·.priceInSol)) = ((candleOf .exact b bt).high : WithBot ℚ) := by
  obtain ⟨m, _, hmax, _⟩ := exists_maxOf (l := bt.map (·.priceInSol)) (by simpa using h)
  have hhigh : (candleOf .exact b bt).high = m := congrArg (WithBot.unbotD 0) hmax
  rw [hhigh, hmax]

theorem minOf_prices {bt : List InferredTrade} (h : bt ≠ []) (b : ℤ) :
    minOf (bt.map (·.priceInSol)) = ((candleOf .exact b bt).low : WithTop ℚ) := by
  obtain ⟨m, _, hmin, _⟩ := exists_minOf (l := bt.map (·.priceInSol)) (by simpa using h)
  have hlow : (candleOf .exact b bt).low = m := congrArg (WithTop.untopD 0) hmin
  rw [hlow, hmin]

section Merge

variable {gs : List ℤ} {f : ℤ → List InferredTrade}

theorem merge_open (h : ∀ b ∈ gs, f b ≠ []) : (gs.map fun b => (candleOf .exact b (f b)).open).headD 0 =
    ((gs.flatMap f).head?.map (·.priceInSol)).getD 0 := by
  cases gs with
  | nil => rfl
  | cons b gs =>
    obtain ⟨t, bt, hbt⟩ := List.exists_cons_of_ne_nil (h b List.mem_cons_self)
    simp [candleOf_open, hbt]

theorem merge_close (h : ∀ b ∈ gs, f b ≠ []) : (gs.map fun b => (candleOf .exact b (f b)).close).getLastD 0 =
    ((gs.flatMap f).getLast?.map (·.priceInSol)).getD 0 := by
  rcases List.eq_nil_or_concat' gs with rfl | ⟨gs, b, rfl⟩
  · rfl
  · obtain ⟨bt, t, hbt⟩ := (List.eq_nil_or_concat' (f b)).resolve_left (h b (by simp))
    simp [candleOf_close, hbt, List.getLastD_eq_getLast?, List.flatMap_append]

theorem merge_volume : (gs.map fun b => (candleOf .exact b (f b)).volume).sum =
    ((gs.flatMap f).map (·.volumeSol)).sum := by
  induction gs with
  | nil => rfl
  | cons b gs ih =>
    rw [List.map_cons, List.sum_cons, ih, List.flatMap_cons, List.map_append, List.sum_append, candleOf_volume]

/-- Merging the candles of some groups gives the candle of all their trades. -/
theorem mergeCandles_map (h : ∀ b ∈ gs, f b ≠ []) (c : ℤ) :
    mergeCandles c (gs.map fun b => candleOf .exact b (f b)) = candleOf .exact c (gs.flatMap f) := by
  have hhigh : maxOf (gs.map fun b => (candleOf .exact b (f b)).high) = maxOf ((gs.flatMap f).map (·.priceInSol)) := by
    rw [List.map_flatMap]
    exact (maxOf_flatMap fun b hb => maxOf_prices (h b hb) b).symm
  have hlow : minOf (gs.map fun b => (candleOf .exact b (f b)).low) = minOf ((gs.flatMap f).map (·.priceInSol)) := by
    rw [List.map_flatMap]
    exact (minOf_flatMap fun b hb => minOf_prices (h b hb) b).symm
  rw [Candle.eq_iff, candleOf_open, candleOf_close, ← merge_open h, ← merge_close h]
  simp only [mergeCandles, Candle.summary, List.map_map, Function.comp_def, hhigh, hlow, merge_volume]
  rw [candleOf_volume]
  exact ⟨rfl, rfl, trivial, trivial⟩

end Merge

/-! ## Series -/

/-- The coarse series is the roll-up of the fine one. -/
theorem candleSeries_rollUp (ord ord' : HashMap.IterOrder) (l : List InferredTrade) {a k : ℤ}
    (ha : 0 < a) (hk : 0 < k) :
    candleSeries .exact ord l (k * a) = rollUp (k * a) (candleSeries .exact ord' l a) := by
  have hkeys : (candleSeries .exact ord' l a).map (fun c => bucketStart c.bucketStart (k * a)) =
      (bucketKeys ord' l a).map fun b => bucketStart b (k * a) := by
    rw [candleSeries_eq_map, List.map_map]
    rfl
  rw [rollUp, hkeys, dedup_bucketKeys ord ord' l ha hk, candleSeries_eq_map ord]
  apply List.map_congr_left
  intro c _
  have hgroup : (candleSeries .exact ord' l a).filter (fun b => bucketStart b.bucketStart (k * a) = c) =
      ((bucketKeys ord' l a).filter fun b => bucketStart b (k * a) = c).map fun b =>
      candleOf .exact b (bucketTrades a b l) := by
    rw [candleSeries_eq_map, List.filter_map]
    rfl
  rw [hgroup, mergeCandles_map, flatMap_bucketTrades ord' l ha hk]
  intro b hb
  obtain ⟨t, ht⟩ := mem_bucketKeys.1 (List.mem_filter.1 hb).1
  exact List.ne_nil_of_mem (mem_bucketTrades.2 ht)

/-- **Coarse candles are the roll-up of fine ones**, mint by mint, in any iteration orders. -/
theorem buildCandles_rollUp (ord ord' : HashMap.IterOrder) (trades : List InferredTrade) {a k : ℤ} (ha : 0 < a)
    (hk : 0 < k) (mint : String) : (buildCandles .exact ord trades (k * a)).lookup mint =
      ((buildCandles .exact ord' trades a).lookup mint).map (rollUp (k * a)) := by
  apply Option.ext
  intro series
  rw [Option.map_eq_some_iff, buildCandles_lookup_eq_some, candleSeries_rollUp ord ord' _ ha hk]
  simp only [buildCandles_lookup_eq_some]
  constructor
  · rintro ⟨hmem, rfl⟩
    exact ⟨_, ⟨hmem, rfl⟩, rfl⟩
  · rintro ⟨_, ⟨hmem, rfl⟩, rfl⟩
    exact ⟨hmem, rfl⟩

end Tenso.Ohlcv
