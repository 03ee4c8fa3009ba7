import Mathlib.Algebra.BigOperators.Group.Multiset.Basic
import Mathlib.Algebra.Order.BigOperators.Group.Multiset
import Mathlib.Algebra.Order.Ring.Rat
import Mathlib.Data.Multiset.Lattice
import Mathlib.Tactic.Linarith
import Tenso.Lib.StableSort
import Tenso.Lib.View
import Tenso.Ohlcv.Defs

/-!
# Candles as a view of the trades

The high, the low and the volume of a candle do not depend on the order of its trades: they are an aggregate of a
multiset (`summary`). So, whatever order the hash maps are iterated in, `buildCandles` is the view of the trades by mint
and bucket (`buildCandles_view`).
-/

namespace Tenso.Ohlcv

variable {A : Arithmetic}

/-- High, low and volume of a candle. -/
def Candle.summary (c : Candle) : ℚ × ℚ × ℚ := (c.high, c.low, c.volume)

/-- High, low and volume of a multiset of trades. -/
def summary (s : Multiset InferredTrade) : ℚ × ℚ × ℚ :=
  (((s.map fun t => (t.priceInSol : WithBot ℚ)).sup).unbotD 0,
    ((s.map fun t => (t.priceInSol : WithTop ℚ)).inf).untopD 0, (s.map (·.volumeSol)).sum)

/-- The key of a trade: its mint and the start of its bucket. -/
def tradeKey (interval : ℤ) (t : InferredTrade) : String × ℤ := (t.mint, bucketStart t.blockTime interval)

/-- The view of the trades: high, low and volume for each mint and bucket. -/
def candleView (interval : ℤ) (trades : Multiset InferredTrade) : String × ℤ → Option (ℚ × ℚ × ℚ) :=
  View.of (tradeKey interval) summary trades

theorem candleOf_volume (k : ℤ) (bt : List InferredTrade) :
    (candleOf .exact k bt).volume = (bt.map (·.volumeSol)).sum := Arithmetic.exact_sum _

/-- The order of the trades does not matter for high, low and volume. -/
theorem candleOf_summary (k : ℤ) (bt : List InferredTrade) :
    (candleOf .exact k bt).summary = summary (bt : Multiset _) := by
  have hhigh : (bt.map (·.priceInSol)).foldl (fun m (p : ℚ) => max m (p : WithBot ℚ)) ⊥ =
      ((bt : Multiset InferredTrade).map fun t => (t.priceInSol : WithBot ℚ)).sup := by
    induction bt using List.reverseRecOn with
    | nil => rfl
    | append_singleton bt t ih =>
      rw [List.map_append, List.foldl_append, ih, ← Multiset.coe_add, Multiset.map_add, Multiset.sup_add]
      simp
  have hlow : (bt.map (·.priceInSol)).foldl (fun m (p : ℚ) => min m (p : WithTop ℚ)) ⊤ =
      ((bt : Multiset InferredTrade).map fun t => (t.priceInSol : WithTop ℚ)).inf := by
    clear hhigh
    induction bt using List.reverseRecOn with
    | nil => rfl
    | append_singleton bt t ih =>
      rw [List.map_append, List.foldl_append, ih, ← Multiset.coe_add, Multiset.map_add, Multiset.inf_add]
      simp
  rw [Candle.summary, candleOf_volume]
  simp only [candleOf, summary, hhigh, hlow, Multiset.map_coe, Multiset.sum_coe]

theorem candleOf_summary_perm (k : ℤ) {bt bt' : List InferredTrade} (h : bt.Perm bt') :
    (candleOf .exact k bt).summary = (candleOf .exact k bt').summary := by
  rw [candleOf_summary, candleOf_summary, Multiset.coe_eq_coe.2 h]

/-- The rounding matters for the volume only, so high and low do not depend on the order in any arithmetic. -/
theorem candleOf_prices_perm (k : ℤ) {bt bt' : List InferredTrade} (h : bt.Perm bt') :
    ((candleOf A k bt).high, (candleOf A k bt).low) = ((candleOf A k bt').high, (candleOf A k bt').low) :=
  congrArg (fun v : ℚ × ℚ × ℚ => (v.1, v.2.1)) (candleOf_summary_perm k h)

/-- The order of the trades matters for the volume in `f64`: 0.1, 0.2 and 0.3 SOL. -/
example :
    let trade (volume : ℚ) : InferredTrade := ⟨"sig", 0, "mint", 1, Arithmetic.binary64.round volume⟩
    (candleOf .binary64 0 [trade (1 / 10), trade (1 / 5), trade (3 / 10)]).volume ≠
      (candleOf .binary64 0 [trade (3 / 10), trade (1 / 5), trade (1 / 10)]).volume := by
  decide +kernel

/-- A trade of positive volume shows in the volume. -/
theorem summary_notices : View.Notices summary fun t => 0 < t.volumeSol := by
  intro s t hpos _ ht h
  have hvolume : ((s + t).map (·.volumeSol)).sum = (s.map (·.volumeSol)).sum := congrArg (·.2.2) h
  rw [Multiset.map_add, Multiset.sum_add] at hvolume
  obtain ⟨a, ha⟩ := Multiset.exists_mem_of_ne_zero ht
  obtain ⟨t', rfl⟩ := Multiset.exists_cons_of_mem ha
  have hrest : 0 ≤ (t'.map (·.volumeSol)).sum := by
    apply Multiset.sum_nonneg
    intro x hx
    obtain ⟨b, hb, rfl⟩ := Multiset.mem_map.1 hx
    exact (hpos b (Multiset.mem_cons_of_mem hb)).le
  have := hpos a ha
  rw [Multiset.map_cons, Multiset.sum_cons] at hvolume
  linarith

/-- Buckets of one minute lie within buckets of five minutes. -/
theorem bucketStart_300 {s t : ℤ} (h : bucketStart s 60 = bucketStart t 60) :
    bucketStart s 300 = bucketStart t 300 := by
  unfold bucketStart at h ⊢
  omega

/-! ## One series -/

/-- The trades of one bucket, in the order of the sorted trades. -/
def bucketTrades (interval k : ℤ) (l : List InferredTrade) : List InferredTrade :=
  (l.insertionSort fun s t => s.blockTime ≤ t.blockTime).filter fun t => bucketStart t.blockTime interval = k

theorem bucketTrades_perm (interval k : ℤ) (l : List InferredTrade) :
    (bucketTrades interval k l).Perm (l.filter fun t => bucketStart t.blockTime interval = k) :=
  (List.perm_insertionSort _ l).filter _

theorem mem_bucketTrades {interval k : ℤ} {l : List InferredTrade} {t : InferredTrade} :
    t ∈ bucketTrades interval k l ↔ t ∈ l ∧ bucketStart t.blockTime interval = k := by
  rw [(bucketTrades_perm interval k l).mem_iff]
  simp

/-- The bucket starts of a series. -/
def bucketKeys (ord : HashMap.IterOrder) (l : List InferredTrade) (interval : ℤ) : List ℤ :=
  let sorted := l.insertionSort fun s t => s.blockTime ≤ t.blockTime
  (ord.iter (HashMap.groupBy (fun t => bucketStart t.blockTime interval) sorted).keys).insertionSort (· ≤ ·)

theorem mem_bucketKeys {ord : HashMap.IterOrder} {l : List InferredTrade} {interval k : ℤ} :
    k ∈ bucketKeys ord l interval ↔ ∃ t ∈ l, bucketStart t.blockTime interval = k := by
  rw [bucketKeys, List.mem_insertionSort, (ord.perm _).mem_iff, AList.mem_keys.symm, HashMap.mem_groupBy]
  simp only [List.mem_insertionSort]

section Series

variable (ord : HashMap.IterOrder) (mtrades : List InferredTrade) (interval : ℤ)

theorem bucketKeys_sorted : (bucketKeys ord mtrades interval).Pairwise (· < ·) := by
  have hnodup : (bucketKeys ord mtrades interval).Nodup :=
    ((List.perm_insertionSort _ _).trans (ord.perm _)).nodup_iff.2 (AList.keys_nodup _)
  exact ((List.pairwise_insertionSort (· ≤ ·) _).and hnodup).imp fun h => lt_of_le_of_ne h.1 h.2

/-- A series: one candle for each bucket that has a trade. -/
theorem candleSeries_eq_map : candleSeries A ord mtrades interval =
    (bucketKeys ord mtrades interval).map fun k => candleOf A k (bucketTrades interval k mtrades) := by
  rw [candleSeries]
  apply List.map_congr_left
  intro k _
  rw [HashMap.groupBy_lookup, bucketTrades]
  split
  · rename_i h
    rw [h]
    rfl
  · rfl

/-- The bucket starts of a series are increasing. -/
theorem candleSeries_sorted : ((candleSeries A ord mtrades interval).map (·.bucketStart)).Pairwise (· < ·) := by
  have hkeys : (candleSeries A ord mtrades interval).map (·.bucketStart) = bucketKeys ord mtrades interval := by
    rw [candleSeries_eq_map, List.map_map]
    exact List.map_id _
  rw [hkeys]
  exact bucketKeys_sorted ord mtrades interval

/-- The candles of a series have the summaries of the trades of their buckets. -/
theorem mem_candleSeries {k : ℤ} {v : ℚ × ℚ × ℚ} :
    (∃ c ∈ candleSeries .exact ord mtrades interval, c.bucketStart = k ∧ c.summary = v) ↔
      (∃ t ∈ mtrades, bucketStart t.blockTime interval = k) ∧
      summary ↑(mtrades.filter fun t => bucketStart t.blockTime interval = k) = v := by
  have hsummary : (candleOf .exact k (bucketTrades interval k mtrades)).summary =
      summary ↑(mtrades.filter fun t => bucketStart t.blockTime interval = k) := by
    rw [candleOf_summary, Multiset.coe_eq_coe.2 (bucketTrades_perm interval k mtrades)]
  rw [candleSeries_eq_map, ← mem_bucketKeys, ← hsummary]
  constructor
  · rintro ⟨c, hc, rfl, rfl⟩
    obtain ⟨k, hk, rfl⟩ := List.mem_map.1 hc
    exact ⟨hk, rfl⟩
  · rintro ⟨hk, rfl⟩
    exact ⟨_, List.mem_map_of_mem hk, rfl, rfl⟩

end Series

/-! ## All series -/

/-- The mints that are traded have a series, that of their trades. -/
theorem buildCandles_lookup_eq_some {ord : HashMap.IterOrder} {trades : List InferredTrade}
    {interval : ℤ} {mint : String}
    {series : List Candle} : (buildCandles A ord trades interval).lookup mint = some series ↔
      (∃ t ∈ trades, t.mint = mint) ∧ candleSeries A ord (trades.filter (·.mint = mint)) interval = series := by
  let byMint := HashMap.groupBy (·.mint) trades
  have hnodup : ((ord.iter byMint.entries).map (·.1)).Nodup := ((ord.perm _).map _).nodup_iff.2 byMint.keys_nodup
  refine (HashMap.lookup_foldl_insert (fun e => candleSeries A ord e.2 interval) hnodup).trans ?_
  simp only [(ord.perm _).mem_iff, byMint, HashMap.mem_entries_groupBy]
  constructor
  · rintro ⟨e, ⟨hmem, he⟩, rfl, rfl⟩
    rw [← he]
    exact ⟨hmem, rfl⟩
  · rintro ⟨hmem, hseries⟩
    exact ⟨⟨mint, trades.filter (·.mint = mint)⟩, ⟨hmem, rfl⟩, rfl, hseries⟩

/-- The series of a mint is that of its trades. -/
theorem buildCandles_lookup (ord : HashMap.IterOrder) (trades : List InferredTrade) (interval : ℤ) (mint : String) :
    ((buildCandles A ord trades interval).lookup mint).getD [] =
      candleSeries A ord (trades.filter (·.mint = mint)) interval := by
  cases h : (buildCandles A ord trades interval).lookup mint with
  | some series => exact (buildCandles_lookup_eq_some.1 h).2.symm
  | none =>
    have hno : trades.filter (·.mint = mint) = [] := by
      apply List.filter_eq_nil_iff.2
      intro t ht hm
      rw [buildCandles_lookup_eq_some.2 ⟨⟨t, ht, of_decide_eq_true hm⟩, rfl⟩] at h
      cases h
    rw [hno]
    have : (ord.iter ([] : List ℤ)) = [] := (ord.perm []).eq_nil
    simp [candleSeries, HashMap.groupBy, this]

/-- The trades of a mint in a bucket, as a group and as a list. -/
theorem group_tradeKey (interval : ℤ) (trades : List InferredTrade) (mint : String) (k : ℤ) :
    View.group (tradeKey interval) (trades : Multiset InferredTrade) (mint, k) =
      ↑((trades.filter (·.mint = mint)).filter fun t => bucketStart t.blockTime interval = k) := by
  rw [View.group, Multiset.filter_coe, List.filter_filter]
  congr 1
  apply List.filter_congr
  intro t _
  simp [tradeKey, Bool.and_comm]

/-- **The candles are the view of the trades** by mint and bucket, in any iteration order. -/
theorem buildCandles_view (ord : HashMap.IterOrder) (trades : List InferredTrade) (interval : ℤ) (mint : String) (k : ℤ)
    (v : ℚ × ℚ × ℚ) :
    (∃ c ∈ ((buildCandles .exact ord trades interval).lookup mint).getD [], c.bucketStart = k ∧ c.summary = v) ↔
      candleView interval ↑trades (mint, k) = some v := by
  rw [buildCandles_lookup, mem_candleSeries, ← group_tradeKey]
  by_cases h0 : View.group (tradeKey interval) (trades : Multiset InferredTrade) (mint, k) = 0
  · rw [candleView, View.of_eq_none.2 h0]
    refine ⟨fun ⟨⟨t, ht, hk⟩, _⟩ => ?_, nofun⟩
    obtain ⟨ht, hm⟩ := List.mem_filter.1 ht
    have hkey : tradeKey interval t = (mint, k) := by rw [tradeKey, of_decide_eq_true hm, hk]
    exact absurd hkey (View.group_eq_zero.1 h0 t ht)
  · rw [candleView, View.of_eq_some h0, Option.some.injEq, and_iff_right_iff_imp]
    intro _
    obtain ⟨t, ht⟩ := Multiset.exists_mem_of_ne_zero h0
    obtain ⟨ht, hkey⟩ := View.mem_group.1 ht
    rw [tradeKey, Prod.mk.injEq] at hkey
    exact ⟨t, List.mem_filter.2 ⟨ht, decide_eq_true hkey.1⟩, hkey.2⟩

/-! ## Comparing series -/

/-- Bucket start, high, low and volume of a candle. -/
def Candle.entry (c : Candle) : ℤ × ℚ × ℚ × ℚ := (c.bucketStart, c.summary)

/-- Two series in bucket order have the same entries as lists when they have the same entries. -/
theorem entries_ext {cs cs' : List Candle} (h : (cs.map (·.bucketStart)).Pairwise (· < ·))
    (h' : (cs'.map (·.bucketStart)).Pairwise (· < ·)) :
    cs.map (·.entry) = cs'.map (·.entry) ↔
      ∀ k v, (∃ c ∈ cs, c.bucketStart = k ∧ c.summary = v) ↔ ∃ c ∈ cs', c.bucketStart = k ∧ c.summary = v := by
  have hmem (l : List Candle) (k : ℤ) (v : ℚ × ℚ × ℚ) :
      (k, v) ∈ l.map (·.entry) ↔ ∃ c ∈ l, c.bucketStart = k ∧ c.summary = v := by
    simp [Candle.entry]
  simp only [← hmem]
  refine ⟨fun he k v => by rw [he], fun he => ?_⟩
  have hlt : (cs.map (·.entry)).Pairwise fun x y => x.1 < y.1 := by
    rwa [List.pairwise_map] at h ⊢
  have hlt' : (cs'.map (·.entry)).Pairwise fun x y => x.1 < y.1 := by
    rwa [List.pairwise_map] at h' ⊢
  exact StableSort.eq_of_mem_iff hlt hlt' fun x => he x.1 x.2

end Tenso.Ohlcv
