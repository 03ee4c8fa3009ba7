import Tenso.Lib.StableSort
import Tenso.Ohlcv.Candles

/-!
# Opens and closes

The open and the close of a candle are the prices of the first and of the last trade of its bucket, in the order that
a stable sort by time leaves. They are the only parts of a series that depend on the order of the trades
(`candleSeries_eq_iff`), and they depend on the order within one second only: the open is the price of the first
trade, in list order, of the first second of the bucket that has a trade (`openPrice_eq`), the close that of the last
trade of the last such second (`closePrice_eq`).

Trades come in groups, one for each transaction, and the groups come in any order. The opens and closes are those of
every order exactly when the groups that trade in such a second agree on the price there (`TiesAgree.prices`,
`tiesAgree_of_orders`).
-/

namespace Tenso.Ohlcv

open StableSort

variable {A : Arithmetic}

/-- The price of the first trade of a bucket. -/
def openPrice (interval k : ℤ) (l : List InferredTrade) : Option ℚ :=
  (bucketTrades interval k l).head?.map (·.priceInSol)

/-- The price of the last trade of a bucket. -/
def closePrice (interval k : ℤ) (l : List InferredTrade) : Option ℚ :=
  (bucketTrades interval k l).getLast?.map (·.priceInSol)

theorem bucketTrades_sorted (interval k : ℤ) (l : List InferredTrade) :
    (bucketTrades interval k l).Pairwise fun s t => s.blockTime ≤ t.blockTime :=
  (sort_pairwise (·.blockTime) l).filter _

/-- A bucket without trades has neither an open nor a close, in any order of the trades. -/
theorem prices_of_empty {interval k : ℤ} {l l' : List InferredTrade} (hp : l.Perm l')
    (h : ¬∃ t ∈ l, bucketStart t.blockTime interval = k) :
    openPrice interval k l = openPrice interval k l' ∧ closePrice interval k l = closePrice interval k l' := by
  have hnil : bucketTrades interval k l = [] :=
    List.eq_nil_iff_forall_not_mem.2 fun t ht => h ⟨t, mem_bucketTrades.1 ht⟩
  have hnil' : bucketTrades interval k l' = [] :=
    List.eq_nil_iff_forall_not_mem.2 fun t ht => h ⟨t, by simpa only [hp.mem_iff] using mem_bucketTrades.1 ht⟩
  simp [openPrice, closePrice, hnil, hnil']

/-- In a sorted list the trades of a bucket are those that the list has, in its order. -/
theorem bucketTrades_of_sorted {interval k : ℤ} {l : List InferredTrade}
    (h : l.Pairwise fun s t => s.blockTime ≤ t.blockTime) :
    bucketTrades interval k l = l.filter fun t => bucketStart t.blockTime interval = k := by
  rw [bucketTrades, h.insertionSort_eq]

/-! ## Candles and series -/

theorem candleOf_open (k : ℤ) (bt : List InferredTrade) :
    (candleOf A k bt).open = (bt.head?.map (·.priceInSol)).getD 0 := by
  simp [candleOf, List.headD_eq_head?_getD]

theorem candleOf_close (k : ℤ) (bt : List InferredTrade) :
    (candleOf A k bt).close = (bt.getLast?.map (·.priceInSol)).getD 0 := by
  simp [candleOf, List.getLastD_eq_getLast?]

theorem Candle.eq_iff (c c' : Candle) :
    c = c' ↔ c.bucketStart = c'.bucketStart ∧ c.summary = c'.summary ∧ c.open = c'.open ∧ c.close = c'.close := by
  cases c
  cases c'
  simp only [Candle.mk.injEq, Candle.summary, Prod.mk.injEq]
  tauto

/-- Candles of the same trades differ in open and close only. -/
theorem candleOf_eq_iff {k : ℤ} {bt bt' : List InferredTrade} (h : bt.Perm bt') :
    candleOf .exact k bt = candleOf .exact k bt' ↔
    bt.head?.map (·.priceInSol) = bt'.head?.map (·.priceInSol) ∧
    bt.getLast?.map (·.priceInSol) = bt'.getLast?.map (·.priceInSol) := by
  simp only [Candle.eq_iff, candleOf_summary_perm k h, candleOf_open, candleOf_close, true_and]
  rw [and_iff_right (show (candleOf .exact k bt).bucketStart = (candleOf .exact k bt').bucketStart from rfl)]
  -- both lists have a first and a last trade, or neither has
  cases bt with
  | nil => simp [h.symm.eq_nil]
  | cons t bt =>
    cases bt' with
    | nil => cases h.eq_nil
    | cons t' bt' => simp [List.getLast?_cons]

/-- The bucket starts do not depend on the order of the trades. -/
theorem bucketKeys_perm (ord ord' : HashMap.IterOrder) {l l' : List InferredTrade} (h : l.Perm l') (interval : ℤ) :
    bucketKeys ord l interval = bucketKeys ord' l' interval := by
  refine @eq_of_mem_iff _ _ _ id _ _ (bucketKeys_sorted ord l interval) (bucketKeys_sorted ord' l' interval) fun k => ?_
  simp only [mem_bucketKeys, h.mem_iff]

/-- Two series of the same trades are equal when each bucket has the same open and the same close. -/
theorem candleSeries_eq_iff (ord ord' : HashMap.IterOrder) {l l' : List InferredTrade} (h : l.Perm l') (interval : ℤ) :
    candleSeries .exact ord l interval = candleSeries .exact ord' l' interval ↔
      ∀ k, openPrice interval k l = openPrice interval k l' ∧ closePrice interval k l = closePrice interval k l' := by
  have hbucket (k : ℤ) : (bucketTrades interval k l).Perm (bucketTrades interval k l') :=
    (bucketTrades_perm interval k l).trans ((h.filter _).trans (bucketTrades_perm interval k l').symm)
  rw [candleSeries_eq_map, candleSeries_eq_map, bucketKeys_perm ord ord' h, List.map_inj_left]
  refine ⟨fun heq k => ?_, fun hprices k _ => (candleOf_eq_iff (hbucket k)).2 (hprices k)⟩
  by_cases hk : k ∈ bucketKeys ord' l' interval
  · exact (candleOf_eq_iff (hbucket k)).1 (heq k hk)
  · exact prices_of_empty h (by simpa only [mem_bucketKeys, h.mem_iff] using hk)

/-- A candle opens and closes at the prices of its bucket. -/
theorem prices_of_mem_candleSeries {ord : HashMap.IterOrder} {l : List InferredTrade} {interval : ℤ} {c : Candle}
    (hc : c ∈ candleSeries A ord l interval) :
    openPrice interval c.bucketStart l = some c.open ∧ closePrice interval c.bucketStart l = some c.close := by
  rw [candleSeries_eq_map] at hc
  obtain ⟨k, hk, rfl⟩ := List.mem_map.1 hc
  obtain ⟨t, ht⟩ := mem_bucketKeys.1 hk
  obtain ⟨x, xs, hbt⟩ := List.exists_cons_of_ne_nil (List.ne_nil_of_mem (mem_bucketTrades.2 ht))
  rw [candleOf_open, candleOf_close]
  show openPrice interval k l = _ ∧ closePrice interval k l = _
  simp [openPrice, closePrice, hbt, List.getLast?_cons]

/-- The candles of a series open and close at the prices of another order of its trades when each bucket does. -/
theorem forall_candleSeries_iff (ord : HashMap.IterOrder) {l l' : List InferredTrade} (h : l.Perm l') (interval : ℤ) :
    (∀ c ∈ candleSeries A ord l interval, openPrice interval c.bucketStart l' = some c.open ∧
      closePrice interval c.bucketStart l' = some c.close) ↔
      ∀ k, openPrice interval k l = openPrice interval k l' ∧ closePrice interval k l = closePrice interval k l' := by
  constructor
  · intro hcandles k
    by_cases hk : k ∈ bucketKeys ord l interval
    · have hc : candleOf A k (bucketTrades interval k l) ∈ candleSeries A ord l interval := by
        rw [candleSeries_eq_map]
        exact List.mem_map_of_mem hk
      obtain ⟨hopen, hclose⟩ := prices_of_mem_candleSeries hc
      exact ⟨hopen.trans (hcandles _ hc).1.symm, hclose.trans (hcandles _ hc).2.symm⟩
    · exact prices_of_empty h (mt mem_bucketKeys.2 hk)
  · intro hprices c hc
    rw [← (hprices _).1, ← (hprices _).2]
    exact prices_of_mem_candleSeries hc

/-- The candles of the same trades are equal for a mint when each bucket has the same open and the same close. -/
theorem buildCandles_lookup_eq_iff (ord ord' : HashMap.IterOrder) {trades trades' : List InferredTrade}
    (h : trades.Perm trades') (interval : ℤ) (mint : String) :
    (buildCandles .exact ord trades interval).lookup mint = (buildCandles .exact ord' trades' interval).lookup mint ↔
    ∀ k,
      openPrice interval k (trades.filter (·.mint = mint)) = openPrice interval k (trades'.filter (·.mint = mint)) ∧
      closePrice interval k (trades.filter (·.mint = mint)) =
        closePrice interval k (trades'.filter (·.mint = mint)) := by
  rw [← candleSeries_eq_iff ord ord' (h.filter _)]
  constructor
  · intro heq
    rw [← buildCandles_lookup, ← buildCandles_lookup, heq]
  · intro heq
    ext series
    simp only [buildCandles_lookup_eq_some, heq, h.mem_iff]

/-! ## The first and the last second of a bucket -/

/-- The first second of its bucket that has a trade. -/
def IsFirst (interval : ℤ) (l : List InferredTrade) (t : ℤ) : Prop :=
  (∃ x ∈ l, x.blockTime = t) ∧ ∀ x ∈ l, bucketStart x.blockTime interval = bucketStart t interval → t ≤ x.blockTime

/-- The last second of its bucket that has a trade. -/
def IsLast (interval : ℤ) (l : List InferredTrade) (t : ℤ) : Prop :=
  (∃ x ∈ l, x.blockTime = t) ∧ ∀ x ∈ l, bucketStart x.blockTime interval = bucketStart t interval → x.blockTime ≤ t

section Seconds

variable {interval : ℤ} {l l' : List InferredTrade} {t k : ℤ}

theorem IsFirst.perm (h : IsFirst interval l t) (hp : l'.Perm l) : IsFirst interval l' t := by
  simpa only [IsFirst, hp.mem_iff] using h

theorem IsLast.perm (h : IsLast interval l t) (hp : l'.Perm l) : IsLast interval l' t := by
  simpa only [IsLast, hp.mem_iff] using h

/-- The trades of a second, among those of its bucket. -/
theorem filter_bucket (interval : ℤ) (l : List InferredTrade) (t : ℤ) :
    (l.filter fun x => bucketStart x.blockTime interval = bucketStart t interval).filter (·.blockTime = t) =
      l.filter (·.blockTime = t) := by
  rw [List.filter_filter]
  apply List.filter_congr
  intro x _
  by_cases hx : x.blockTime = t <;> simp [hx]

/-- The open is the price of the first trade of the first second. -/
theorem openPrice_eq (h : IsFirst interval l t) :
    openPrice interval (bucketStart t interval) l = (l.filter (·.blockTime = t)).head?.map (·.priceInSol) := by
  obtain ⟨⟨x, hx, hxt⟩, hle⟩ := h
  rw [openPrice, bucketTrades, head?_filter_sort (t := t), filter_bucket]
  · exact ⟨x, List.mem_filter.2 ⟨hx, by simp [hxt]⟩, hxt⟩
  · intro y hy
    obtain ⟨hy, hb⟩ := List.mem_filter.1 hy
    exact hle y hy (of_decide_eq_true hb)

/-- The close is the price of the last trade of the last second. -/
theorem closePrice_eq (h : IsLast interval l t) :
    closePrice interval (bucketStart t interval) l = (l.filter (·.blockTime = t)).getLast?.map (·.priceInSol) := by
  obtain ⟨⟨x, hx, hxt⟩, hle⟩ := h
  rw [closePrice, bucketTrades, getLast?_filter_sort (t := t), filter_bucket]
  · exact ⟨x, List.mem_filter.2 ⟨hx, by simp [hxt]⟩, hxt⟩
  · intro y hy
    obtain ⟨hy, hb⟩ := List.mem_filter.1 hy
    exact hle y hy (of_decide_eq_true hb)

/-- A bucket with a trade has a first second. -/
theorem exists_isFirst (h : ∃ x ∈ l, bucketStart x.blockTime interval = k) :
    ∃ t, IsFirst interval l t ∧ bucketStart t interval = k := by
  have hsorted := bucketTrades_sorted interval k l
  obtain ⟨x₀, hx₀⟩ := h
  obtain ⟨x, xs, hbt⟩ := List.exists_cons_of_ne_nil (List.ne_nil_of_mem (mem_bucketTrades.2 hx₀))
  obtain ⟨hx, rfl⟩ := mem_bucketTrades.1 (by rw [hbt]; exact List.mem_cons_self : x ∈ bucketTrades interval k l)
  refine ⟨x.blockTime, ⟨⟨x, hx, rfl⟩, fun y hy hb => ?_⟩, rfl⟩
  have hy' := mem_bucketTrades.2 ⟨hy, hb⟩
  rw [hbt] at hsorted hy'
  rcases List.mem_cons.1 hy' with rfl | hy'
  · exact le_rfl
  · exact (List.pairwise_cons.1 hsorted).1 y hy'

/-- A bucket with a trade has a last second. -/
theorem exists_isLast (h : ∃ x ∈ l, bucketStart x.blockTime interval = k) :
    ∃ t, IsLast interval l t ∧ bucketStart t interval = k := by
  have hsorted := bucketTrades_sorted interval k l
  obtain ⟨x₀, hx₀⟩ := h
  obtain ⟨xs, x, hbt⟩ := (List.eq_nil_or_concat' _).resolve_left (List.ne_nil_of_mem (mem_bucketTrades.2 hx₀))
  obtain ⟨hx, rfl⟩ := mem_bucketTrades.1 (by simp [hbt] : x ∈ bucketTrades interval k l)
  refine ⟨x.blockTime, ⟨⟨x, hx, rfl⟩, fun y hy hb => ?_⟩, rfl⟩
  have hy' := mem_bucketTrades.2 ⟨hy, hb⟩
  rw [hbt] at hsorted hy'
  rcases List.mem_append.1 hy' with hy' | hy'
  · exact (List.pairwise_append.1 hsorted).2.2 y hy' x (by simp)
  · rw [List.mem_singleton.1 hy']

end Seconds

/-! ## Groups of trades -/

/-- Ties agree: the groups that trade in the first second of a bucket have one first price there, and the groups that
trade in its last second have one last price there. -/
structure TiesAgree (interval : ℤ) (gs : List (List InferredTrade)) : Prop where
  first : ∀ t, IsFirst interval gs.flatten t → HeadsAgree (·.priceInSol) (gs.map (·.filter (·.blockTime = t)))
  last : ∀ t, IsLast interval gs.flatten t → LastsAgree (·.priceInSol) (gs.map (·.filter (·.blockTime = t)))

section Groups

variable {interval : ℤ}

/-- When ties agree, all orders of the groups have the same opens and closes. -/
theorem TiesAgree.prices {gs gs' : List (List InferredTrade)} (h : TiesAgree interval gs) (hp : gs'.Perm gs) (k : ℤ) :
    openPrice interval k gs'.flatten = openPrice interval k gs.flatten ∧
    closePrice interval k gs'.flatten = closePrice interval k gs.flatten := by
  by_cases hex : ∃ x ∈ gs.flatten, bucketStart x.blockTime interval = k
  · constructor
    · obtain ⟨t, ht, rfl⟩ := exists_isFirst hex
      rw [openPrice_eq ht, openPrice_eq (ht.perm hp.flatten), List.filter_flatten, List.filter_flatten]
      exact (h.first t ht).head?_flatten (hp.map _)
    · obtain ⟨t, ht, rfl⟩ := exists_isLast hex
      rw [closePrice_eq ht, closePrice_eq (ht.perm hp.flatten), List.filter_flatten, List.filter_flatten]
      exact (h.last t ht).getLast?_flatten (hp.map _)
  · exact prices_of_empty hp.flatten (by simpa only [hp.flatten.mem_iff] using hex)

/-- **If all orders have the same opens and closes**, ties agree. -/
theorem tiesAgree_of_orders {ε : Type} {es : List ε} {f : ε → List InferredTrade} {o c : ℤ → Option ℚ}
    (h : ∀ (ord : HashMap.IterOrder) (k : ℤ), openPrice interval k ((ord.iter es).flatMap f) = o k ∧
      closePrice interval k ((ord.iter es).flatMap f) = c k) : TiesAgree interval (es.map f) := by
  have hperm (ord : HashMap.IterOrder) : ((ord.iter es).flatMap f).Perm (es.map f).flatten := by
    rw [← List.flatMap_def]
    exact (ord.perm es).flatMap_right f
  constructor
  · intro t ht
    have hval : ∀ e ∈ es, ∀ x, ((f e).filter (·.blockTime = t)).head? = some x →
        o (bucketStart t interval) = some x.priceInSol := by
      intro e he x hx
      obtain ⟨ord, hord⟩ := exists_order_head? (f := fun e => (f e).filter (·.blockTime = t)) he hx
      rw [← (h ord _).1, openPrice_eq (ht.perm (hperm ord)), List.filter_flatMap, hord, Option.map_some]
    simp only [HeadsAgree, List.map_map, List.forall_mem_map, Function.comp_apply]
    intro e he e' he' x hx x' hx'
    exact Option.some.inj ((hval e he x hx).symm.trans (hval e' he' x' hx'))
  · intro t ht
    have hval : ∀ e ∈ es, ∀ x, ((f e).filter (·.blockTime = t)).getLast? = some x →
        c (bucketStart t interval) = some x.priceInSol := by
      intro e he x hx
      obtain ⟨ord, hord⟩ := exists_order_getLast? (f := fun e => (f e).filter (·.blockTime = t)) he hx
      rw [← (h ord _).2, closePrice_eq (ht.perm (hperm ord)), List.filter_flatMap, hord, Option.map_some]
    simp only [LastsAgree, List.map_map, List.forall_mem_map, Function.comp_apply]
    intro e he e' he' x hx x' hx'
    exact Option.some.inj ((hval e he x hx).symm.trans (hval e' he' x' hx'))

/-- Groups that trade at different times have no ties. -/
theorem tiesAgree_of_times {gs : List (List InferredTrade)}
    (h : gs.Pairwise fun g g' => ∀ x ∈ g, ∀ x' ∈ g', x.blockTime ≠ x'.blockTime) : TiesAgree interval gs := by
  have hsame : ∀ ⦃g⦄, g ∈ gs → ∀ ⦃g'⦄, g' ∈ gs → ∀ x ∈ g, ∀ x' ∈ g', x.blockTime = x'.blockTime → g = g' := by
    refine List.Pairwise.forall_of_forall_of_flip (fun g _ x _ x' _ _ => rfl) ?_ ?_
    · exact h.imp fun hne x hx x' hx' he => absurd he (hne x hx x' hx')
    · exact h.imp fun hne x hx x' hx' he => absurd he.symm (hne x' hx' x hx)
  have hone {t : ℤ} {g g' : List InferredTrade} (hg : g ∈ gs) (hg' : g' ∈ gs) {x x' : InferredTrade}
      (hx : x ∈ g.filter (·.blockTime = t)) (hx' : x' ∈ g'.filter (·.blockTime = t)) : g = g' := by
    simp only [List.mem_filter, decide_eq_true_eq] at hx hx'
    exact hsame hg hg' x hx.1 x' hx'.1 (hx.2.trans hx'.2.symm)
  constructor
  · intro t _
    simp only [HeadsAgree, List.forall_mem_map]
    intro g hg g' hg' x hx x' hx'
    cases hone hg hg' (List.mem_of_mem_head? hx) (List.mem_of_mem_head? hx')
    rw [Option.mem_unique hx hx']
  · intro t _
    simp only [LastsAgree, List.forall_mem_map]
    intro g hg g' hg' x hx x' hx'
    cases hone hg hg' (List.mem_of_mem_getLast? hx) (List.mem_of_mem_getLast? hx')
    rw [Option.mem_unique hx hx']

theorem TiesAgree.perm {gs gs' : List (List InferredTrade)} (h : TiesAgree interval gs) (hp : gs'.Perm gs) :
    TiesAgree interval gs' := by
  constructor
  · intro t ht
    have := h.first t (ht.perm hp.flatten.symm)
    simpa only [HeadsAgree, (hp.map _).mem_iff] using this
  · intro t ht
    have := h.last t (ht.perm hp.flatten.symm)
    simpa only [LastsAgree, (hp.map _).mem_iff] using this

end Groups

end Tenso.Ohlcv
